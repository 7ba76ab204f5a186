import Mathlib

/-!
# Doubly linked chains

A node has a link to the one before it and one to the one after it (`prev`, `next`).  `Linked` says
of a list of nodes that each is linked to the one after it in both directions.  A chain is changed
by linking one node to another, which writes one link of each: that leaves alone every chain which
does not go on from the first or come to the second (`Linked.link`), and joins two chains
(`Linked.join`).  Taking nodes out of a chain and putting a chain into another one are made of
these.

A chain that ends in a node without a successor has no node twice (`Linked.nodup`).
-/

set_option autoImplicit false

namespace Links

open Function List

universe u

variable {α : Type u} {prev next prev' next' : α → Option α} {l l₁ l₂ : List α} {a b t : α}

/-- Each node is linked to the one after it, in both directions. -/
def Linked (prev next : α → Option α) (l : List α) : Prop :=
  l.IsChain fun a b ↦ next a = some b ∧ prev b = some a

theorem linked_append_cons_cons : Linked prev next (l₁ ++ a :: b :: l₂) ↔
    Linked prev next (l₁ ++ [a]) ∧ (next a = some b ∧ prev b = some a) ∧
      Linked prev next (b :: l₂) :=
  isChain_append_cons_cons

theorem linked_reverse : Linked prev next l.reverse ↔ Linked next prev l := by
  simp only [Linked, isChain_reverse, and_comm]

theorem linked_iff : Linked prev next l ↔
    (l.IsChain fun a b ↦ next a = some b) ∧ l.reverse.IsChain fun a b ↦ prev a = some b := by
  rw [Linked, isChain_reverse]
  simp only [isChain_iff_forall_rel_of_append_cons_cons]
  exact ⟨fun h ↦ ⟨fun _ _ _ _ heq ↦ (h heq).1, fun _ _ _ _ heq ↦ (h heq).2⟩,
    fun h _ _ _ _ heq ↦ ⟨h.1 heq, h.2 heq⟩⟩

/-- A chain depends on no link from its last node, and on none back from its first. -/
theorem Linked.congr (h : Linked prev next l) (hnext : ∀ x ∈ l.dropLast, next' x = next x)
    (hprev : ∀ x ∈ l.tail, prev' x = prev x) : Linked prev' next' l := by
  rw [Linked, isChain_iff_forall_rel_of_append_cons_cons] at h ⊢
  intro x y l₁ l₂ heq
  subst heq
  rw [hnext x (by simp), hprev y (by cases l₁ <;> simp)]
  exact h rfl

section

variable [DecidableEq α]

/-- `a` is linked to `b`, and no node of the chain but perhaps the last is `a`, or but perhaps the
first is `b`. -/
theorem Linked.link (h : Linked prev next l) (ha : a ∉ l.dropLast) (hb : b ∉ l.tail) :
    Linked (update prev b (some a)) (update next a (some b)) l := by
  refine h.congr (fun x hx ↦ update_of_ne ?_ ..) fun x hx ↦ update_of_ne ?_ ..
  · rintro rfl
    exact ha hx
  · rintro rfl
    exact hb hx

/-- Two chains are joined by linking the end of the first to the start of the second. -/
theorem Linked.join (h1 : Linked prev next (l₁ ++ [a])) (h2 : Linked prev next (b :: l₂))
    (hnodup : (l₁ ++ a :: b :: l₂).Nodup) :
    Linked (update prev b (some a)) (update next a (some b))
      (l₁ ++ a :: b :: l₂) := by
  rw [linked_append_cons_cons, update_self, update_self]
  rw [nodup_append] at hnodup
  obtain ⟨-, hnodup2, hdisj⟩ := hnodup
  refine ⟨h1.link ?_ fun hb ↦ ?_, ⟨rfl, rfl⟩, h2.link (fun ha ↦ ?_) ?_⟩
  · rw [dropLast_concat]
    exact fun ha ↦ hdisj a ha a (by simp) rfl
  · have hb' := mem_of_mem_tail hb
    rcases mem_append.mp hb' with hb' | hb'
    · exact hdisj b hb' b (by simp) rfl
    · exact (nodup_cons.mp hnodup2).1 (by simp [mem_singleton.mp hb'])
  · exact (nodup_cons.mp hnodup2).1 (dropLast_subset _ ha)
  · exact (nodup_cons.mp (nodup_cons.mp hnodup2).2).1

end

/-- There is one way to go on from a node to one without a successor. -/
theorem Linked.unique (ht : next t = none) (h1 : Linked prev next (a :: (l₁ ++ [t])))
    (h2 : Linked prev next (a :: (l₂ ++ [t]))) : l₁ = l₂ := by
  have hlast : ∀ {b l}, ¬ Linked prev next (t :: b :: l) := by
    intro b l h
    cases ht.symm.trans (isChain_cons_cons.mp h).1.1
  induction l₁ generalizing a l₂ with
  | nil =>
    cases l₂ with
    | nil => rfl
    | cons b l₂ =>
      obtain ⟨⟨hb, -⟩, -⟩ := isChain_cons_cons.mp h1
      obtain ⟨⟨hb', -⟩, h2⟩ := isChain_cons_cons.mp h2
      obtain rfl : t = b := Option.some.inj (hb.symm.trans hb')
      cases l₂ <;> exact absurd h2 hlast
  | cons b l₁ ih =>
    obtain ⟨⟨hb, -⟩, h1⟩ := isChain_cons_cons.mp h1
    cases l₂ with
    | nil =>
      obtain ⟨⟨hb', -⟩, -⟩ := isChain_cons_cons.mp h2
      obtain rfl : b = t := Option.some.inj (hb.symm.trans hb')
      cases l₁ <;> exact absurd h1 hlast
    | cons b' l₂ =>
      obtain ⟨⟨hb', -⟩, h2⟩ := isChain_cons_cons.mp h2
      obtain rfl : b = b' := Option.some.inj (hb.symm.trans hb')
      rw [ih h1 h2]

/-- **No node is in a chain twice** that ends in one without a successor. -/
theorem Linked.nodup (ht : next t = none) (h : Linked prev next (l ++ [t])) : (l ++ [t]).Nodup := by
  induction l with
  | nil => exact nodup_singleton t
  | cons a l ih =>
    refine nodup_cons.mpr ⟨fun hmem ↦ ?_, ih (List.IsChain.tail h)⟩
    rcases mem_append.mp hmem with ha | ha
    · -- From the second place on there is a shorter way to the end.
      obtain ⟨l₁, l₂, rfl⟩ := append_of_mem ha
      have h2 : Linked prev next (a :: (l₂ ++ [t])) := by
        refine List.IsChain.suffix h ⟨a :: l₁, ?_⟩
        simp
      have heq := congrArg List.length (Linked.unique ht h h2)
      simp only [length_append, length_cons] at heq
      omega
    · obtain rfl := mem_singleton.mp ha
      cases l <;> cases ht.symm.trans (isChain_cons_cons.mp h).1.1

end Links
