import Mathlib

/-!
# Lists that are kept in order of priority

A queue is a list whose elements have a priority and a stamp, which says when they came in.  In an
ordered queue the priorities do not increase, and if the queue is also fair (`fifo`), elements of
the same priority stand in the order they came in.  An element that is put before the first one it
outranks keeps the queue ordered (`Ordered.insert`); so does anything that takes elements out
(`Ordered.sublist`), leaves the elements in the queue alone (`Ordered.congr`) or raises all of them
alike (`Ordered.mono`).  The first element of an ordered queue is one of the highest priority
(`Ordered.le_head`).
-/

set_option autoImplicit false

namespace PriorityQueue

open List

universe u v

variable {α : Type u} {β : Type v} [LinearOrder β] {fifo : Prop} {priority priority' : α → β}
  {stamp stamp' : α → Nat} {l l' : List α} {a b c t : α}

/-- The element `a` may stand before `b`. -/
def Before (fifo : Prop) (priority : α → β) (stamp : α → Nat) (a b : α) : Prop :=
  priority b < priority a ∨ priority a = priority b ∧ (fifo → stamp a < stamp b)

theorem Before.le (h : Before fifo priority stamp a b) : priority b ≤ priority a :=
  h.elim le_of_lt fun h ↦ h.1.ge

theorem Before.of_lt_of_le (h : priority b < priority a) (h' : priority c ≤ priority b) :
    Before fifo priority stamp a c :=
  .inl (h'.trans_lt h)

/-- A queue in order of priority. -/
def Ordered (fifo : Prop) (priority : α → β) (stamp : α → Nat) (l : List α) : Prop :=
  l.Pairwise (Before fifo priority stamp)

namespace Ordered

section

variable (h : Ordered fifo priority stamp l)

include h

theorem sublist (hl : l'.Sublist l) :
    Ordered fifo priority stamp l' :=
  Pairwise.sublist hl h

/-- Elements outside the queue do not matter. -/
theorem congr (hpriority : ∀ a ∈ l, priority' a = priority a)
    (hstamp : ∀ a ∈ l, stamp' a = stamp a) : Ordered fifo priority' stamp' l := by
  refine Pairwise.imp_of_mem (fun {a b} ha hb hab ↦ ?_) h
  rwa [Before, hpriority a ha, hpriority b hb, hstamp a ha, hstamp b hb]

/-- New priorities that respect the old ones. -/
theorem mono (hfifo : ¬ fifo)
    (hmono : ∀ a ∈ l, ∀ b ∈ l, priority b ≤ priority a → priority' b ≤ priority' a) :
    Ordered fifo priority' stamp' l := by
  refine Pairwise.imp_of_mem (fun {a b} ha hb hab ↦ ?_) h
  rcases (hmono a ha b hb hab.le).lt_or_eq with hlt | heq
  · exact .inl hlt
  · exact .inr ⟨heq.symm, fun hf ↦ absurd hf hfifo⟩

/-- The last one to come in is put before the first element that it outranks. -/
theorem insert {r : α → α → Prop} [DecidableRel r]
    (hr : ∀ b ∈ l, r t b ↔ priority b < priority t) (hlast : ∀ b ∈ l, stamp b < stamp t) :
    Ordered fifo priority stamp (l.orderedInsert r t) := by
  induction l with
  | nil => exact pairwise_singleton _ _
  | cons a l ih =>
    obtain ⟨hbefore, hl⟩ := pairwise_cons.mp h
    rw [orderedInsert]
    split
    · next hat =>
      have hlt := (hr a mem_cons_self).mp hat
      refine pairwise_cons.mpr ⟨fun b hb ↦ ?_, h⟩
      rcases mem_cons.mp hb with rfl | hb
      · exact .inl hlt
      · exact .of_lt_of_le hlt (hbefore b hb).le
    · next hat =>
      have hle : priority t ≤ priority a :=
        not_lt.mp fun hlt ↦ hat ((hr a mem_cons_self).mpr hlt)
      refine pairwise_cons.mpr
        ⟨fun b hb ↦ ?_, ih hl (fun b hb ↦ hr b (mem_cons_of_mem a hb))
        fun b hb ↦ hlast b (mem_cons_of_mem a hb)⟩
      rcases mem_orderedInsert r |>.mp hb with rfl | hb
      · rcases hle.lt_or_eq with hlt | heq
        · exact .inl hlt
        · exact .inr ⟨heq.symm, fun _ ↦ hlast a mem_cons_self⟩
      · exact hbefore b hb

/-- The first element has the highest priority. -/
theorem le_head (ht : l.head? = some t) (ha : a ∈ l) :
    priority a ≤ priority t := by
  obtain ⟨rest, rfl⟩ := head?_eq_some_iff.mp ht
  rcases mem_cons.mp ha with rfl | ha
  · exact le_rfl
  · exact ((pairwise_cons.mp h).1 a ha).le

end

end Ordered

end PriorityQueue
