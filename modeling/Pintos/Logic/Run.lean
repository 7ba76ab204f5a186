import Pintos.Logic.Returns

/-!
# Runs of a partial step function

A system is a partial function `step : σ → α → Option σ`: an action `a` taken in the state `s`
either leads to `step s a` or cannot be taken there at all.  Everything that is not determined by
the state — which thread moves, which page is chosen, whether an allocation succeeds — is part of
the action, so a list of actions is one interleaving and `Run.run` replays it.

`Run.Meets step C s as` says that every action of the run is taken in a state where it meets the
condition `C`.  `Run.invariant` is the only induction a safety proof needs: a property of the first
state that every such action preserves holds at the end of the run, and since every initial part
of a run is a run, it holds in every state the run goes through.  `Run.simulates` is that for a
relation to an abstract system, whose steps are total: every action can be taken, too.
-/

set_option autoImplicit false

namespace Run

open Option

universe u v

variable {σ : Type u} {α : Type v} {step : σ → α → Option σ} {C D : σ → α → Prop} {as : List α}
  {I : σ → Prop}

/-- The state the actions `as` lead to from `s`, if all of them can be taken. -/
def run (step : σ → α → Option σ) : σ → List α → Option σ
  | s, [] => some s
  | s, a :: as => (step s a).bind fun s' ↦ run step s' as

/-- Every action of the run from `s` along `as` meets `C` in the state it is taken in. -/
def Meets (step : σ → α → Option σ) (C : σ → α → Prop) : σ → List α → Prop
  | _, [] => True
  | s, a :: as => C s a ∧ ∀ s' ∈ step s a, Meets step C s' as

instance decidableMeets [∀ s a, Decidable (C s a)] :
    ∀ (s : σ) (as : List α), Decidable (Meets step C s as)
  | _, [] => isTrue trivial
  | s, a :: as =>
    match h : step s a with
    | none => decidable_of_iff (C s a) (by simp [Meets, h])
    | some s' =>
      have := decidableMeets s' as
      decidable_of_iff (C s a ∧ Meets step C s' as) (by simp [Meets, h])

theorem run_cons {s t : σ} {a : α} :
    run step s (a :: as) = some t ↔ ∃ s', step s a = some s' ∧ run step s' as = some t := by
  rw [run, bind_eq_some_iff]

theorem run_append {s t : σ} {bs : List α} :
    run step s (as ++ bs) = some t ↔ ∃ m, run step s as = some m ∧ run step m bs = some t := by
  induction as generalizing s with
  | nil => simp [run]
  | cons a as ih =>
    rw [List.cons_append, run_cons]
    constructor
    · rintro ⟨s', hs, h⟩
      obtain ⟨m, hm, ht⟩ := ih.mp h
      exact ⟨m, run_cons.mpr ⟨s', hs, hm⟩, ht⟩
    · rintro ⟨m, hm, ht⟩
      obtain ⟨s', hs, h⟩ := run_cons.mp hm
      exact ⟨s', hs, ih.mpr ⟨m, h, ht⟩⟩

/-- **The invariant rule.**  A property that every action meeting `C` preserves holds at the end
of every run whose actions all meet `C`. -/
theorem invariant (hstep : ∀ s a s', I s → C s a → step s a = some s' → I s') :
    ∀ {s t : σ}, I s → Meets step C s as → run step s as = some t → I t := by
  induction as with
  | nil =>
    intro s t hI _ h
    rw [run, some_inj] at h
    exact h ▸ hI
  | cons a as ih =>
    intro s t hI hC h
    obtain ⟨s', hs, ht⟩ := run_cons.mp h
    exact ih (hstep s a s' hI hC.1 hs) (hC.2 s' hs) ht

theorem meets_true (s : σ) (as : List α) : Meets step (fun _ _ ↦ True) s as := by
  induction as generalizing s with
  | nil => trivial
  | cons a as ih => exact ⟨trivial, fun s' _ ↦ ih s'⟩

/-- The invariant rule for a property that every action preserves. -/
theorem invariant_of_step (hstep : ∀ s a s', I s → step s a = some s' → I s')
    {s t : σ} (hs : I s) (hrun : run step s as = some t) : I t :=
  invariant (fun s a s' hI _ h ↦ hstep s a s' hI h) hs (meets_true s as) hrun

/-- **The simulation rule.**  If every action meeting `C` can be taken, and takes related states to
related states, then every run whose actions all meet `C` can be taken, and does. -/
theorem simulates {τ : Type v} {f : τ → α → τ} {R : σ → τ → Prop}
    (hstep : ∀ s x a, R s x → C s a → Returns (step s a) fun s' ↦ R s' (f x a)) :
    ∀ {s : σ} {x : τ}, R s x → Meets step C s as →
      Returns (run step s as) fun s' ↦ R s' (as.foldl f x) := by
  induction as with
  | nil => exact fun hR _ ↦ .pure hR
  | cons a as ih =>
    intro s x hR hC
    obtain ⟨s', hs, hR'⟩ := hstep s x a hR hC.1
    rw [run, hs]
    exact ih hR' (hC.2 s' hs)

section

variable {τ β : Type*} {o : Option σ}

/-- **The evaluation rule.**  If what can be seen of the last state of a run computes to `b`, then
the run has a last state, with everything that follows from what is seen. -/
theorem exists_of_view {P : σ → Prop} (view : σ → β) (b : β) (hview : o.map view = some b)
    (h : ∀ s, o = some s → view s = b → P s) : ∃ s, o = some s ∧ P s := by
  obtain ⟨s, hs, hb⟩ := map_eq_some_iff.mp hview
  exact ⟨s, hs, h s hs hb⟩

/-- The evaluation rule for two states, one after the other. -/
theorem exists_of_view₂ {g : σ → Option τ} {P : σ → τ → Prop} (view : σ → τ → β) (b : β)
    (hview : (o.bind fun s ↦ (g s).map (view s)) = some b)
    (h : ∀ s t, o = some s → g s = some t → view s t = b → P s t) :
    ∃ s t, o = some s ∧ g s = some t ∧ P s t := by
  obtain ⟨s, hs, hb⟩ := bind_eq_some_iff.mp hview
  obtain ⟨t, ht, hb⟩ := map_eq_some_iff.mp hb
  exact ⟨s, t, hs, ht, h s t hs ht hb⟩

end

/-- How many actions of the run are taken in a state where they meet `C`. -/
def count (step : σ → α → Option σ) (C : σ → α → Prop) [∀ s a, Decidable (C s a)] :
    σ → List α → Nat
  | _, [] => 0
  | s, a :: as => (if C s a then 1 else 0) + (step s a).elim 0 fun s' ↦ count step C s' as

/-- A measure that no action raises, and that the actions meeting `D` lower, bounds their number. -/
theorem count_add_le [∀ s a, Decidable (D s a)] {μ : σ → Nat}
    (hstep : ∀ s a s', I s → C s a → step s a = some s' →
      I s' ∧ (if D s a then 1 else 0) + μ s' ≤ μ s) :
    ∀ {s t : σ}, I s → Meets step C s as → run step s as = some t →
      count step D s as + μ t ≤ μ s := by
  induction as with
  | nil =>
    intro s t _ _ h
    rw [run, some_inj] at h
    subst h
    exact Nat.le_of_eq (Nat.zero_add _)
  | cons a as ih =>
    intro s t hI hC h
    obtain ⟨s', hs, ht⟩ := run_cons.mp h
    obtain ⟨hI', hle⟩ := hstep s a s' hI hC.1 hs
    have := ih hI' (hC.2 s' hs) ht
    rw [count, hs, elim_some]
    omega

end Run
