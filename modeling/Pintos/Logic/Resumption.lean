import Pintos.Logic.Run

/-!
# Computations that give way to each other

A `Resumption σ α` is a computation on a shared state `σ`, cut into the steps that no other
computation can interrupt.  It is a monad, with `Resumption.act` for a single step, and
`Resumption.run` is what it comes to if nobody interferes.

A `Resumption.Pair` is two of them on one state, and a schedule is the list of the sides that move.
If each side only moves while the other one has not begun or has returned, the outcome is that of
one computation after the other (`Resumption.Pair.serial`).
-/

set_option autoImplicit false

/-- A computation on a shared state. -/
inductive Resumption (σ α : Type) where
  | done (a : α)
  /-- It does not go on. -/
  | stuck
  /-- It takes the state to `f`, and goes on as `k` says of the state it has found. -/
  | step (f : σ → Option σ) (k : σ → Resumption σ α)

namespace Resumption

open Function Option

variable {σ α β : Type}

/-- One computation after the other. -/
def bind (t : Resumption σ α) (g : α → Resumption σ β) : Resumption σ β :=
  match t with
  | .done a => g a
  | .stuck => .stuck
  | .step f k => .step f fun s ↦ (k s).bind g

instance : Monad (Resumption σ) where
  pure := done
  bind := bind

/-- A single step. -/
def act (f : σ → Option (α × σ)) : Resumption σ α :=
  step (fun s ↦ (f s).map Prod.snd) fun s ↦ (f s).elim stuck fun r ↦ done r.1

/-- The result, once it is there. -/
def result : Resumption σ α → Option α
  | done a => some a
  | _ => none

/-- What it comes to if nobody interferes. -/
def run : Resumption σ α → σ → Option (α × σ)
  | done a, s => some (a, s)
  | stuck, _ => none
  | step f k, s => (f s).bind (k s).run

@[simp] theorem run_pure (a : α) (s : σ) : (pure a : Resumption σ α).run s = some (a, s) := rfl

@[simp] theorem run_act (f : σ → Option (α × σ)) (s : σ) : (act f).run s = f s := by
  rw [act, run]
  cases h : f s with
  | none => rfl
  | some r => rfl

@[simp] theorem run_bind (t : Resumption σ α) (g : α → Resumption σ β) (s : σ) :
    (t >>= g).run s = (t.run s).bind fun r ↦ (g r.1).run r.2 := by
  show (t.bind g).run s = _
  induction t generalizing s with
  | done a => rfl
  | stuck => rfl
  | step f k ih =>
    rw [bind, run, run, bind_assoc]
    exact bind_congr fun s' _ ↦ ih s s'

theorem eq_done_of_result_eq {t : Resumption σ α} {a : α} (h : t.result = some a) :
    t = .done a := by
  cases t with
  | done b => exact congrArg done (some.inj h)
  | stuck => cases h
  | step f k => cases h

theorem run_ite {c : Prop} [Decidable c] (t u : Resumption σ α) (s : σ) :
    (if c then t else u).run s = if c then t.run s else u.run s := apply_ite (fun t ↦ t.run s) c t u

/-- Which of two computations moves. -/
inductive Side where
  | left
  | right
  deriving DecidableEq, Repr

/-- The other one. -/
def Side.other : Side → Side
  | left => right
  | right => left

theorem Side.other_ne (i : Side) : i.other ≠ i := by
  cases i <;> decide

@[simp] theorem Side.other_other (i : Side) : i.other.other = i := by
  cases i <;> rfl

theorem Side.eq_or (i j : Side) : j = i ∨ j = i.other := by
  cases i <;> cases j <;> decide

/-- Two computations on one state. -/
structure Pair (σ α : Type) where
  shared : σ
  task : Side → Resumption σ α
  /-- Which of them have taken a step. -/
  begun : Side → Bool

namespace Pair

/-- Before their first steps. -/
def start (s : σ) (task : Side → Resumption σ α) : Pair σ α := ⟨s, task, fun _ ↦ false⟩

/-- One side moves. -/
def step (p : Pair σ α) (i : Side) : Option (Pair σ α) :=
  match p.task i with
  | .step f k => (f p.shared).map fun s ↦
      ⟨s, Function.update p.task i (k p.shared), Function.update p.begun i true⟩
  | _ => none

/-- The other side has not begun, or has returned. -/
def Alone (p : Pair σ α) (i : Side) : Prop :=
  p.begun i.other = false ∨ (p.task i.other).result.isSome = true

instance (p : Pair σ α) (i : Side) : Decidable (p.Alone i) := inferInstanceAs (Decidable (_ ∨ _))

/-- Side `i` moves first: either it is the only one so far, or it has returned. -/
def SerialFrom (s : σ) (task : Side → Resumption σ α) (i : Side) (p : Pair σ α) : Prop :=
  (p.begun i.other = false ∧ p.task i.other = task i.other ∧
      (p.begun i = false → p.task i = task i ∧ p.shared = s) ∧
      (p.task i).run p.shared = (task i).run s) ∨
    ∃ a m, p.task i = .done a ∧ (task i).run s = some (a, m) ∧
      (p.task i.other).run p.shared = (task i.other).run m

variable {s : σ} {task : Side → Resumption σ α} {p p' : Pair σ α} {i j : Side}

theorem step_eq_some (h : p.step i = some p') : ∃ f k s', p.task i = .step f k ∧
    f p.shared = some s' ∧
    p' = ⟨s', update p.task i (k p.shared), update p.begun i true⟩ := by
  rw [step] at h
  split at h
  · next f k heq =>
    obtain ⟨s', hf, rfl⟩ := map_eq_some_iff.mp h
    exact ⟨f, k, s', heq, hf, rfl⟩
  · cases h

/-- The side that moves is on its way to the same outcome. -/
theorem run_step (h : p.step i = some p') :
    (p'.task i).run p'.shared = (p.task i).run p.shared := by
  obtain ⟨f, k, s', htask, hf, rfl⟩ := step_eq_some h
  dsimp only
  rw [update_self, htask, run, hf, bind_some]

theorem task_step (h : p.step i = some p') : p'.task i.other = p.task i.other := by
  obtain ⟨f, k, s', htask, hf, rfl⟩ := step_eq_some h
  exact update_of_ne i.other_ne _ _

theorem begun_step (h : p.step i = some p') :
    p'.begun i = true ∧ p'.begun i.other = p.begun i.other := by
  obtain ⟨f, k, s', htask, hf, rfl⟩ := step_eq_some h
  exact ⟨update_self .., update_of_ne i.other_ne _ _⟩

theorem SerialFrom.step_self (h : SerialFrom s task i p) (hstep : p.step i = some p') :
    SerialFrom s task i p' := by
  rcases h with ⟨hbegun, hother, -, hrun⟩ | ⟨a, m, hdone, -⟩
  · refine .inl ⟨(begun_step hstep).2.trans hbegun, (task_step hstep).trans hother, fun h ↦ ?_,
      (run_step hstep).trans hrun⟩
    cases h.symm.trans (begun_step hstep).1
  · obtain ⟨f, k, s', htask, -⟩ := step_eq_some hstep
    cases hdone.symm.trans htask

theorem SerialFrom.step_other (h : SerialFrom s task i p) (halone : p.Alone i.other)
    (hstep : p.step i.other = some p') : SerialFrom s task i p' ∨ SerialFrom s task i.other p' := by
  have hself : p'.task i = p.task i := by simpa using task_step hstep
  rcases h with ⟨hbegun, hother, hfirst, hrun⟩ | ⟨a, m, hdone, hrun, hnext⟩
  · rcases halone with hno | hreturned
    · -- Nobody has begun, so that the other side may be the first one.
      rw [Side.other_other] at hno
      obtain ⟨htask, hshared⟩ := hfirst hno
      refine .inr (SerialFrom.step_self (.inl ⟨?_, ?_, fun _ ↦ ⟨hother, hshared⟩, ?_⟩) hstep)
      · rwa [Side.other_other]
      · rwa [Side.other_other]
      · rw [hother, hshared]
    · rw [Side.other_other] at hreturned
      obtain ⟨a, ha⟩ := isSome_iff_exists.mp hreturned
      replace ha := eq_done_of_result_eq ha
      rw [ha, run] at hrun
      refine .inl (.inr ⟨a, p.shared, hself.trans ha, hrun.symm, ?_⟩)
      rw [run_step hstep, hother]
  · exact .inl (.inr ⟨a, m, hself.trans hdone, hrun, (run_step hstep).trans hnext⟩)

/-- One side was first, and the other one has not interfered. -/
theorem serial_invariant {is : List Side} (hmeets : Run.Meets step Alone (start s task) is)
    (hrun : Run.run step (start s task) is = some p) : ∃ i, SerialFrom s task i p := by
  refine Run.invariant (I := fun p ↦ ∃ i, SerialFrom s task i p) ?_
    ⟨.left, .inl ⟨rfl, rfl, fun _ ↦ ⟨rfl, rfl⟩, rfl⟩⟩ hmeets hrun
  rintro p j p' ⟨i, h⟩ halone hstep
  rcases Side.eq_or i j with rfl | rfl
  · exact ⟨j, h.step_self hstep⟩
  · rcases h.step_other halone hstep with h | h
    · exact ⟨i, h⟩
    · exact ⟨i.other, h⟩

/-- **Computations that do not overlap run one after the other.** -/
theorem serial {is : List Side} {a : Side → α} (hmeets : Run.Meets step Alone (start s task) is)
    (hrun : Run.run step (start s task) is = some p) (hdone : ∀ i, (p.task i).result = some (a i)) :
    ∃ i m, (task i).run s = some (a i, m) ∧ (task i.other).run m = some (a i.other, p.shared) := by
  obtain ⟨i, h⟩ := serial_invariant hmeets hrun
  have hi := eq_done_of_result_eq (hdone i)
  have hother := eq_done_of_result_eq (hdone i.other)
  rcases h with ⟨-, htask, -, hfirst⟩ | ⟨b, m, hb, hfirst, hnext⟩
  · refine ⟨i, p.shared, ?_, ?_⟩
    · rw [← hfirst, hi, run]
    · rw [← htask, hother, run]
  · cases hi.symm.trans hb
    refine ⟨i, m, hfirst, ?_⟩
    rw [← hnext, hother, run]

end Pair

end Resumption
