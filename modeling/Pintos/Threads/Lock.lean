import Pintos.Logic.Discipline
import Pintos.Threads.Semaphore

/-!
# Locks

Acquiring a lock and releasing it take two steps each, and other threads may run in between.  What
is kept is that there is one token: it is the value of the semaphore, or on the way to or from it,
or `holder` says who has it.
-/

set_option autoImplicit false

namespace Pintos

open List Option

/-! ## Frames and locks -/

section

variable (cfg : Config) (l : LockId)

/-- If a frame is about a lock: whether the thread has the lock before and after it. -/
def Frame.onLock : Frame → Option (Bool × Bool)
  | .acquire m | .holder m => if m = l then some (false, true) else none
  | .down (.lock m) | .redown (.lock m) | .up (.lock m) | .tryAcquire m =>
    if m = l then some (false, false) else none
  | .release m => if m = l then some (true, false) else none
  | .condWait c | .condSignal c | .condBroadcast c =>
    if .lock (cfg.lockOf c) = l then some (true, true) else none
  | .initThread _ _ _ => if l = .tid then some (false, false) else none
  | .allocateTid _ _ => if l = .tid then some (true, false) else none
  | _ => none

/-- The lock is held, or not, where a frame says so. -/
def lockStep (held : Bool) (f : Frame) : Option Bool :=
  match f.onLock cfg l with
  | none => some held
  | some (before, after) => if held = before then some after else none

/-- The frames of a thread use a lock as they should; at the end it does not have `tid_lock`. -/
def Lawful (held : Bool) (code : List Frame) : Prop :=
  ∃ b, Discipline.after (lockStep cfg l) held code = some b ∧ (l = .tid → b = false)

end

/-- The lock that has to be held for a call, or must not be. -/
def ThreadCall.needs (cfg : Config) : ThreadCall → Option (LockId × Bool)
  | .lockAcquire n | .lockTryAcquire n => some (.lock n, false)
  | .lockRelease n => some (.lock n, true)
  | .condWait c | .condSignal c | .condBroadcast c => some (.lock (cfg.lockOf c), true)
  | _ => none

variable {c : ThreadCall} {g : Frame}

namespace Sched

variable {cfg : Config} {s s' : Sched} {f : Frame} {l : LockId} {t : Nat}

/-- A thread acquires only a lock that it does not have, and releases, and uses a condition variable
with, only one that it has.  It calls `thread_unblock` only for a thread that has called
`thread_block`. -/
def Disciplined (cfg : Config) (s : Sched) : FreeAct → Prop
  | .event (.call c) _ =>
    s.code s.running = [] → ∀ need ∈ c.needs cfg, s.has need.1 s.running = need.2
  | .event .go pick => s.UnblocksParked (.event .go pick)
  | _ => True

instance (a : FreeAct) : Decidable (Disciplined cfg s a) := by
  rcases a with ⟨_ | _ | _, _⟩ | _ <;> unfold Disciplined <;> infer_instance

theorem Disciplined.unblocksParked {a : FreeAct} (h : Disciplined cfg s a) :
    s.UnblocksParked a := by
  cases a with
  | event e _ =>
    cases e with
    | go => exact h
    | call _ | timer => trivial
  | preempt _ => trivial

theorem lawful_singleton {held : Bool} (htid : l = .tid → held = false)
    (h : ∀ p ∈ f.onLock cfg l, held = p.1 ∧ (l = .tid → p.2 = false)) : Lawful cfg l held [f] := by
  cases hlock : f.onLock cfg l with
  | none => exact ⟨held, by simp [lockStep, hlock], htid⟩
  | some p =>
    obtain ⟨hbefore, hafter⟩ := h p hlock
    exact ⟨p.2, by simp [lockStep, hlock, hbefore], hafter⟩

theorem lawful_call {held : Bool} (htid : l = .tid → held = false)
    (hneeds : ∀ need ∈ c.needs cfg, need.1 = l → held = need.2) : Lawful cfg l held c.code := by
  cases c with
  | create memory _ _ | exec memory _ =>
    cases memory
    · exact ⟨held, rfl, htid⟩
    · refine lawful_singleton htid fun p hp ↦ ?_
      simp only [Frame.onLock, mem_def, ite_none_right_eq_some,
        some.injEq] at hp
      obtain ⟨rfl, rfl⟩ := hp
      exact ⟨htid rfl, fun _ ↦ rfl⟩
  | lockAcquire n | lockTryAcquire n | lockRelease n | condWait c | condSignal c
  | condBroadcast c =>
    refine lawful_singleton htid fun p hp ↦ ?_
    simp only [Frame.onLock, mem_def, ite_none_right_eq_some,
      some.injEq] at hp
    obtain ⟨rfl, rfl⟩ := hp
    exact ⟨hneeds _ rfl rfl, nofun⟩
  | setPriority _ => exact ⟨held, rfl, htid⟩
  | _ => exact lawful_singleton htid nofun

/-- What takes the place of a frame does to a lock what the frame does. -/
theorem after_expansion {b : Bool} (hstep : lockStep cfg l (s.has l s.running) f = some b)
    (hf : f ≠ .tryAcquire l) : Discipline.after (lockStep cfg l) ((s.after cfg f).has l s.running)
      (s.expansion cfg s.running f) = some b := by
  have hhas (hholder : f ≠ .holder l) (hrelease : f ≠ .release l) :
      (s.after cfg f).has l s.running = s.has l s.running := by
    rw [has_after]
    simp [hholder, hrelease]
  cases f with
  | holder m | release m =>
    rw [has_after]
    by_cases hm : m = l <;> simp_all [expansion, lockStep, Frame.onLock]
  | acquire m =>
    rw [hhas (by rintro ⟨⟩) (by rintro ⟨⟩)]
    by_cases hm : m = l <;> simp_all [expansion, lockStep, Frame.onLock]
  | tryAcquire m =>
    rw [hhas (by rintro ⟨⟩) (by rintro ⟨⟩)]
    simp only [expansion]
    split <;> simp_all [lockStep, Frame.onLock]
  | down σ | redown σ | up σ =>
    rw [hhas (by rintro ⟨⟩) (by rintro ⟨⟩)]
    have hb : s.has l s.running = b := by
      cases σ <;> simp only [lockStep, Frame.onLock] at hstep <;> grind -linarith
    simp only [expansion]
    split
    · cases σ <;> simp_all [lockStep, Frame.onLock]
    · cases σ <;> simp_all [lockStep, Frame.onLock]
  | condWait c | condSignal c | condBroadcast c =>
    rw [hhas (by rintro ⟨⟩) (by rintro ⟨⟩)]
    simp only [expansion]
    repeat' split
    all_goals by_cases hc : LockId.lock (cfg.lockOf c) = l <;> simp_all [lockStep, Frame.onLock]
  | initThread _ _ _ | allocateTid _ _ =>
    rw [hhas (by rintro ⟨⟩) (by rintro ⟨⟩)]
    simp only [expansion]
    repeat' split
    all_goals
      by_cases hl : l = .tid
      · simp_all [lockStep, Frame.onLock]
      · simp_all [lockStep, Frame.onLock, Ne.symm hl]
  | _ =>
    rw [hhas (by rintro ⟨⟩) (by rintro ⟨⟩)]
    simp only [expansion]
    repeat' split
    all_goals simp_all [lockStep, Frame.onLock]

/-! ## The token -/

/-- How many threads have `g` as their next frame. -/
def heads (s : Sched) (g : Frame) : Nat :=
  countBelow s.next fun t ↦ (s.code t).head? = some g

theorem heads_after (cfg : Config) (h : s.Formed) (hs : s.Steady)
    (hf : s.Next f) (hg : ∀ success, g ≠ .startProcess success) :
    (s.after cfg f).heads g + (decide (f = g)).toNat =
      s.heads g + (decide (((s.after cfg f).code s.running).head? = some g)).toNat := by
  have hcount := countBelow_update_of_le (m := (s.after cfg f).next)
    (p := fun t ↦ ((s.after cfg f).code t).head? = some g) (q := fun t ↦ (s.code t).head? = some g)
    hs.running_lt (by rw [next_after]; exact Nat.le_add_right ..) (fun t ht ↦ ?_) fun t ht ↦ ?_
  · rw [hf] at hcount
    simpa only [heads, some.injEq] using hcount
  · simp [h.fresh t ht]
  · simp only [h.head_after hs ht hg]

theorem heads_pos (hs : s.Steady) (hf : s.Next g) : 0 < s.heads g := by
  by_contra hzero
  have hnone := countBelow_eq_zero.mp (Nat.eq_zero_of_not_pos hzero) s.running hs.running_lt
  simp [hf] at hnone

theorem heads_call (hg : g.top = true ∨ g.marks.isSome)
    (hnil : s.code s.running = []) : (s.push s.running c.code).heads g = s.heads g := by
  refine congrArg (countBelow s.next) (funext fun t ↦ ?_)
  by_cases ht : t = s.running
  · subst ht
    have hhead : c.code.head? ≠ some g := by
      intro hcon
      obtain ⟨htop, hmarks⟩ := c.head_code hcon
      simp [htop, hmarks] at hg
    simp [hnil, hhead]
  · simp only [code_push, Function.update_of_ne ht]

/-- Only who has lowered the semaphore of a lock goes on to set `holder`. -/
theorem head_after_holder (h : s.Formed) (hs : s.Steady) (hf : s.Next f) :
    ((s.after cfg f).code s.running).head? = some (.holder l) ↔
      f.lowers = some (.lock l) ∧ s.value (.lock l) ≠ 0 := by
  obtain ⟨rest, hcode, hshaped⟩ := h.next hf
  obtain ⟨hmarks, -, hplain, hlast, -⟩ := hshaped
  have hrest : rest.head? = some (.holder l) ↔ f.takes = some l := by
    rw [← hmarks, bind_eq_some_iff]
    refine ⟨fun hr ↦ ⟨_, hr, rfl⟩, ?_⟩
    rintro ⟨g, hr, hg⟩
    cases g with
    | holder m => rw [hr, some.inj hg]
    | _ => cases hg
  rw [code_after_self cfg hs.running_lt.ne, hcode, tail_cons]
  cases f with
  | down σ | redown σ =>
    simp only [expansion]
    split
    · next hzero =>
      refine iff_of_false (by rintro ⟨⟩) fun hcon ↦ hcon.2 ?_
      rw [← some.inj hcon.1]
      exact hzero
    · rw [nil_append, hrest]
      cases σ <;> grind -linarith [Frame.takes, Frame.lowers]
  | tryAcquire m =>
    obtain rfl := hlast rfl
    simp only [expansion]
    split <;> grind -linarith [Frame.lowers]
  | tryDown σ =>
    simp only [expansion]
    rw [nil_append, hrest]
    cases σ with
    | sema n => exact iff_of_false (by rintro ⟨⟩) (by rintro ⟨⟨⟩, _⟩)
    | _ => cases hplain
  | _ =>
    refine iff_of_false ?_ (by rintro ⟨⟨⟩, _⟩)
    simp only [expansion]
    repeat' split
    all_goals simp [hrest, Frame.takes]

theorem head_after_up (h : s.Formed) (hs : s.Steady) (hf : s.Next f) :
    ((s.after cfg f).code s.running).head? = some (.up (.lock l)) ↔ f = .release l := by
  obtain ⟨rest, hcode, hshaped⟩ := h.next hf
  have hrest : rest.head? ≠ some (.up (.lock l)) := fun hr ↦ by cases hshaped.2.1 _ hr
  rw [code_after_self cfg hs.running_lt.ne, hcode, tail_cons]
  cases f with
  | release m => simp [expansion]
  | _ =>
    refine iff_of_false ?_ (by rintro ⟨⟩)
    simp only [expansion]
    repeat' split
    all_goals simp [hrest]

/-- What is kept about a lock. -/
structure Locked (cfg : Config) (l : LockId) (s : Sched) : Prop where
  formed : s.Formed
  lawful : ∀ t, Lawful cfg l (s.has l t) (s.code t)
  token : s.value (.lock l) + s.heads (.holder l) + s.heads (.up (.lock l)) +
    (s.holder l).toList.length = 1
  owner : ∀ t, s.has l t = true ↔ s.holder l = some t

namespace Locked

section

variable (h : s.Locked cfg l)

include h

theorem moves (hm : s.Moves s') : s'.Locked cfg l := by
  refine ⟨h.formed.moves hm, ?_, ?_, ?_⟩
  · rw [hm.data]
    exact h.lawful
  · rw [heads, heads, hm.data]
    exact h.token
  · rw [hm.data]
    exact h.owner

theorem call {pick : Option Nat} (hs : s.Steady)
    (hdisc : Disciplined cfg s (.event (.call c) pick)) (hnil : s.code s.running = []) :
    (s.push s.running c.code).Locked cfg l := by
  refine ⟨h.formed.call hs hnil, fun t ↦ ?_, ?_, h.owner⟩
  · by_cases ht : t = s.running
    · rw [code_push, ht, Function.update_self, hnil, append_nil]
      obtain ⟨b, hb, htid⟩ := h.lawful s.running
      rw [hnil, Discipline.after_nil, some.injEq] at hb
      subst hb
      exact lawful_call htid fun need hneed hl ↦ hl ▸ hdisc hnil need hneed
    · rw [code_push, Function.update_of_ne ht]
      exact h.lawful t
  · rw [heads_call (.inr rfl) hnil, heads_call (.inl rfl) hnil]
    exact h.token

theorem token_after (hs : s.Steady) (hf : s.Next f) (hsafe : s.safe cfg s.running f = true) :
    (s.after cfg f).value (.lock l) + (s.after cfg f).heads (.holder l) +
      (s.after cfg f).heads (.up (.lock l)) + ((s.after cfg f).holder l).toList.length = 1 := by
  have htoken := h.token
  have hholder := heads_after cfg (g := .holder l) h.formed hs hf nofun
  have hup := heads_after cfg (g := .up (.lock l)) h.formed hs hf nofun
  simp only [head_after_holder h.formed hs hf, head_after_up h.formed hs hf] at hholder hup
  rw [value_after, holder_after]
  by_cases hlowers : f.lowers = some (.lock l)
  · have hne : f ≠ .holder l ∧ f ≠ .up (.lock l) ∧ f ≠ .release l := by
      refine ⟨?_, ?_, ?_⟩ <;> (rintro rfl; cases hlowers)
    simp only [hlowers, hne, if_true, if_false, decide_false, Bool.toNat_false, true_and,
      ne_eq] at hholder hup ⊢
    by_cases hzero : s.value (.lock l) = 0 <;> simp [hzero] at hholder <;> omega
  by_cases hraises : f = .up (.lock l)
  · subst hraises
    simp [Frame.lowers, Frame.raises] at hholder hup ⊢
    omega
  by_cases hmark : f = .holder l
  · subst hmark
    simp [Frame.lowers, Frame.raises] at hholder hup ⊢
    omega
  by_cases hrelease : f = .release l
  · subst hrelease
    have howner : s.holder l = some s.running := by simpa [safe] using hsafe
    simp [Frame.lowers, Frame.raises, howner] at hholder hup htoken ⊢
    omega
  · have hne : f.raises ≠ some (.lock l) := by
      intro hcon
      cases f with
      | up σ => exact hraises (by rw [some.inj hcon])
      | _ => cases hcon
    simp [hlowers, hraises, hmark, hrelease, hne] at hholder hup ⊢
    omega

theorem owner_after (hs : s.Steady) (hf : s.Next f) (hsafe : s.safe cfg s.running f = true) :
    ∀ t, (s.after cfg f).has l t = true ↔ (s.after cfg f).holder l = some t := by
  intro t
  have howner := h.owner t
  rw [has_after, holder_after]
  by_cases hmark : f = .holder l
  · subst hmark
    -- The running thread is one of those that are about to set `holder`, so nobody has the lock.
    have hpos : 0 < s.heads (.holder l) := heads_pos hs hf
    have hnone : s.holder l = none := by
      have htoken := h.token
      cases hholder : s.holder l with
      | none => rfl
      | some u =>
        simp only [hholder, toList_some, length_singleton] at htoken
        omega
    simp only [hnone, reduceCtorEq, iff_false] at howner
    by_cases ht : t = s.running
    · simp [ht]
    · simp [ht, howner, Ne.symm ht]
  by_cases hrelease : f = .release l
  · subst hrelease
    have hholder : s.holder l = some s.running := by simpa [safe] using hsafe
    rw [hholder] at howner
    by_cases ht : t = s.running
    · simp [ht]
    · simpa [ht, Ne.symm ht] using howner
  · simpa [hmark, hrelease] using howner

theorem lawful_after (hs : s.Steady) (hf : s.Next f) :
    ∀ t, Lawful cfg l ((s.after cfg f).has l t) ((s.after cfg f).code t) := by
  intro t
  by_cases ht : t = s.running
  · subst ht
    obtain ⟨rest, hcode, hshaped⟩ := h.formed.next hf
    obtain ⟨b, hafter, htid⟩ := h.lawful s.running
    rw [hcode] at hafter
    rw [Discipline.after_cons, bind_eq_some_iff] at hafter
    obtain ⟨b', hstep, hafter⟩ := hafter
    rw [code_after_self cfg hs.running_lt.ne, hcode, tail_cons]
    by_cases htry : f = .tryAcquire l
    · -- Nothing comes after `lock_try_acquire`, which may fail.
      subst htry
      obtain rfl : rest = [] := hshaped.2.2.2.1 rfl
      have hl : l ≠ .tid := by
        rintro rfl
        cases hshaped.2.2.1
      have hfalse : s.has l s.running = false := by
        simp only [lockStep, Frame.onLock, if_true] at hstep
        grind -linarith
      rw [has_after, if_neg nofun, if_neg nofun, hfalse]
      simp only [expansion]
      split
      · exact ⟨true, by simp [lockStep, Frame.onLock], fun hcon ↦ absurd hcon hl⟩
      · exact ⟨false, rfl, fun _ ↦ rfl⟩
    · exact ⟨b, by rw [Discipline.after_append, after_expansion hstep htry]; exact hafter, htid⟩
  · rw [code_after_of_ne cfg hs.running_lt.ne ht, has_after]
    simp only [ht, false_and, if_false]
    split
    · next hnext =>
      obtain ⟨b, hafter, htid⟩ := h.lawful t
      rw [h.formed.fresh t hnext.ge, Discipline.after_nil, some.injEq] at hafter
      subst hafter
      cases f with
      | initThread _ entry _ => cases entry <;> exact ⟨_, rfl, htid⟩
      | _ => exact h.lawful t
    · exact h.lawful t

theorem after (hs : s.Steady) (hf : s.Next f) (hsafe : s.safe cfg s.running f = true) :
    (s.after cfg f).Locked cfg l :=
  ⟨h.formed.effect hs hf, h.lawful_after hs hf, h.token_after hs hf hsafe,
    h.owner_after hs hf hsafe⟩

/-- A thread has a lock where its next frame says so. -/
theorem has_of_head {p : Bool × Bool} (hf : (s.code t).head? = some f)
    (hp : f.onLock cfg l = some p) : s.has l t = p.1 := by
  obtain ⟨b, hafter, -⟩ := h.lawful t
  rw [← cons_head?_tail hf, Discipline.after_cons, bind_eq_some_iff] at hafter
  obtain ⟨b', hstep, -⟩ := hafter
  simp only [lockStep, hp] at hstep
  by_contra hne
  simp [hne] at hstep

end

end Locked

theorem locked_boot (cfg : Config) (value : Nat → Nat) (l : LockId) :
    (boot value).Locked cfg l := by
  have hheads : ∀ g, g = .holder l ∨ g = .up (.lock l) → (boot value).heads g = 0 := by
    intro g hg
    refine countBelow_eq_zero.mpr fun t _ ↦ ?_
    simp only [boot]
    grind -linarith
  refine ⟨(balanced_boot value (.lock l)).formed, fun t ↦ ⟨false, ?_, fun _ ↦ rfl⟩, ?_,
    fun t ↦ iff_of_false (by rintro ⟨⟩) (by rintro ⟨⟩)⟩
  · simp only [boot]
    repeat' split
    all_goals simp [lockStep, Frame.onLock]
  · rw [hheads _ (.inl rfl), hheads _ (.inr rfl)]
    rfl

/-- **Locks exclude each other's holders.**  For any threads that acquire only locks they do not
have and release only locks they have, and any preemption in between: the value of the semaphore is
zero or one, at most one thread has acquired the lock and not begun to release it, it is exactly
`holder`, and the assertions about `holder` in `lock_acquire`, `lock_try_acquire` and `lock_release`
hold for every thread that gets to them. -/
theorem locks_exclude {value : Nat → Nat} {as : List FreeAct} (l : LockId)
    (hdisc : Run.Meets (freeStep cfg) (Disciplined cfg) (boot value) as)
    (hrun : Run.run (freeStep cfg) (boot value) as = some s) :
    (s.value (.lock l) = 0 ∨ s.value (.lock l) = 1) ∧
    (∀ t u, s.has l t = true → s.has l u = true → t = u) ∧
    (∀ t, s.has l t = true ↔ s.holder l = some t) ∧
    (∀ t, (s.code t).head? = some (.acquire l) ∨ (s.code t).head? = some (.tryAcquire l) →
      s.holder l ≠ some t) ∧ ∀ t, (s.code t).head? = some (.release l) → s.holder l = some t := by
  obtain ⟨-, h⟩ := (kept_boot value).invariant (I := Locked cfg l)
    Disciplined.unblocksParked Locked.moves
    (fun hk h hC hnil ↦ h.call hk.steady hC hnil)
    (fun hk h _ hf hsafe ↦ h.after hk.steady hf hsafe) (locked_boot cfg value l) hdisc hrun
  have htoken := h.token
  refine ⟨by omega, fun t u ht hu ↦ ?_, h.owner, fun t ht ↦ ?_, fun t ht ↦ ?_⟩
  · exact some.inj (((h.owner t).mp ht).symm.trans ((h.owner u).mp hu))
  · have hfalse : s.has l t = false := by
      rcases ht with ht | ht
      · exact h.has_of_head (p := (false, true)) ht (if_pos rfl)
      · exact h.has_of_head (p := (false, false)) ht (if_pos rfl)
    rw [Ne, ← h.owner t, hfalse]
    exact Bool.false_ne_true
  · exact (h.owner t).mp (h.has_of_head (p := (true, false)) ht (if_pos rfl))

/-- The second thread has a lock, and the main thread waits for it. -/
theorem locks_exclude_waiter : ∃ s, Run.run (freeStep ⟨false, false, false, id⟩) (boot fun _ ↦ 0)
      (spawn ++ [FreeAct.event .go none, FreeAct.event (.call (.lockAcquire 0)) none,
        FreeAct.event .go none, FreeAct.event .go none, FreeAct.event .go none,
        FreeAct.preempt none, FreeAct.event (.call (.lockAcquire 0)) none,
        FreeAct.event .go none, FreeAct.event .go none]) = some s ∧
    s.queue (.waiters (.lock (.lock 0))) = [initialThread] ∧ s.has (.lock 0) 2 = true ∧
    s.holder (.lock 0) = some 2 := by
  refine Run.exists_of_view (fun s ↦ (s.queue (.waiters (.lock (.lock 0))), s.has (.lock 0) 2))
    ([initialThread], true) (by decide +kernel) fun s hrun heval ↦ ?_
  simp only [Prod.mk.injEq] at heval
  exact ⟨heval.1, heval.2,
    ((locks_exclude (.lock 0) (by decide +kernel) hrun).2.2.1 2).mp heval.2⟩

end Sched

end Pintos
