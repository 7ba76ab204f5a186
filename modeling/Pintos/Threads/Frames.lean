import Pintos.Threads.Scheduler

/-!
# What a frame does

Equations for `Sched.effect`, one for each part of the data: how the frames of the threads change,
which semaphore is raised or lowered, who takes or releases a lock, and so on.  The invariants of
the following modules are proved from these.
-/

set_option autoImplicit false

namespace Pintos

open Function Option

/-- The semaphore that a frame lowers if it can. -/
def Frame.lowers : Frame → Option SemaId
  | .down σ | .redown σ | .tryDown σ => some σ
  | .tryAcquire l => some (.lock l)
  | _ => none

/-- The semaphore that a frame waits for. -/
def Frame.awaits : Frame → Option SemaId
  | .down σ | .redown σ => some σ
  | _ => none

/-- The semaphore that a frame raises. -/
def Frame.raises : Frame → Option SemaId
  | .up σ => some σ
  | _ => none

/-- The condition variable that a frame waits for. -/
def Frame.waits : Frame → Option Nat
  | .condWait c => some c
  | _ => none

/-- The thread that a frame gives a number. -/
def Frame.names : Frame → Option Nat
  | .allocateTid t _ => some t
  | _ => none

/-- What the thread begins with that a frame makes. -/
def Frame.born : Frame → Option (List Frame)
  | .initThread _ entry _ => some entry.code
  | _ => none

/-- The priority that a frame gives to the running thread. -/
def Frame.sets : Frame → Option Int
  | .setPriority newPriority => some newPriority
  | _ => none

/-- The priority of the thread that a frame makes. -/
def Frame.gives : Frame → Option Int
  | .initThread priority _ _ => some priority
  | _ => none

theorem Frame.lowers_of_raises {f : Frame} {σ : SemaId} (h : f.raises = some σ) :
    f.lowers = none ∧ f.awaits = none ∧ f.born = none := by
  cases f <;> first | exact ⟨rfl, rfl, rfl⟩ | cases h

theorem Frame.lowers_of_awaits {f : Frame} {σ : SemaId} (h : f.awaits = some σ) :
    f.lowers = some σ := by
  cases f <;> first | exact h | cases h

namespace Sched

variable (cfg : Config) (s : Sched) (cur : Nat) (f : Frame)

theorem exec_eq_some {request : Request} {s1 : Sched} : s.exec cfg cur f = some (request, s1) ↔
      s.safe cfg cur f = true ∧ s.effect cfg cur f = (request, s1) := by
  simp only [exec, bind_eq_some, assert_eq_some, pure_def, exists_const, some.injEq]

/-- The running thread has executed a frame, and the scheduler has not done yet what it asks for. -/
def after : Sched := (s.pop.effect cfg s.running f).2

/-! ## The frames of the threads -/

/-- What takes the place of a frame. -/
def expansion : Frame → List Frame
  | .down σ | .redown σ => if s.value σ = 0 then [.redown σ] else []
  | .up _ => if cfg.userprog then [] else [.yield]
  | .acquire l => [.down (.lock l), .holder l]
  | .tryAcquire l => if 0 < s.value (.lock l) then [.holder l] else []
  | .release l => [.up (.lock l)]
  | .condWait c => [.release (.lock (cfg.lockOf c)), .down (.waiter s.nextCall),
      .acquire (.lock (cfg.lockOf c))]
  | .condSignal c => match s.cond c with
    | [] => []
    | call :: _ => [.up (.waiter call)]
  | .condBroadcast c => if s.cond c = [] then [] else [.condSignal c, .condBroadcast c]
  | .initThread _ _ exec => [.acquire .tid, .allocateTid s.next exec]
  | .allocateTid t exec => .release .tid :: .addChild t :: .launch t :: .yield ::
      if exec && s.nextTid ≠ -1 then [.execGetChild s.nextTid] else []
  | .execGetChild tid => match s.threadGetChild cur tid with
    | none => []
    | some child => [.down (.load child), .execRead child]
  | .waitGetChild tid => match s.threadGetChild cur tid with
    | none => []
    | some child => [.down (.wait child), .removeChild child, .readStatus child, .up (.elim child)]
  | .startProcess success => .up (.load cur) :: if success then [] else [.exitLoop]
  | .exitLoop => match s.childTlist cur with
    | child :: _ => [.up (.elim child), .exitLoop]
    | [] => [.up (.wait cur), .down (.elim cur), .die]
  | _ => []

variable {s cur} in
theorem code_effect (hne : cur ≠ s.next) : (s.effect cfg cur f).2.code =
    update (f.born.elim s.code fun code ↦ update s.code s.next code) cur
      (s.expansion cfg cur f ++ s.code cur) := by
  have hsame : s.code = update s.code cur ([] ++ s.code cur) := by simp
  cases f with
  | block | tryDown σ =>
    simp only [effect]
    split <;> exact hsame
  | down σ | redown σ =>
    simp only [effect, expansion, semaDown]
    split
    · rfl
    · exact hsame
  | up σ =>
    simp only [effect, expansion, semaUp]
    split <;> rfl
  | tryAcquire l =>
    simp only [effect, expansion]
    split
    · rfl
    · exact hsame
  | condBroadcast c =>
    simp only [effect, expansion]
    split
    · exact hsame
    · rfl
  | execGetChild tid | waitGetChild tid =>
    rcases hchild : s.threadGetChild cur tid with - | child <;>
      simp only [effect, expansion, hchild]
    · exact hsame
    · rfl
  | condSignal c =>
    rcases hcond : s.cond c with - | ⟨call, rest⟩ <;> simp only [effect, expansion, hcond]
    · exact hsame
    · rfl
  | exitLoop =>
    rcases hlist : s.childTlist cur with - | ⟨child, rest⟩ <;>
      simp only [effect, expansion, hlist] <;> rfl
  | initThread priority entry exec =>
    simp only [effect, expansion, push, initThread, insert, Frame.born, Option.elim_some,
      update_of_ne hne]
  | acquire _ | release _ | condWait _ | allocateTid _ _ | startProcess _ => rfl
  | _ => exact hsame

theorem next_after : (s.after cfg f).next = s.next + f.born.toList.length := by
  cases f <;> simp only [after, effect, semaDown, semaUp] <;> first | rfl | (split <;> rfl)

theorem running_effect : (s.effect cfg cur f).2.running = s.running := by
  cases f <;> simp only [effect, semaDown, semaUp] <;> first | rfl | (split <;> rfl)

/-! ## Semaphores -/

theorem value_after (σ : SemaId) : (s.after cfg f).value σ = if f.lowers = some σ then s.value σ - 1
    else if f.raises = some σ then (s.value σ + 1) % 2 ^ 32 else s.value σ := by
  have hlower : ∀ τ, update s.value τ (s.value τ - 1) σ =
    if some τ = some σ then s.value σ - 1 else s.value σ := by
    grind -linarith [update_apply]
  cases f with
  | down τ | redown τ =>
    simp only [after, effect, semaDown, Frame.lowers]
    split
    · simp only [insert, push]
      grind -linarith [pop, Frame.raises]
    · exact hlower τ
  | tryDown τ =>
    simp only [after, effect, Frame.lowers]
    split
    · exact hlower τ
    · grind -linarith [pop, Frame.raises]
  | tryAcquire l =>
    simp only [after, effect, Frame.lowers]
    split
    · exact hlower (.lock l)
    · grind -linarith [pop, Frame.raises]
  | up τ =>
    simp only [after, effect, semaUp, Frame.lowers, Frame.raises]
    split <;> simp only [raise, push, remove] <;> grind -linarith [pop, update_apply]
  | _ =>
    simp only [after, effect]
    first | rfl | (split <;> rfl)

theorem ups_after (σ : SemaId) : (s.after cfg f).ups σ =
    if f.raises = some σ then s.ups σ + 1 else s.ups σ := by
  cases f with
  | up τ =>
    simp only [after, effect, semaUp, Frame.raises]
    split <;> simp only [raise, push, remove] <;> grind -linarith [pop, update_apply]
  | _ =>
    simp only [after, effect, semaDown]
    first | rfl | (split <;> rfl)

theorem downs_after (σ : SemaId) : (s.after cfg f).downs σ =
    if f.lowers = some σ ∧ s.value σ ≠ 0 then s.downs σ + 1 else s.downs σ := by
  have hlower : ∀ τ, s.value τ ≠ 0 → update s.downs τ (s.downs τ + 1) σ =
    if some τ = some σ ∧ s.value σ ≠ 0 then s.downs σ + 1 else s.downs σ := by
    grind -linarith [update_apply]
  cases f with
  | down τ | redown τ =>
    simp only [after, effect, semaDown, Frame.lowers]
    split
    · simp only [insert, push]
      grind -linarith [pop]
    · next h => exact hlower τ h
  | tryDown τ =>
    simp only [after, effect, Frame.lowers]
    split
    · next h => exact hlower τ (Nat.pos_iff_ne_zero.mp h)
    · grind -linarith [pop]
  | tryAcquire l =>
    simp only [after, effect, Frame.lowers]
    split
    · next h => exact hlower (.lock l) (Nat.pos_iff_ne_zero.mp h)
    · grind -linarith [pop]
  | _ =>
    simp only [after, effect, semaUp, Frame.lowers]
    first | rfl | (split <;> rfl)

section

variable {s f} {σ : SemaId}

/-- A thread waits for a semaphore from then on. -/
theorem waiters_after_of_awaits (hf : f.awaits = some σ) (hzero : s.value σ = 0) :
    (s.after cfg f).queue (.waiters σ) =
      (s.queue (.waiters σ)).orderedInsert (fun a b ↦ s.cmpPriorityThread a b) s.running := by
  have hdown : (s.pop.semaDown s.running σ).2.queue (.waiters σ) =
      (s.queue (.waiters σ)).orderedInsert (fun a b ↦ s.cmpPriorityThread a b) s.running := by
    rw [semaDown, if_pos (by exact hzero)]
    exact update_self ..
  cases f with
  | down τ | redown τ =>
    obtain rfl : τ = σ := some.inj hf
    exact hdown
  | _ => cases hf

/-- `sema_up` takes the first thread off the list. -/
theorem waiters_after_of_raises (hf : f.raises = some σ) :
    (s.after cfg f).queue (.waiters σ) = (s.queue (.waiters σ)).tail := by
  cases f with
  | up τ =>
    obtain rfl : τ = σ := some.inj hf
    rcases hq : s.queue (.waiters τ) with - | ⟨t, rest⟩ <;>
      simp only [after, effect, semaUp, pop, hq]
    · exact hq
    · simp [push, raise, hq]
  | _ => cases hf

theorem waiters_after_of_ne (hawaits : f.awaits = some σ → s.value σ ≠ 0)
    (hraises : f.raises ≠ some σ) : (s.after cfg f).queue (.waiters σ) = s.queue (.waiters σ) := by
  cases f with
  | block =>
    simp only [after, effect]
    split <;> rfl
  | sleep _ | initThread _ _ _ | launch _ | unblock _ =>
    simp [after, effect, initThread, push, pop]
  | down τ | redown τ =>
    simp only [after, effect, semaDown]
    split
    · next hzero =>
      refine update_of_ne (fun heq ↦ ?_) ..
      obtain rfl := Queue.waiters.inj heq
      exact hawaits rfl hzero
    · rfl
  | up τ =>
    simp only [after, effect, semaUp]
    split
    · rfl
    · refine update_of_ne (fun heq ↦ ?_) ..
      obtain rfl := Queue.waiters.inj heq
      exact hraises rfl
  | _ =>
    simp only [after, effect]
    first | rfl | (split <;> rfl)

end

/-! ## Locks -/

theorem holder_after (l : LockId) : (s.after cfg f).holder l =
    if f = .holder l then some s.running else if f = .release l then none else s.holder l := by
  cases f with
  | holder m | release m =>
    simp only [after, effect]
    grind -linarith [pop, update_apply]
  | _ =>
    simp only [after, effect, semaDown, semaUp]
    first | rfl | (split <;> rfl)

theorem has_after (l : LockId) (t : Nat) : (s.after cfg f).has l t =
    if t = s.running ∧ f = .holder l then true
    else if t = s.running ∧ f = .release l then false else s.has l t := by
  cases f with
  | holder m | release m =>
    by_cases hm : m = l
    · subst hm
      simp [after, effect, pop, update_apply]
    · simp [after, effect, pop, update_of_ne (Ne.symm hm), hm]
  | _ =>
    simp only [after, effect, semaDown, semaUp, reduceCtorEq, and_false, if_false]
    first | rfl | (split <;> rfl)

/-! ## Condition variables -/

theorem cond_after (c : Nat) : (s.after cfg f).cond c =
    if f = .condWait c then s.cond c ++ [s.nextCall]
    else if f = .condSignal c then (s.cond c).tail else s.cond c := by
  cases f with
  | condWait d =>
    simp only [after, effect]
    grind -linarith [pop, update_apply]
  | condSignal d =>
    rcases hcond : s.cond d with - | ⟨call, rest⟩ <;> simp only [after, effect, pop, hcond] <;>
      grind -linarith [update_apply]
  | _ =>
    simp only [after, effect, semaDown, semaUp]
    first | rfl | (split <;> rfl)

theorem nextCall_after : (s.after cfg f).nextCall = s.nextCall + f.waits.toList.length := by
  cases f with
  | condWait d => rfl
  | _ =>
    simp only [after, effect, semaDown, semaUp]
    first | rfl | (split <;> rfl)

theorem caller_after (call : Nat) : (s.after cfg f).caller call =
    if f.waits.isSome ∧ call = s.nextCall then s.running else s.caller call := by
  cases f with
  | condWait d => simp [after, effect, pop, update_apply, Frame.waits]
  | _ =>
    simp only [after, effect, semaDown, semaUp, Frame.waits]
    first | rfl | (split <;> rfl)

theorem callOn_after (call : Nat) : (s.after cfg f).callOn call =
    if call = s.nextCall then f.waits.getD (s.callOn call) else s.callOn call := by
  cases f with
  | condWait d => simp [after, effect, pop, update_apply, Frame.waits]
  | _ =>
    simp only [after, effect, semaDown, semaUp, Frame.waits, getD_none, ite_self]
    first | rfl | (split <;> rfl)

theorem signalled_after (c : Nat) : (s.after cfg f).signalled c =
    if f = .condSignal c then (s.cond c).head?.toList ++ s.signalled c else s.signalled c := by
  cases f with
  | condSignal d =>
    rcases hcond : s.cond d with - | ⟨call, rest⟩ <;> simp only [after, effect, pop, hcond] <;>
      grind -linarith [update_apply]
  | _ =>
    simp only [after, effect, semaDown, semaUp]
    first | rfl | (split <;> rfl)

/-! ## Children -/

/-- The child that a frame takes off the list. -/
def removes : Frame → Option Nat
  | .removeChild child => some child
  | .exitLoop => (s.childTlist cur).head?
  | _ => none

/-- The children of the thread after a frame. -/
def children : Frame → List Nat
  | .addChild child => s.childTlist cur ++ [child]
  | .removeChild child => (s.childTlist cur).erase child
  | .exitLoop => (s.childTlist cur).tail
  | _ => s.childTlist cur

variable {s cur} in
theorem childTlist_effect (hne : cur ≠ s.next) : (s.effect cfg cur f).2.childTlist =
    update (f.born.elim s.childTlist fun _ ↦ update s.childTlist s.next []) cur
      (s.children cur f) := by
  have hsame : s.childTlist = update s.childTlist cur (s.childTlist cur) := by simp
  cases f with
  | addChild _ | removeChild _ => rfl
  | initThread priority entry exec =>
    simp only [children]
    rw [← update_of_ne hne [] s.childTlist]
    exact (update_eq_self _ _).symm
  | exitLoop =>
    rcases hlist : s.childTlist cur with - | ⟨child, rest⟩ <;>
      simp only [effect, children, hlist, List.tail]
    · exact hlist ▸ hsame
    · rfl
  | _ =>
    simp only [effect, semaDown, semaUp]
    first | exact hsame | (split <;> exact hsame)

theorem removed_after : (s.after cfg f).removed = (s.removes s.running f).toList ++ s.removed := by
  cases f with
  | exitLoop =>
    rcases hlist : s.childTlist s.running with - | ⟨child, rest⟩ <;>
      simp [after, effect, hlist, removes, push, pop]
  | _ =>
    simp only [after, effect, semaDown, semaUp, removes]
    first | rfl | (split <;> rfl)

theorem parent_after (t : Nat) : (s.after cfg f).parent t =
    if f.born.isSome ∧ t = s.next then some s.running else s.parent t := by
  cases f with
  | initThread _ _ _ =>
    simp [after, effect, initThread, push, insert, pop, Frame.born, update_apply]
  | _ =>
    simp only [after, effect, semaDown, semaUp, Frame.born]
    first | rfl | (split <;> rfl)

theorem tid_after (t : Nat) : (s.after cfg f).tid t =
    if f.names = some t then s.nextTid else s.tid t := by
  cases f with
  | allocateTid u _ =>
    simp only [after, effect, push, Frame.names]
    grind -linarith [pop, update_apply]
  | _ =>
    simp only [after, effect, semaDown, semaUp, Frame.names]
    first | rfl | (split <;> rfl)

theorem status_after (t : Nat) : (s.after cfg f).status t =
    if f.born.isSome ∧ t = s.next then .blocked else s.status t := by
  cases f with
  | initThread _ _ _ =>
    simp [after, effect, initThread, push, insert, pop, Frame.born, update_apply]
  | _ =>
    simp only [after, effect, semaDown, semaUp, Frame.born]
    first | rfl | (split <;> rfl)

/-! ## Priorities -/

theorem priority_after {s : Sched} (hne : s.running ≠ s.next) (t : Nat) :
    (s.after cfg f).priority t =
      (if t = s.running then f.sets else if t = s.next then f.gives else none).getD
        (s.priority t) := by
  cases f with
  | setPriority _ =>
    simp only [after, effect, Frame.sets, Frame.gives]
    grind -linarith [pop, update_apply]
  | initThread _ _ _ =>
    simp only [after, effect, initThread, push, insert, Frame.sets, Frame.gives]
    grind -linarith [pop, update_apply]
  | _ =>
    simp only [after, effect, semaDown, semaUp, Frame.sets, Frame.gives, ite_self]
    first | rfl | (split <;> rfl)

theorem recentCpu_after (t : Nat) : (s.after cfg f).recentCpu t =
    if f.born.isSome ∧ t = s.next then s.recentCpu s.running else s.recentCpu t := by
  cases f with
  | initThread _ _ _ =>
    simp [after, effect, initThread, push, insert, pop, Frame.born, update_apply]
  | _ =>
    simp only [after, effect, semaDown, semaUp, Frame.born]
    first | rfl | (split <;> rfl)

/-- Nobody becomes ready by a frame, only by what it asks of the scheduler. -/
theorem ready_after : (s.after cfg f).queue .ready = s.queue .ready := by
  cases f with
  | down σ | redown σ =>
    simp only [after, effect, semaDown]
    split <;> rfl
  | up σ =>
    simp only [after, effect, semaUp]
    split <;> rfl
  | _ =>
    simp only [after, effect]
    first | rfl | (split <;> rfl)

/-! ## The running thread -/

section

variable {s f} {t : Nat}

section

variable (hne : s.running ≠ s.next)

include hne

theorem code_after_self :
    (s.after cfg f).code s.running = s.expansion cfg s.running f ++ (s.code s.running).tail := by
  rw [after, code_effect cfg f (by exact hne), update_self, code_pop, update_self]
  rfl

theorem code_after_of_ne (ht : t ≠ s.running) :
    (s.after cfg f).code t = if t = s.next then f.born.getD (s.code t) else s.code t := by
  rw [after, code_effect cfg f (by exact hne), update_of_ne ht]
  cases f.born <;> simp [update_apply, ht, pop]

theorem childTlist_after_self : (s.after cfg f).childTlist s.running = s.children s.running f := by
  rw [after, childTlist_effect cfg f (by exact hne), update_self]
  rfl

theorem childTlist_after_of_ne (ht : t ≠ s.running) :
    (s.after cfg f).childTlist t = if t = s.next ∧ f.born.isSome then [] else s.childTlist t := by
  rw [after, childTlist_effect cfg f (by exact hne), update_of_ne ht]
  cases f.born <;> simp [update_apply, pop]

end

end

end Sched

end Pintos
