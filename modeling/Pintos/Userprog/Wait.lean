import Pintos.Threads.Children
import Pintos.Threads.Mlfqs

/-!
# Waiting for a child

What `process_wait` returns to the parent of a process.  The processes are the threads of
`Pintos.Threads.Scheduler`, with their frames of `start_process`, `process_wait` and `thread_exit`;
`Procs` adds the member of `struct thread` that these read and write, `exit_status`.

The other components of `Procs` record what the documentation of `process_wait` speaks of: how a
process ended, and what the calls of `process_wait` have returned.
-/

set_option autoImplicit false

namespace Pintos

open Function List Option

/-- How a process ended. -/
inductive Ending where
  /-- It called `exit`. -/
  | exited (status : Int)
  /-- By a bad page fault: `page_fault` calls `syscall_exit (-1)`. -/
  | faulted
  /-- By any other exception: `kill` calls `thread_exit`. -/
  | killed
  /-- Its executable could not be loaded: `start_process` calls `thread_exit`. -/
  | loadFailed
  deriving DecidableEq, Repr

namespace Ending

/-- The status `process_wait` is documented to return. -/
def status : Ending → Int
  | .exited status => status
  | .faulted | .killed | .loadFailed => -1

/-- `exit_status`, which is 0 in a new `struct thread`. -/
def stored : Ending → Int
  | .exited status => status
  | .faulted => -1
  | .killed | .loadFailed => 0

/-- `thread_exit` has been called without a status. -/
def silent : Ending → Bool
  | .exited _ | .faulted => false
  | .killed | .loadFailed => true

theorem stored_eq_status_iff {e : Ending} : e.stored = e.status ↔ e.silent = false := by
  cases e <;> simp [stored, status, silent]

end Ending

/-- A call of `process_wait` whose result is known. -/
structure WaitReturn where
  caller : Nat
  tid : Int
  /-- The caller has a child with this number that it has not waited for. -/
  first : Bool
  /-- The result of `thread_get_child`. -/
  child : Option Nat
  result : Int
  deriving DecidableEq, Repr

/-- The processes. -/
structure Procs extends Sched where
  exitStatus : Nat → Int
  /-- Recorded: how a process ended. -/
  ending : Nat → Option Ending
  /-- Recorded: the calls of `process_wait`, the last one first. -/
  returns : List WaitReturn

namespace Procs

/-- A process has been waited for. -/
def waited (s : Procs) (c : Nat) : Bool := s.returns.any fun r ↦ r.child = some c

/-- The running thread has a child with this number that it has not waited for. -/
def expects (s : Procs) (tid : Int) : Bool := (List.range s.next).any fun c ↦
  s.parent c = some s.running && s.tid c = tid && !s.waited c

/-- What the processes may do. -/
inductive Act where
  /-- `exit (status)`. -/
  | exit (status : Int32)
  /-- A bad page fault. -/
  | pageFault
  /-- Anything else.  A call of `thread_exit` is one by `kill`. -/
  | sched (a : Sched.FreeAct)
  deriving DecidableEq, Repr

/-- What the threads do in an action. -/
def Act.free : Act → Sched.FreeAct
  | .exit _ | .pageFault => .event (.call .exit) none
  | .sched a => a

/-- The running process ends. -/
def finish (s : Procs) (status : Int) (e : Ending) : Procs :=
  { s with
    exitStatus := update s.exitStatus s.running status
    ending := update s.ending s.running (some e) }

/-- The running process ends if it is outside the functions of the kernel. -/
def ends (s : Procs) (status : Int) (e : Ending) : Procs :=
  if s.code s.running = [] ∧ s.running ≠ idleThread then s.finish status e else s

/-- What a frame reads from `exit_status`, and what is recorded of it. -/
def frame (s : Procs) : Frame → Procs
  | .startProcess false => s.finish (s.exitStatus s.running) .loadFailed
  | .waitGetChild tid =>
    match s.threadGetChild s.running tid with
    | none => { s with returns := ⟨s.running, tid, s.expects tid, none, -1⟩ :: s.returns }
    | some _ => s
  | .readStatus child =>
    { s with
      returns := ⟨s.running, s.tid child, !s.waited child, some child, s.exitStatus child⟩ ::
        s.returns }
  | _ => s

/-- What is written to `exit_status` or read from it in an action, and what is recorded. -/
def store (s : Procs) : Act → Procs
  | .exit status => s.ends status.toInt (.exited status.toInt)
  | .pageFault => s.ends (-1) .faulted
  | .sched (.event (.call .exit) _) => s.ends (s.exitStatus s.running) .killed
  | .sched (.event .go _) => (s.code s.running).head?.elim s s.frame
  | .sched _ => s

def setSched (s : Procs) (sched : Sched) : Procs := { s with toSched := sched }

/-- One action. -/
def step (cfg : Config) (s : Procs) (a : Act) : Option Procs :=
  (s.freeStep cfg a.free).map (s.store a).setSched

/-- After boot there are the main thread and the idle thread. -/
def boot (value : Nat → Nat) : Procs := ⟨Sched.boot value, fun _ ↦ 0, fun _ ↦ none, []⟩

/-- A call of `process_wait` has returned what is documented: the status of the child the first
time, and -1 every other time. -/
def Documented (s : Procs) (r : WaitReturn) : Prop :=
  if r.first then ∃ c e, r.child = some c ∧ s.ending c = some e ∧ r.result = e.status
  else r.result = -1

end Procs

/-! ## The frames of `process_wait` -/

/-- The child that a frame of `process_wait` is about. -/
def Frame.waitsFor : Frame → Option Nat
  | .down (.wait c) | .redown (.wait c) | .removeChild c | .readStatus c => some c
  | _ => none

/-- A frame that leads to `sema_up (&sema_wait)` of thread `t`. -/
def Frame.raisesWait (t : Nat) (f : Frame) : Bool := f = .exitLoop || f = .up (.wait t)

/-- A thread is in `process_wait` for its child `c`; `passed` says whether it has got past
`sema_wait`. -/
inductive InWait (c : Nat) : Bool → List Frame → Prop where
  | down : InWait c false [.down (.wait c), .removeChild c, .readStatus c, .up (.elim c)]
  | redown : InWait c false [.redown (.wait c), .removeChild c, .readStatus c, .up (.elim c)]
  | remove : InWait c true [.removeChild c, .readStatus c, .up (.elim c)]
  | read : InWait c true [.readStatus c, .up (.elim c)]

section

variable {c c' : Nat} {passed passed' : Bool} {code : List Frame} {f : Frame}

theorem InWait.unique (h : InWait c passed code) (h' : InWait c' passed' code) :
    c' = c ∧ passed' = passed := by
  cases h <;> cases h' <;> exact ⟨rfl, rfl⟩

theorem InWait.head (h : InWait c passed code) :
    ∃ f, code.head? = some f ∧ f.waitsFor = some c := by
  cases h <;> exact ⟨_, rfl, rfl⟩

theorem InWait.mem (h : InWait c passed code) (hf : f ∈ code) (hc : f.waitsFor = some c') :
    c' = c := by
  cases h <;> simp only [mem_cons, not_mem_nil, or_false] at hf <;>
    rcases hf with rfl | rfl | rfl | rfl <;> cases hc <;> rfl

theorem Frame.onChild_of_waitsFor (h : f.waitsFor = some c) :
    ∃ before after, f.onChild = some (c, before, after) := by
  cases f with
  | down σ | redown σ =>
    cases σ <;> cases h
    exact ⟨_, _, rfl⟩
  | _ => cases h <;> exact ⟨_, _, rfl⟩

end

namespace Sched

variable {cfg : Config} {s s' : Sched} {f g : Frame} {t c cur : Nat} {passed : Bool}

theorem waitsFor_expansion (hf : f.waitsFor = none) (hget : ∀ tid, f ≠ .waitGetChild tid)
    (hg : g ∈ s.expansion cfg cur f) : g.waitsFor = none := by
  cases f with
  | down σ | redown σ =>
    simp only [expansion] at hg
    split at hg
    · obtain rfl := mem_singleton.mp hg
      cases σ <;> first | rfl | cases hf
    · cases hg
  | waitGetChild tid => exact absurd rfl (hget tid)
  | _ =>
    simp only [expansion] at hg
    grind -linarith [Frame.waitsFor]

/-- The frames that lead to `sema_up (&sema_wait)`, before a frame and after it. -/
theorem countP_raisesWait_expansion (cfg : Config) (s : Sched) (cur : Nat) (f : Frame) :
    (s.expansion cfg cur f).countP (Frame.raisesWait cur) +
    (if f.raises = some (.wait cur) then 1 else 0) =
      (if f.raisesWait cur then 1 else 0) + if f = .startProcess false then 1 else 0 := by
  cases f with
  | startProcess success => cases success <;> simp [expansion, Frame.raises, Frame.raisesWait]
  | up σ =>
    simp only [expansion]
    split <;> simp [Frame.raises, Frame.raisesWait]
  | _ =>
    simp only [expansion]
    repeat' split
    all_goals simp_all [Frame.raises, Frame.raisesWait]

/-- `process_wait` goes on. -/
theorem inWait_after (cfg : Config) (hs : s.Steady) (hf : s.Next f)
    (hw : InWait c passed (s.code s.running)) :
    (f.lowers = some (.wait c) ∧ passed = false ∧
      InWait c (s.value (.wait c) ≠ 0) ((s.after cfg f).code s.running)) ∨
    (f = .removeChild c ∧ passed = true ∧
      (s.after cfg f).code s.running = [.readStatus c, .up (.elim c)]) ∨
    f = .readStatus c ∧ passed = true ∧ (s.after cfg f).code s.running = [.up (.elim c)] := by
  rw [code_after_self cfg hs.running_lt.ne]
  unfold Next at hf
  generalize s.code s.running = code at hf hw
  cases hw with
  | down | redown =>
    obtain rfl := some.inj hf
    refine .inl ⟨rfl, rfl, ?_⟩
    by_cases hzero : s.value (.wait c) = 0
    · simpa [expansion, hzero] using InWait.redown (c := c)
    · simpa [expansion, hzero] using InWait.remove (c := c)
  | remove =>
    obtain rfl := some.inj hf
    exact .inr (.inl ⟨rfl, rfl, rfl⟩)
  | read =>
    obtain rfl := some.inj hf
    exact .inr (.inr ⟨rfl, rfl, rfl⟩)

namespace Family

variable (h : s.Family)

include h

theorem parent_of_inWait (hw : InWait c passed (s.code t)) : s.parent c = some t := by
  obtain ⟨f, hf, hc⟩ := hw.head
  obtain ⟨before, after, hp⟩ := Frame.onChild_of_waitsFor hc
  refine parent_of_stage ?_
  rw [h.head_stage hf hp]
  exact (Frame.onChild_before hp).1

theorem inWait_after_of_ne (hs : s.Steady) (ht : t ≠ s.running) :
    InWait c passed ((s.after cfg f).code t) ↔ InWait c passed (s.code t) := by
  rw [code_after_of_ne cfg hs.running_lt.ne ht]
  split
  · next hnext =>
    rw [h.formed.fresh t hnext.ge]
    refine iff_of_false (fun hw ↦ ?_) (by rintro ⟨⟩)
    cases f with
    | initThread _ entry _ => cases entry <;> cases hw
    | _ => cases hw
  · rfl

theorem mem_removed_of_head (hf : (s.code t).head? = some (.readStatus c)) : c ∈ s.removed := by
  have hstage := h.head_stage hf (p := (c, .removed, .removed)) rfl
  simp only [stage] at hstage
  grind -linarith

end Family

/-- The dead stay dead. -/
theorem Kept.dead_step {a : FreeAct} (hk : s.Kept) (hu : s.UnblocksParked a) (ht : s.Dead t)
    (hlt : t < s.next) (hstep : s.freeStep cfg a = some s') : s'.Dead t := by
  have hrun : s.status s.running = .running := (hk.steady.run _).mpr rfl
  cases a with
  | event e pick =>
    rcases react_cases hstep with rfl | ⟨c, -, -, -, rfl⟩ | ⟨f, rfl, hf, -, hperform⟩ |
      ⟨-, -, htimer⟩
    · exact ht
    · exact ht
    · refine (hk.steady.effect hk.coded hf hu).1.dead_perform ?_ hperform ?_
      · rw [show (s.after cfg f).running = s.running from running_effect cfg s.pop s.running f,
          status_after, if_neg fun hcon ↦ hk.steady.running_lt.ne hcon.2]
        exact hrun
      · rw [Dead, status_after, if_neg fun hcon ↦ hlt.ne hcon.2]
        exact ht
    · exact hk.steady.dead_timerInterrupt htimer ht
  | preempt pick =>
    simp only [freeStep] at hstep
    split at hstep
    · exact some.inj hstep ▸ ht
    · have hasked : s.Asked .yield := hk.steady
      exact hasked.dead_perform hrun hstep ht

end Sched

namespace Procs

variable {cfg : Config} {s s' : Procs} {f g : Frame} {t c : Nat} {passed : Bool} {tid : Int}

/-! ## What is kept -/

/-- About the calls of `process_wait`. -/
structure Waits (s : Procs) : Prop where
  shaped : ∀ t, ∀ f ∈ s.code t, ∀ c, f.waitsFor = some c → ∃ passed, InWait c passed (s.code t)
  during : ∀ t c passed, InWait c passed (s.code t) →
    s.waited c = false ∧ (s.downs (.wait c) ≠ 0 ↔ passed = true)
  passed : ∀ c, s.downs (.wait c) ≠ 0 → c ∈ s.removed ∨ ∃ t, InWait c true (s.code t)
  /-- A child is on the list of its parent until it is waited for, or the parent exits. -/
  removed : ∀ c ∈ s.removed, ∀ t, s.parent c = some t →
    s.waited c = true ∨ (s.code t).head? = some (.readStatus c) ∨ s.ending t ≠ none
  waited : ∀ c, s.waited c = true → c ∈ s.removed

/-- A call of `process_wait` has found a child if it is the first one, and has returned its
`exit_status`. -/
def Recorded (s : Procs) (r : WaitReturn) : Prop :=
  r.first = r.child.isSome ∧
    r.child.elim (r.result = -1) fun c ↦ ∃ e, s.ending c = some e ∧ r.result = e.stored

/-- About the processes that end. -/
structure Ends (s : Procs) : Prop where
  /-- `sema_wait` is raised once, after the process has ended. -/
  sum : ∀ t, s.ups (.wait t) + (s.code t).countP (Frame.raisesWait t) =
    if s.ending t = none then 0 else 1
  status : ∀ t, s.exitStatus t = (s.ending t).elim 0 Ending.stored
  fresh : ∀ t, s.next ≤ t → s.ending t = none
  returns : ∀ r ∈ s.returns, s.Recorded r

/-- A process that has ended does not return to the user program. -/
def Over (s : Procs) : Prop := ∀ t, s.ending t ≠ none →
  .exitLoop ∈ s.code t ∨ .die ∈ s.code t ∨ s.Dead t

structure Inv (s : Procs) : Prop where
  kept : s.Kept
  family : s.Family
  buried : s.Buried
  balanced : ∀ c, s.Balanced 0 (.wait c)
  waits : s.Waits
  ends : s.Ends
  ended : s.Over

theorem Waits.moves {sched : Sched} (h : s.Waits) (hm : s.Moves sched) :
    (s.setSched sched).Waits := by
  obtain ⟨h1, h2, h3, h4, h5⟩ := h
  constructor <;> dsimp only [setSched] <;> rw [hm.data] <;> assumption

theorem Ends.moves {sched : Sched} (h : s.Ends) (hm : s.Moves sched) :
    (s.setSched sched).Ends := by
  obtain ⟨h1, h2, h3, h4⟩ := h
  constructor <;> dsimp only [setSched] <;> (try rw [hm.data]) <;> assumption

theorem Ends.ending_of_ups (h : s.Ends) (ht : s.ups (.wait t) ≠ 0) : s.ending t ≠ none := by
  intro hnone
  have hsum := h.sum t
  rw [if_pos hnone] at hsum
  omega

theorem Ends.ending_of_mem (h : s.Ends) (hf : f ∈ s.code t) (hraises : f.raisesWait t = true) :
    s.ending t ≠ none := by
  intro hnone
  have hsum := h.sum t
  have hpos : 0 < (s.code t).countP (Frame.raisesWait t) := countP_pos_iff.mpr ⟨f, hf, hraises⟩
  rw [if_pos hnone] at hsum
  omega

theorem Recorded.mono {r : WaitReturn} (hr : s.Recorded r)
    (hmono : ∀ c, s.ending c ≠ none → s'.ending c = s.ending c) : s'.Recorded r := by
  refine ⟨hr.1, ?_⟩
  have hresult := hr.2
  cases hchild : r.child with
  | none => simpa [hchild] using hresult
  | some c =>
    rw [hchild] at hresult
    obtain ⟨e, he, hresult⟩ := hresult
    exact ⟨e, (hmono c (by simp [he])).trans he, hresult⟩

theorem frame_exitStatus : (s.frame f).exitStatus = s.exitStatus := by
  unfold frame
  split <;> first | rfl | (split <;> rfl) | simp [finish]

theorem frame_ending : (s.frame f).ending =
    if f = .startProcess false then update s.ending s.running (some .loadFailed) else s.ending := by
  unfold frame
  split <;> first | rfl | (split <;> rfl) | simp_all

theorem frame_ending_of_ne (hne : t ≠ s.running) : (s.frame f).ending t = s.ending t := by
  rw [frame_ending]
  split
  · exact update_of_ne hne ..
  · rfl

theorem frame_waited :
    (s.frame f).waited c = true ↔ s.waited c = true ∨ f = .readStatus c := by
  unfold frame
  split
  · simp [waited, finish]
  · split <;> simp [waited]
  · simp [waited, or_comm]
  · next hne =>
    refine (or_iff_left fun hcon ↦ ?_).symm
    exact hne c hcon

section

variable (h : s.Inv)

include h

/-- The running process has not ended if it is not in `thread_exit`. -/
theorem Inv.ending_running (hexit : .exitLoop ∉ s.code s.running)
    (hdie : .die ∉ s.code s.running) : s.ending s.running = none := by
  by_contra hne
  rcases h.ended _ hne with hcon | hcon | hdead
  · exact hexit hcon
  · exact hdie hcon
  · rw [Sched.Dead, (h.kept.steady.run _).mpr rfl] at hdead
    rcases hdead with hdead | hdead <;> cases hdead

theorem Inv.code_eq (hf : s.Next f) (hlast : f.last = true) : s.code s.running = [f] := by
  rw [← cons_head?_tail hf, h.family.last_tail hf hlast]

/-- How a process has ended does not change. -/
theorem Inv.frame_ending_eq (hf : s.Next f) (ht : s.ending t ≠ none) :
    (s.frame f).ending t = s.ending t := by
  by_cases hfail : f = .startProcess false
  · subst hfail
    have hcode := h.code_eq hf rfl
    refine frame_ending_of_ne ?_
    rintro rfl
    exact ht (h.ending_running (by simp [hcode]) (by simp [hcode]))
  · rw [frame_ending, if_neg hfail]

/-! ## `process_wait` -/

/-- **`thread_get_child` finds a child** that has not been waited for before. -/
theorem Inv.isSome_threadGetChild (hf : s.Next (.waitGetChild tid)) :
    (s.threadGetChild s.running tid).isSome = s.expects tid := by
  have hcode := h.code_eq hf rfl
  have hmem : ∀ c, c ∈ s.childTlist s.running ↔
      c < s.next ∧ s.parent c = some s.running ∧ s.waited c = false := by
    intro c
    constructor
    · intro hlisted
      have hparent := h.family.child _ c hlisted
      refine ⟨(h.family.parent _ _ hparent).1, hparent, Bool.not_eq_true _ ▸ fun hcon ↦ ?_⟩
      exact h.family.listed _ c hlisted (h.waits.waited c hcon)
    · rintro ⟨-, hparent, hwaited⟩
      obtain ⟨st, hafter, hsettled⟩ := h.family.staged s.running c
      rw [hcode] at hafter
      obtain rfl := some.inj hafter
      by_contra hnot
      have hremoved : c ∈ s.removed := by
        by_contra hnot'
        simp [Sched.stage, hparent, hnot, hnot', Stage.settled] at hsettled
      rcases h.waits.removed c hremoved _ hparent with hcon | hcon | hcon
      · simp [hwaited] at hcon
      · simp [hcode] at hcon
      · exact hcon (h.ending_running (by simp [hcode]) (by simp [hcode]))
  rw [Sched.threadGetChild, expects, Bool.eq_iff_iff, List.find?_isSome, List.any_eq_true]
  simp only [hmem, List.mem_range, decide_eq_true_eq, Bool.and_eq_true, Bool.not_eq_true']
  grind -linarith

theorem Inv.inWait_of_lowers (hf : s.Next f) (hlowers : f.lowers = some (.wait c)) :
    ∃ passed, InWait c passed (s.code s.running) := by
  refine h.waits.shaped _ f (mem_of_mem_head? hf) c ?_
  obtain ⟨_, -, hshaped⟩ := h.family.formed.next hf
  cases f with
  | down σ | redown σ => cases hlowers; rfl
  | tryDown σ =>
    cases hlowers
    cases hshaped.2.2.1
  | _ => cases hlowers

/-- A frame of `process_wait` is there only after `thread_get_child` or a frame of it. -/
theorem Inv.inWait_of_mem_after (hf : s.Next f) (hg : g ∈ (s.after cfg f).code s.running)
    (hc : g.waitsFor = some c) :
    (c ∈ s.childTlist s.running ∧ s.code s.running = [f] ∧ f.lowers = none ∧
      f.waitsFor = none ∧ InWait c false ((s.after cfg f).code s.running)) ∨
    ∃ passed, InWait c passed (s.code s.running) := by
  have hs := h.kept.steady
  cases hfc : f.waitsFor with
  | none =>
    rw [Sched.code_after_self cfg hs.running_lt.ne] at hg ⊢
    rcases mem_append.mp hg with hg' | hg'
    · by_cases hget : ∃ tid, f = .waitGetChild tid
      · obtain ⟨tid, rfl⟩ := hget
        rw [h.family.last_tail hf rfl, append_nil]
        simp only [Sched.expansion] at hg' ⊢
        cases hchild : s.threadGetChild s.running tid with
        | none => simp [hchild] at hg'
        | some d =>
          rw [hchild] at hg'
          obtain rfl := InWait.down.mem hg' hc
          exact .inl ⟨mem_of_find?_eq_some hchild, h.code_eq hf rfl, rfl, trivial, .down⟩
      · rw [Sched.waitsFor_expansion hfc (fun tid hcon ↦ hget ⟨tid, hcon⟩) hg'] at hc
        cases hc
    · exact .inr (h.waits.shaped _ g (mem_of_mem_tail hg') c hc)
  | some d =>
    obtain ⟨passed, hw⟩ := h.waits.shaped _ f (mem_of_mem_head? hf) d hfc
    suffices hd : c = d from .inr ⟨passed, hd ▸ hw⟩
    rcases Sched.inWait_after cfg hs hf hw with ⟨-, -, hw'⟩ | ⟨-, -, hcode⟩ | ⟨-, -, hcode⟩
    · exact hw'.mem hg hc
    · exact InWait.read.mem (hcode ▸ hg) hc
    · obtain rfl := mem_singleton.mp (hcode ▸ hg)
      cases hc

/-- A child that is in the list has not been waited for, unless the thread is in `process_wait`. -/
theorem Inv.downs_eq_zero (hc : c ∈ s.childTlist t) (hw : ∀ passed, ¬ InWait c passed (s.code t)) :
    s.downs (.wait c) = 0 := by
  by_contra hne
  rcases h.waits.passed c hne with hremoved | ⟨u, hu⟩
  · exact h.family.listed t c hc hremoved
  · obtain rfl := some.inj ((h.family.parent_of_inWait hu).symm.trans (h.family.child t c hc))
    exact hw _ hu

theorem Inv.during_after (hf : s.Next f) (hw : InWait c passed ((s.after cfg f).code t)) :
    (s.frame f).waited c = false ∧
      ((s.after cfg f).downs (.wait c) ≠ 0 ↔ passed = true) := by
  have hs := h.kept.steady
  have hwaited : s.waited c = false → f ≠ .readStatus c → (s.frame f).waited c = false := by
    rw [← Bool.not_eq_true, ← Bool.not_eq_true, frame_waited, not_or]
    exact And.intro
  rw [Sched.downs_after]
  by_cases ht : t = s.running
  · subst ht
    obtain ⟨g, hg, hc⟩ := hw.head
    rcases h.inWait_of_mem_after hf (mem_of_mem_head? hg) hc with
      ⟨hlisted, hcode, hlowers, hnot, hnew⟩ | ⟨before, hold⟩
    · obtain ⟨-, rfl⟩ := hnew.unique hw
      have hfresh : s.waited c = false := Bool.not_eq_true _ ▸ fun hcon ↦
        h.family.listed _ c hlisted (h.waits.waited c hcon)
      have hzero : s.downs (.wait c) = 0 := h.downs_eq_zero hlisted fun _ hcon ↦ by
        obtain ⟨g, hg, hc⟩ := hcon.head
        obtain rfl := some.inj (hf.symm.trans hg)
        simp [hnot] at hc
      refine ⟨hwaited hfresh ?_, by simp [hlowers, hzero]⟩
      rintro rfl
      cases hnot
    · obtain ⟨hfresh, hzero⟩ := h.waits.during _ c before hold
      rcases Sched.inWait_after cfg hs hf hold with ⟨hlowers, rfl, hnew⟩ |
        ⟨rfl, rfl, hnew⟩ | ⟨-, -, hnew⟩
      · obtain ⟨-, rfl⟩ := hnew.unique hw
        simp only [Bool.false_eq_true, iff_false, not_not] at hzero
        refine ⟨hwaited hfresh (by rintro rfl; cases hlowers), ?_⟩
        rw [hlowers, hzero]
        by_cases hvalue : s.value (.wait c) = 0 <;> simp [hvalue]
      · obtain ⟨-, rfl⟩ := InWait.read.unique (hnew ▸ hw)
        refine ⟨hwaited hfresh (by rintro ⟨⟩), ?_⟩
        rw [if_neg (by simp [Frame.lowers]), hzero]
      · rw [hnew] at hw
        cases hw
  · have hold := (h.family.inWait_after_of_ne hs ht).mp hw
    have hother : ∀ before, ¬ InWait c before (s.code s.running) := fun _ hrun ↦
      ht (some.inj ((h.family.parent_of_inWait hold).symm.trans (h.family.parent_of_inWait hrun)))
    obtain ⟨hfresh, hdowns⟩ := h.waits.during t c passed hold
    refine ⟨hwaited hfresh ?_, ?_⟩
    · rintro rfl
      obtain ⟨_, hrun⟩ := h.waits.shaped _ _ (mem_of_mem_head? hf) c rfl
      exact hother _ hrun
    · rw [if_neg]
      · exact hdowns
      · rintro ⟨hlowers, -⟩
        obtain ⟨_, hrun⟩ := h.inWait_of_lowers hf hlowers
        exact hother _ hrun

theorem Inv.passed_after (hf : s.Next f) (hc : (s.after cfg f).downs (.wait c) ≠ 0) :
    c ∈ (s.after cfg f).removed ∨ ∃ t, InWait c true ((s.after cfg f).code t) := by
  have hs := h.kept.steady
  have hdowns := s.toSched.downs_after cfg f (.wait c)
  rw [Sched.removed_after]
  by_cases hlowers : f.lowers = some (.wait c)
  · obtain ⟨before, hw⟩ := h.inWait_of_lowers hf hlowers
    rcases Sched.inWait_after cfg hs hf hw with ⟨-, rfl, hnew⟩ | ⟨rfl, -, -⟩ | ⟨rfl, -, -⟩
    · have hpassed := (h.during_after hf hnew).2.mp hc
      exact .inr ⟨_, hpassed ▸ hnew⟩
    · cases hlowers
    · cases hlowers
  · rw [if_neg fun hcon ↦ hlowers hcon.1] at hdowns
    rcases h.waits.passed c (hdowns ▸ hc) with hremoved | ⟨t, hw⟩
    · exact .inl (mem_append_right _ hremoved)
    · by_cases ht : t = s.running
      · subst ht
        rcases Sched.inWait_after cfg hs hf hw with ⟨hcon, -, -⟩ | ⟨-, -, hnew⟩ |
          ⟨rfl, -, -⟩
        · exact absurd hcon hlowers
        · exact .inr ⟨s.running, hnew ▸ .read⟩
        · exact .inl (mem_append_right _ (h.family.mem_removed_of_head hf))
      · exact .inr ⟨t, (h.family.inWait_after_of_ne hs ht).mpr hw⟩

theorem Inv.waits_after (hf : s.Next f) : ((s.frame f).setSched (s.after cfg f)).Waits := by
  have hs := h.kept.steady
  refine ⟨fun t g hg c hc ↦ ?_, fun t c passed hw ↦ h.during_after hf hw,
    fun c hc ↦ h.passed_after hf hc, fun c hc t hp ↦ ?_, fun c hc ↦ ?_⟩
  · by_cases ht : t = s.running
    · subst ht
      rcases h.inWait_of_mem_after hf hg hc with ⟨-, -, -, -, hnew⟩ | ⟨passed, hw⟩
      · exact ⟨false, hnew⟩
      · rcases Sched.inWait_after cfg hs hf hw with ⟨-, -, hw'⟩ | ⟨-, -, hcode⟩ |
          ⟨-, -, hcode⟩
        · exact ⟨_, hw'⟩
        · exact ⟨true, hcode.symm ▸ .read⟩
        · obtain rfl := mem_singleton.mp (hcode ▸ hg)
          cases hc
    · have hold := (h.family.mem_code_after_of_ne hs ht (by rintro _ rfl; cases hc)).mp hg
      obtain ⟨passed, hw⟩ := h.waits.shaped t g hold c hc
      exact ⟨passed, (h.family.inWait_after_of_ne hs ht).mpr hw⟩
  · have hlt : c < s.next → s.parent c = some t := by
      intro hlt
      have hp' : (s.after cfg f).parent c = some t := hp
      rwa [Sched.parent_after, if_neg fun hcon ↦ hlt.ne hcon.2] at hp'
    have hc' : c ∈ (s.after cfg f).removed := hc
    have hending : s.ending t ≠ none → (s.frame f).ending t ≠ none :=
      fun ht ↦ h.frame_ending_eq hf ht ▸ ht
    rw [Sched.removed_after, mem_append, mem_toList] at hc'
    rcases hc' with hc' | hc'
    · have hold := h.family.child _ c (h.family.removes_child hf hc')
      obtain rfl := some.inj (hold.symm.trans (hlt (h.family.parent c _ hold).1))
      cases f with
      | removeChild d =>
        obtain rfl := some.inj hc'
        obtain ⟨passed, hw⟩ := h.waits.shaped _ _ (mem_of_mem_head? hf) d rfl
        rcases Sched.inWait_after cfg hs hf hw with ⟨hcon, -⟩ | ⟨-, -, hcode⟩ | ⟨hcon, -⟩
        · cases hcon
        · exact .inr (.inl (congrArg head? hcode))
        · cases hcon
      | exitLoop => exact .inr (.inr (hending (h.ends.ending_of_mem (mem_of_mem_head? hf) rfl)))
      | _ => cases hc'
    · rcases h.waits.removed c hc' t (hlt (h.family.known c hc')) with hwaited | hread | hended
      · exact .inl (frame_waited.mpr (.inl hwaited))
      · by_cases ht : t = s.running
        · subst ht
          exact .inl (frame_waited.mpr (.inr (some.inj (hf.symm.trans hread))))
        · refine .inr (.inl ?_)
          exact (h.family.formed.head_after (g := .readStatus c) hs ht (by simp)).mpr hread
      · exact .inr (.inr (hending hended))
  · show c ∈ (s.after cfg f).removed
    rw [Sched.removed_after]
    refine mem_append_right _ ?_
    rcases frame_waited.mp hc with hwaited | rfl
    · exact h.waits.waited c hwaited
    · exact h.family.mem_removed_of_head hf

theorem Inv.waits_push (call : ThreadCall) (hnil : s.code s.running = [])
    (hreturns : s'.returns = s.returns) (hending : ∀ t, s.ending t ≠ none → s'.ending t ≠ none) :
    (s'.setSched (s.push s.running call.code)).Waits := by
  have hcall : ∀ g ∈ call.code, ∀ c, g.waitsFor ≠ some c := by
    intro g hg c hc
    obtain ⟨_, _, hp⟩ := Frame.onChild_of_waitsFor hc
    rw [(ThreadCall.mem_code hg).2.1] at hp
    cases hp
  have hwaited : ∀ c, (s'.setSched (s.push s.running call.code)).waited c = s.waited c :=
    fun c ↦ congrArg (fun l : List WaitReturn ↦ l.any fun r ↦ r.child = some c) hreturns
  -- The running thread is not in `process_wait` before, and not after.
  have hcode : ∀ t, (s.push s.running call.code).code t = s.code t ∨
      t = s.running ∧ (s.push s.running call.code).code t = call.code := by
    intro t
    by_cases ht : t = s.running
    · exact .inr ⟨ht, by simp [ht, hnil]⟩
    · exact .inl (update_of_ne ht ..)
  have hwait : ∀ t c passed,
      InWait c passed ((s.push s.running call.code).code t) ↔ InWait c passed (s.code t) := by
    intro t c passed
    rcases hcode t with heq | ⟨rfl, heq⟩
    · rw [heq]
    · rw [heq, hnil]
      refine iff_of_false (fun hw ↦ ?_) (by rintro ⟨⟩)
      obtain ⟨g, hg, hc⟩ := hw.head
      exact hcall g (mem_of_mem_head? hg) c hc
  refine ⟨fun t g hg c hc ↦ ?_, fun t c passed hw ↦ ?_,
    fun c hc ↦ (h.waits.passed c hc).imp_right ?_, fun c hc t hp ↦ ?_,
    fun c hc ↦ h.waits.waited c (hwaited c ▸ hc)⟩
  · rcases hcode t with heq | ⟨-, heq⟩
    · obtain ⟨passed, hw⟩ := h.waits.shaped t g (heq ▸ hg) c hc
      exact ⟨passed, (hwait ..).mpr hw⟩
    · exact absurd hc (hcall g (heq ▸ hg) c)
  · rw [hwaited]
    exact h.waits.during t c _ ((hwait ..).mp hw)
  · rintro ⟨t, hw⟩
    exact ⟨t, (hwait ..).mpr hw⟩
  · rw [hwaited]
    refine (h.waits.removed c hc t hp).imp_right (Or.imp (fun hread ↦ ?_) (hending t))
    rcases hcode t with heq | ⟨rfl, -⟩
    · exact (congrArg head? heq).trans hread
    · simp [hnil] at hread

/-! ## `thread_exit` -/

theorem Inv.ups_after_of_ne (hf : s.Next f) (ht : t ≠ s.running) :
    (s.after cfg f).ups (.wait t) = s.ups (.wait t) := by
  rw [Sched.ups_after, if_neg]
  intro hraises
  cases f with
  | up σ =>
    cases hraises
    exact ht (h.family.self _ _ (mem_of_mem_head? hf) t rfl)
  | _ => cases hraises

theorem Inv.recorded_frame (hf : s.Next f) : ∀ r ∈ (s.frame f).returns, (s.frame f).Recorded r := by
  have hold : ∀ r ∈ s.returns, (s.frame f).Recorded r := fun r hr ↦
    (h.ends.returns r hr).mono fun c hc ↦ h.frame_ending_eq hf hc
  cases f with
  | waitGetChild tid =>
    have hget := h.isSome_threadGetChild hf
    intro r hr
    simp only [frame] at hr
    split at hr
    · next hnone =>
      rcases mem_cons.mp hr with rfl | hr
      · exact ⟨by simp [← hget, hnone], rfl⟩
      · exact hold r hr
    · exact hold r hr
  | readStatus c =>
    intro r hr
    rcases mem_cons.mp hr with rfl | hr
    · obtain ⟨passed, hw⟩ := h.waits.shaped _ _ (mem_of_mem_head? hf) c rfl
      have hpassed : passed = true := by
        unfold Sched.Next at hf
        generalize s.code s.running = code at hf hw
        cases hw <;> first | rfl | cases hf
      obtain ⟨hfresh, hdowns⟩ := h.waits.during _ c _ hw
      have hpos := hdowns.mpr hpassed
      have hsum := (h.balanced c).sum
      obtain ⟨e, he⟩ := ne_none_iff_exists'.mp (h.ends.ending_of_ups (t := c) (by omega))
      have hstatus := h.ends.status c
      rw [he] at hstatus
      exact ⟨by simp [hfresh], e, he, hstatus⟩
    · exact hold r hr
  | startProcess success => cases success <;> exact hold
  | _ => exact hold

theorem Inv.sum_after (hf : s.Next f) (t : Nat) :
    (s.after cfg f).ups (.wait t) + ((s.after cfg f).code t).countP (Frame.raisesWait t) =
      if (s.frame f).ending t = none then 0 else 1 := by
  have hs := h.kept.steady
  have hsum := h.ends.sum t
  by_cases ht : t = s.running
  · subst ht
    have hcount := Sched.countP_raisesWait_expansion cfg s.toSched s.running f
    rw [← cons_head?_tail hf, countP_cons] at hsum
    rw [Sched.code_after_self cfg hs.running_lt.ne, countP_append, Sched.ups_after, frame_ending]
    by_cases hfail : f = .startProcess false
    · subst hfail
      have hcode := h.code_eq hf rfl
      rw [if_pos (h.ending_running (by simp [hcode]) (by simp [hcode]))] at hsum
      simp only [if_true, update_self, Frame.raises, reduceCtorEq, if_false] at hcount ⊢
      omega
    · rw [if_neg hfail] at hcount ⊢
      split at hcount <;> simp_all <;> omega
  · have hcode : ((s.after cfg f).code t).countP (Frame.raisesWait t) =
        (s.code t).countP (Frame.raisesWait t) := by
      rw [Sched.code_after_of_ne cfg hs.running_lt.ne ht]
      split
      · next hnext =>
        rw [h.family.formed.fresh t hnext.ge]
        cases f with
        | initThread _ entry _ => cases entry <;> rfl
        | _ => rfl
      · rfl
    rw [h.ups_after_of_ne hf ht, hcode, frame_ending_of_ne ht, hsum]

theorem Inv.ends_after (hf : s.Next f) : ((s.frame f).setSched (s.after cfg f)).Ends := by
  refine ⟨h.sum_after hf, fun t ↦ ?_, fun t ht ↦ ?_, h.recorded_frame hf⟩
  · dsimp only [setSched]
    rw [frame_exitStatus, frame_ending, h.ends.status]
    split
    · next hfail =>
      subst hfail
      have hcode := h.code_eq hf rfl
      by_cases hrun : t = s.running
      · simp [hrun, h.ending_running (by simp [hcode]) (by simp [hcode]), Ending.stored]
      · rw [update_of_ne hrun]
    · rfl
  · have ht' : (s.after cfg f).next ≤ t := ht
    rw [Sched.next_after] at ht'
    have hle : s.next ≤ t := (Nat.le_add_right ..).trans ht'
    dsimp only [setSched]
    rw [frame_ending_of_ne (h.kept.steady.running_lt.trans_le hle).ne']
    exact h.ends.fresh t hle

theorem Inv.ends_push {call : ThreadCall} (hnil : s.code s.running = []) (hcall : call ≠ .exit) :
    (s.setSched (s.push s.running call.code)).Ends := by
  refine ⟨fun t ↦ ?_, h.ends.status, h.ends.fresh, h.ends.returns⟩
  by_cases ht : t = s.running
  · subst ht
    have hzero : call.code.countP (Frame.raisesWait s.running) = 0 := by
      refine countP_eq_zero.mpr fun g hg ↦ ?_
      obtain ⟨hself, -, -, -, hexit⟩ := ThreadCall.mem_code hg
      simp only [Frame.raisesWait, Bool.or_eq_true, decide_eq_true_eq, not_or]
      refine ⟨fun hcon ↦ hcall (hexit hcon), ?_⟩
      rintro rfl
      cases hself
    have hsum := h.ends.sum s.running
    simp only [setSched, Sched.code_push, update_self, hnil, append_nil, hzero]
    rw [hnil, countP_nil] at hsum
    exact hsum
  · simp only [setSched, Sched.code_push, update_of_ne ht]
    exact h.ends.sum t

/-- The running process ends. -/
theorem Inv.ends_exit {e : Ending} (hnil : s.code s.running = []) :
    ((s.finish e.stored e).setSched (s.push s.running [.exitLoop])).Ends := by
  have hnone : s.ending s.running = none := h.ending_running (by simp [hnil]) (by simp [hnil])
  refine ⟨fun t ↦ ?_, fun t ↦ ?_, fun t ht ↦ ?_, fun r hr ↦ ?_⟩
  · have hsum := h.ends.sum t
    by_cases hrun : t = s.running
    · subst hrun
      simp_all [setSched, finish, Sched.push, Frame.raisesWait]
    · simpa [setSched, finish, Sched.push, hrun] using hsum
  · by_cases hrun : t = s.running
    · simp [setSched, finish, hrun]
    · simpa [setSched, finish, hrun] using h.ends.status t
  · dsimp only [setSched, finish]
    rw [update_of_ne (h.kept.steady.running_lt.trans_le ht).ne']
    exact h.ends.fresh t ht
  · refine (h.ends.returns r hr).mono fun c hc ↦ update_of_ne ?_ ..
    rintro rfl
    exact hc hnone

end

/-! ## Steps -/

variable {a : Act}

/-- What one action does. -/
theorem Inv.step_cases (h : s.Inv) (hstep : s.step cfg a = some s') :
    s.freeStep cfg a.free = some s'.toSched ∧
    (s' = s.setSched s'.toSched ∧ s.Moves s'.toSched ∨
    (∃ call : ThreadCall, s.code s.running = [] ∧ call ≠ .exit ∧
      s' = s.setSched (s.push s.running call.code)) ∨
    (∃ e : Ending, s.code s.running = [] ∧
      s' = (s.finish e.stored e).setSched (s.push s.running [.exitLoop])) ∨
    ∃ f pick, a.free = .event .go pick ∧ s.Next f ∧
      (s.after cfg f).perform pick (s.pop.effect cfg s.running f).1 = some s'.toSched ∧
      s' = (s.frame f).setSched s'.toSched) := by
  obtain ⟨sched, hfree, rfl⟩ := map_eq_some_iff.mp hstep
  refine ⟨hfree, ?_⟩
  -- The running thread calls `thread_exit`, or cannot do so.
  have hexit : ∀ {pick} (status : Int) (e : Ending),
      (s.code s.running = [] → status = e.stored) →
      s.freeStep cfg (.event (.call .exit) pick) = some sched →
      (s.ends status e).setSched sched = s.setSched sched ∧ s.Moves sched ∨
      s.code s.running = [] ∧ (s.ends status e).setSched sched =
        (s.finish e.stored e).setSched (s.push s.running [.exitLoop]) := by
    intro pick status e hstatus hfree
    simp only [Sched.freeStep, Sched.react, reduceCtorEq, imp_false] at hfree
    split at hfree
    · next hcall =>
      obtain rfl := some.inj hfree
      rw [Procs.ends, if_pos hcall, hstatus hcall.1]
      exact .inr ⟨hcall.1, rfl⟩
    · next hcall =>
      obtain rfl := some.inj hfree
      rw [Procs.ends, if_neg hcall]
      exact .inl ⟨rfl, .refl _⟩
  cases a with
  | exit status =>
    exact (hexit _ (.exited status.toInt) (fun _ ↦ rfl) hfree).imp_right
      fun h ↦ .inr (.inl ⟨_, h⟩)
  | pageFault =>
    exact (hexit _ .faulted (fun _ ↦ rfl) hfree).imp_right fun h ↦ .inr (.inl ⟨_, h⟩)
  | sched b =>
    cases b with
    | event ev pick =>
      cases ev with
      | call call =>
        by_cases hcall : call = .exit
        · subst hcall
          refine (hexit (s.exitStatus s.running) .killed (fun hnil ↦ ?_) hfree).imp_right
            fun h ↦ .inr (.inl ⟨_, h⟩)
          rw [h.ends.status, h.ending_running (by simp [hnil]) (by simp [hnil])]
          rfl
        · have hstore : s.store (.sched (.event (.call call) pick)) = s := by
            unfold store
            split <;> simp_all
          rw [hstore]
          simp only [Act.free, Sched.freeStep, Sched.react] at hfree
          split at hfree
          · next hnil =>
            obtain rfl := some.inj hfree
            exact .inr (.inl ⟨call, hnil.1, hcall, rfl⟩)
          · exact .inl ⟨rfl, some.inj hfree ▸ .refl _⟩
      | go =>
        cases hf : (s.code s.running).head? with
        | none =>
          have hnil := head?_eq_none_iff.mp hf
          simp only [Act.free, Sched.freeStep, Sched.react, hnil] at hfree
          rw [store, hf]
          exact .inl ⟨rfl, some.inj hfree ▸ .refl _⟩
        | some f =>
          rw [store, hf]
          exact .inr (.inr (.inr ⟨f, pick, rfl, hf, (Sched.freeStep_go hf hfree).2, rfl⟩))
      | timer =>
        simp only [Act.free, Sched.freeStep, Sched.react] at hfree
        split at hfree
        · exact .inl ⟨rfl, some.inj hfree ▸ .refl _⟩
        · exact .inl ⟨rfl, .timerInterrupt hfree⟩
    | preempt pick =>
      simp only [Act.free, Sched.freeStep] at hfree
      split at hfree
      · exact .inl ⟨rfl, some.inj hfree ▸ .refl _⟩
      · exact .inl ⟨rfl, .of_switches (.threadYield hfree)⟩

/-- `sema_wait` is raised without an overflow. -/
theorem Inv.roomy (h : s.Inv) (c : Nat) (b : Sched.FreeAct) :
    Sched.Roomy (.wait c) s.toSched b := by
  cases b with
  | event e pick =>
    cases e with
    | go =>
      intro hf
      obtain rfl : c = s.running := h.family.self _ _ (mem_of_mem_head? hf) c rfl
      have hpos : 0 < (s.code s.running).countP (Frame.raisesWait s.running) :=
        countP_pos_iff.mpr ⟨_, mem_of_mem_head? hf, by simp [Frame.raisesWait]⟩
      have hends := h.ends.sum s.running
      have hsum := (h.balanced s.running).sum
      split at hends <;> omega
    | _ => trivial
  | preempt _ => trivial

theorem Inv.over_after (h : s.Inv) (hf : s.Next f) (hdie : t = s.running → f ≠ .die)
    (ht : (s.frame f).ending t ≠ none) (hlive : ¬ s.Dead t) :
    .exitLoop ∈ (s.after cfg f).code t ∨ .die ∈ (s.after cfg f).code t := by
  have hs := h.kept.steady
  by_cases hrun : t = s.running
  · subst hrun
    rw [Sched.code_after_self cfg hs.running_lt.ne]
    simp only [mem_append]
    by_cases hnew : f = .exitLoop ∨ f = .startProcess false
    · have hmem : .exitLoop ∈ s.expansion cfg s.running f ∨ .die ∈ s.expansion cfg s.running f := by
        rcases hnew with rfl | rfl
        · simp only [Sched.expansion]
          split <;> simp
        · simp [Sched.expansion]
      exact hmem.imp .inl .inl
    · obtain ⟨hexit, hfail⟩ := not_or.mp hnew
      rw [frame_ending, if_neg hfail] at ht
      have hold := (h.ended _ ht).imp_right fun hdead ↦ hdead.resolve_right hlive
      rw [← cons_head?_tail hf, mem_cons, mem_cons] at hold
      exact hold.imp (fun hmem ↦ .inr (hmem.resolve_left (Ne.symm hexit)))
        fun hmem ↦ .inr (hmem.resolve_left (Ne.symm (hdie rfl)))
  · rw [frame_ending_of_ne hrun] at ht
    have hlt : t ≠ s.next := fun heq ↦ ht (h.ends.fresh t heq.ge)
    rw [Sched.code_after_of_ne cfg hs.running_lt.ne hrun, if_neg hlt]
    exact (h.ended t ht).imp_right fun hdead ↦ hdead.resolve_right hlive

theorem Inv.ended_step (h : s.Inv) (hu : s.UnblocksParked a.free)
    (hstep : s.step cfg a = some s') : s'.Over := by
  obtain ⟨hfree, hcases⟩ := h.step_cases hstep
  have hdead : ∀ t, t < s.next → s.Dead t → s'.Dead t :=
    fun t hlt hdead ↦ h.kept.dead_step hu hdead hlt hfree
  have hlt : ∀ t, s.ending t ≠ none → t < s.next :=
    fun t ht ↦ Nat.lt_of_not_le fun hle ↦ ht (h.ends.fresh t hle)
  intro t ht
  rcases hcases with ⟨heq, hm⟩ | ⟨call, hnil, -, rfl⟩ | ⟨e, hnil, rfl⟩ |
    ⟨f, pick, hgo, hf, hperform, heq⟩
  · rw [heq] at ht
    rw [hm.data]
    exact (h.ended t ht).imp_right (.imp_right (hdead t (hlt t ht)))
  · have hne : t ≠ s.running := by
      rintro rfl
      exact ht (h.ending_running (by simp [hnil]) (by simp [hnil]))
    simp only [setSched, Sched.code_push, update_of_ne hne]
    exact h.ended t ht
  · by_cases hrun : t = s.running
    · simp [setSched, Sched.push, hrun]
    · simp only [setSched, finish, Sched.code_push, update_of_ne hrun] at ht ⊢
      exact h.ended t ht
  · rw [heq] at ht
    rw [(Sched.Moves.perform hperform).data]
    by_cases hold : s.Dead t
    · refine .inr (.inr (hdead t (hlt t ?_) hold))
      have hne : t ≠ s.running := hold.ne_of_status ((h.kept.steady.run _).mpr rfl) (by simp)
      exact frame_ending_of_ne (f := f) hne ▸ ht
    by_cases hdie : t = s.running ∧ f = .die
    · obtain ⟨rfl, rfl⟩ := hdie
      rw [hgo] at hu
      have hasked : (s.after cfg .die).Asked .exit := (h.kept.steady.effect h.kept.coded hf hu).1
      exact .inr (.inr (hasked.dead_of_exit hperform))
    · exact (h.over_after hf (not_and.mp hdie) ht hold).imp_right .inl

theorem Inv.step (h : s.Inv) (hu : s.UnblocksParked a.free) (hstep : s.step cfg a = some s') :
    s'.Inv := by
  obtain ⟨hfree, hcases⟩ := h.step_cases hstep
  have hbalanced : ∀ c, s'.Balanced 0 (.wait c) := by
    intro c
    have hb := h.balanced c
    rcases Sched.freeStep_cases hfree with heq | ⟨c, pick, hnil, -, -, heq⟩ |
      ⟨f, pick, hf, -, -, hperform⟩ | ⟨hm, -, -⟩
    · exact heq ▸ hb
    · exact heq ▸ hb.call h.kept.steady hnil
    · exact (hb.effect pick h.kept.steady (h.roomy ..) hf).moves (.perform hperform)
    · exact hb.moves hm
  refine ⟨h.kept.step hu hfree, h.family.step h.kept hfree, h.buried.step h.family hfree,
    hbalanced, ?_, ?_, h.ended_step hu hstep⟩
  · rcases hcases with ⟨heq, hm⟩ | ⟨call, hnil, -, rfl⟩ | ⟨e, hnil, rfl⟩ | ⟨f, pick, -, hf, hp, heq⟩
    · exact heq ▸ h.waits.moves hm
    · exact h.waits_push call hnil rfl fun _ ↦ id
    · refine h.waits_push .exit hnil rfl fun t ht ↦ ?_
      by_cases hrun : t = s.running
      · simp [finish, hrun]
      · simpa [finish, hrun] using ht
    · exact heq ▸ (h.waits_after hf).moves (.perform hp)
  · rcases hcases with ⟨heq, hm⟩ | ⟨call, hnil, hcall, rfl⟩ | ⟨e, hnil, rfl⟩ |
      ⟨f, pick, -, hf, hp, heq⟩
    · exact heq ▸ h.ends.moves hm
    · exact h.ends_push hnil hcall
    · exact h.ends_exit hnil
    · exact heq ▸ (h.ends_after hf).moves (.perform hp)

theorem inv_boot (value : Nat → Nat) : (boot value).Inv := by
  have hcode : ∀ t, ∀ f ∈ (Sched.boot value).code t,
      f = .redown .startIdle ∨ f = .up .startIdle := by
    intro t f hf
    simp only [Sched.boot] at hf
    grind -linarith
  have hwait : ∀ t c passed, ¬ InWait c passed ((Sched.boot value).code t) := by
    intro t c passed hw
    obtain ⟨f, hf, hc⟩ := hw.head
    rcases hcode t f (mem_of_mem_head? hf) with rfl | rfl <;> cases hc
  refine ⟨Sched.kept_boot value, Sched.family_boot value, Sched.buried_boot value,
    fun c ↦ Sched.balanced_boot value (.wait c),
    ⟨fun t f hf c hc ↦ ?_, fun t c passed hw ↦ absurd hw (hwait t c passed),
      fun c hc ↦ absurd rfl hc, fun c hc ↦ absurd hc not_mem_nil, fun c hc ↦ by cases hc⟩,
    ⟨fun t ↦ ?_, fun t ↦ rfl, fun t _ ↦ rfl, fun r hr ↦ absurd hr not_mem_nil⟩,
    fun t ht ↦ absurd rfl ht⟩
  · rcases hcode t f hf with rfl | rfl <;> cases hc
  · refine (Nat.zero_add _).trans (countP_eq_zero.mpr fun f hf ↦ ?_)
    rcases hcode t f hf with rfl | rfl <;> simp [Frame.raisesWait]

theorem Recorded.documented_iff {r : WaitReturn} (h : s.Recorded r) : s.Documented r ↔
    ∀ c e, r.child = some c → s.ending c = some e → e.silent = false := by
  obtain ⟨hfirst, hresult⟩ := h
  cases hchild : r.child with
  | none =>
    rw [hchild] at hfirst hresult
    simpa [Documented, hfirst] using hresult
  | some c =>
    rw [hchild] at hresult
    rw [hchild, isSome_some] at hfirst
    obtain ⟨e, he, hresult⟩ := hresult
    rw [Documented, if_pos hfirst, hchild]
    constructor
    · rintro ⟨c', e', hc, he', hstatus⟩ d e'' hd hd'
      cases hc
      cases hd
      obtain rfl := some.inj (he.symm.trans he')
      obtain rfl := some.inj (he.symm.trans hd')
      exact Ending.stored_eq_status_iff.mp (hresult.symm.trans hstatus)
    · intro hsilent
      exact ⟨c, e, rfl, he, hresult.trans (Ending.stored_eq_status_iff.mpr (hsilent c e rfl he))⟩

/-- A wait for a process that is not a child, or for one that has been waited for. -/
theorem Inv.step_other (h : s.Inv) (hcode : s.code s.running = [.waitGetChild tid])
    (hother : s.expects tid = false) (pick : Option Nat) :
    s.step cfg (.sched (.event .go pick)) = some { s with
      toSched := s.pop
      returns := ⟨s.running, tid, false, none, -1⟩ :: s.returns } := by
  have hf : s.Next (.waitGetChild tid) := congrArg head? hcode
  have hnone : s.threadGetChild s.running tid = none := by
    have hsome := h.isSome_threadGetChild hf
    rw [hother] at hsome
    simpa using hsome
  have hafter : s.after cfg (.waitGetChild tid) = s.pop := by
    have hpop : s.pop.threadGetChild s.running tid = none := hnone
    simp only [Sched.after, Sched.effect, hpop]
  have hstep : s.freeStep cfg (.event .go pick) = some s.pop :=
    (h.kept.steady.react_go hf (h.family.safe h.buried h.kept.steady hf rfl) pick).trans
      (congrArg some hafter)
  simp only [Procs.step, Act.free, hstep, store, hf, frame, hnone, hother, Option.elim_some,
    map_some, setSched]

/-- A process in `process_wait` goes on once the child has raised `sema_wait`. -/
theorem Inv.not_blocked (h : s.Inv) (hw : InWait c passed (s.code t)) (hups : s.ups (.wait c) ≠ 0) :
    t ∉ s.queue (.waiters (.wait c)) ∧ (passed = false → s.value (.wait c) ≠ 0) := by
  have hb := h.balanced c
  have hvalue : passed = false → s.value (.wait c) ≠ 0 := by
    rintro rfl
    have hdowns := (h.waits.during t c false hw).2
    have hsum := hb.sum
    simp only [Bool.false_eq_true, iff_false, not_not] at hdowns
    omega
  refine ⟨fun hmem ↦ ?_, hvalue⟩
  have hpassed : passed = false := by
    have hhead := hb.wait t hmem
    generalize s.code t = code at hw hhead
    cases hw with
    | down | redown => rfl
    | remove | read => cases hhead
  -- Somebody is on the way to the semaphore, and only the parent can be.
  obtain ⟨u, hu⟩ := hb.exists_onTheWay (ne_nil_of_mem hmem) (Nat.pos_of_ne_zero (hvalue hpassed))
  simp only [Sched.onTheWay, Bool.and_eq_true, decide_eq_true_eq] at hu
  obtain ⟨_, hw'⟩ := h.waits.shaped u _ (mem_of_mem_head? hu.1) c rfl
  obtain rfl : u = t := some.inj
    ((h.family.parent_of_inWait hw').symm.trans (h.family.parent_of_inWait hw))
  exact hu.2 hmem

/-- **`process_wait` returns the documented status**, except to the first wait for a process that
`kill` has ended or that was not loaded.  Whatever the threads and processes do, as long as they
call `thread_unblock` only for a thread that has called `thread_block`:
* a call of `process_wait` returns what is documented if and only if it is not one that found such a
  process;
* a call for a process that is not a child of the caller, or that the caller has waited for, returns
  -1 at once;
* a call that has found a child goes on once the child has raised its `sema_wait`. -/
theorem wait_documented_iff {value : Nat → Nat} {as : List Act}
    (hparked : Run.Meets (step cfg) (fun s a ↦ s.UnblocksParked a.free) (boot value) as)
    (hrun : Run.run (step cfg) (boot value) as = some s) :
    (∀ r ∈ s.returns, s.Documented r ↔
      ∀ c e, r.child = some c → s.ending c = some e → e.silent = false) ∧
    (∀ tid pick, s.code s.running = [.waitGetChild tid] → s.expects tid = false →
      s.step cfg (.sched (.event .go pick)) = some { s with
        toSched := s.pop
        returns := ⟨s.running, tid, false, none, -1⟩ :: s.returns }) ∧
    ∀ t c passed, InWait c passed (s.code t) → s.ups (.wait c) ≠ 0 →
      t ∉ s.queue (.waiters (.wait c)) ∧ (passed = false → s.value (.wait c) ≠ 0) := by
  have h : s.Inv := Run.invariant (fun _ _ _ h hu hstep ↦ h.step hu hstep) (inv_boot value)
    hparked hrun
  exact ⟨fun r hr ↦ (h.ends.returns r hr).documented_iff,
    fun tid pick hcode hother ↦ h.step_other hcode hother pick,
    fun t c passed hw hups ↦ h.not_blocked hw hups⟩

/-- The running process makes a call. -/
def calls (c : ThreadCall) (n : Nat) : List Act :=
  .sched (.event (.call c) none) :: List.replicate n (.sched (.event .go none))

/-- The main thread starts a process and waits for it; the process ends by `a`, and the main thread
waits for it once more. -/
def waitTwice (a : Act) : List Act :=
  .sched (.event .go none) :: calls .block 2 ++ calls (.exec true true) 12 ++
    .sched (.preempt none) :: List.replicate 3 (.sched (.event .go none)) ++ calls (.wait 3) 2 ++
    a :: List.replicate 7 (.sched (.event .go none)) ++ calls (.wait 3) 1

/-- The child calls `exit (42)`. -/
theorem wait_documented_iff_exit : ∃ s,
    Run.run (step ⟨true, false, false, id⟩) (boot fun _ ↦ 0) (waitTwice (.exit 42)) = some s ∧
    s.returns = [⟨initialThread, 3, false, none, -1⟩, ⟨initialThread, 3, true, some 2, 42⟩] ∧
    ∀ r ∈ s.returns, s.Documented r := by
  refine Run.exists_of_view (fun s ↦ (s.returns, s.ending 2))
    ([⟨initialThread, 3, false, none, -1⟩, ⟨initialThread, 3, true, some 2, 42⟩],
      some (.exited 42)) (by decide +kernel) fun s hrun heval ↦ ?_
  obtain ⟨hreturns, hending⟩ := Prod.mk.injEq .. ▸ heval
  refine ⟨hreturns, fun r hr ↦ ?_⟩
  refine ((wait_documented_iff (by decide +kernel) hrun).1 r hr).mpr fun c e hc he ↦ ?_
  rw [hreturns, mem_cons, mem_singleton] at hr
  rcases hr with rfl | rfl <;> cases hc
  rw [hending] at he
  cases he
  rfl

/-- **A child that is killed by an exception hands 0 to its parent**, the value `exit_status` has
from the start. -/
theorem wait_after_kill : ∃ s, Run.run (step ⟨true, false, false, id⟩) (boot fun _ ↦ 0)
      (waitTwice (.sched (.event (.call .exit) none))) = some s ∧
    ∃ r ∈ s.returns, r.first = true ∧ r.result = 0 ∧ ¬ s.Documented r := by
  refine Run.exists_of_view (fun s ↦ (s.returns, s.ending 2))
    ([⟨initialThread, 3, false, none, -1⟩, ⟨initialThread, 3, true, some 2, 0⟩], some .killed)
    (by decide +kernel) fun s _ heval ↦ ?_
  obtain ⟨hreturns, hending⟩ := Prod.mk.injEq .. ▸ heval
  refine ⟨⟨initialThread, 3, true, some 2, 0⟩, by simp [hreturns], rfl, rfl, ?_⟩
  simp [Documented, hending, Ending.status]

end Procs

end Pintos
