import Pintos.Logic.PriorityQueue
import Pintos.Threads.Queues

/-!
# Lists in order of priority

`list_insert_ordered` puts a thread into `ready_list`, and into the waiters of a semaphore, before
the first thread of lower priority: this keeps a list ordered that is ordered.  A thread whose
priority is set, or that is given a priority, is in no list at that time.  What is left is
`thread_aging`, which raises the priority of all the threads in `ready_list`, and the calculation of
the priorities for `thread_mlfqs`.
-/

set_option autoImplicit false

namespace Pintos

open Function List Option

/-- The lists that are ordered by priority. -/
def Queue.byPriority : Queue → Bool
  | .ready | .waiters _ => true
  | .sleeping | .parked | .embryo => false

/-- `thread_aging` is called. -/
def Config.ages (cfg : Config) : Bool := !cfg.userprog && cfg.aging

/-- The priorities that a call sets. -/
theorem ThreadCall.isInt_code {c : ThreadCall} {f : Frame} {p : Int} (hf : f ∈ c.code)
    (hp : f.sets = some p ∨ f.gives = some p) : IsInt p := by
  cases c with
  | setPriority newPriority =>
    simp only [ThreadCall.code, mem_cons, not_mem_nil, or_false] at hf
    rcases hf with rfl | rfl
    · rcases hp with hp | hp
      · exact some.inj hp ▸ ⟨newPriority.le_toInt, newPriority.toInt_lt⟩
      · cases hp
    · rcases hp with hp | hp <;> cases hp
  | create memory priority entry =>
    simp only [ThreadCall.code] at hf
    split at hf
    · obtain rfl := mem_singleton.mp hf
      rcases hp with hp | hp
      · cases hp
      · obtain rfl := some.inj hp
        have := priority.isLt
        refine ⟨?_, ?_⟩ <;> omega
    · cases hf
  | exec memory success =>
    simp only [ThreadCall.code] at hf
    split at hf
    · obtain rfl := mem_singleton.mp hf
      rcases hp with hp | hp
      · cases hp
      · obtain rfl := some.inj hp
        exact ⟨by decide, by decide⟩
    · cases hf
  | _ =>
    simp only [ThreadCall.code, mem_singleton] at hf
    subst hf
    rcases hp with hp | hp <;> cases hp

variable {request : Request} {next : Nat → Int → Int} {l : List Nat} {g : Nat → Int} {now : Int}

namespace Sched

variable {cfg : Config} {s s' s₁ : Sched} {q q' : Queue} {t u : Nat} {f : Frame} {fifo : Prop}
  {pick : Option Nat}

theorem less_iff (hq : q.byPriority = true) (a b : Nat) :
    s.less q a b = true ↔ s.priority b < s.priority a := by
  cases q with
  | ready | waiters _ => exact decide_eq_true_iff
  | _ => cases hq

/-! ## One list -/

/-- A list is in order of priority; with `fifo`, threads of the same priority are in the order they
came in. -/
structure Ordered (s : Sched) (fifo : Prop) (q : Queue) : Prop where
  ordered : PriorityQueue.Ordered fifo s.priority s.stamp (s.queue q)
  stamped : ∀ t, s.stamp t < s.clock

namespace Ordered

section

variable (h : s.Ordered fifo q)

include h

/-- Only the priorities in the list matter. -/
theorem congr (hqueue : s'.queue q = s.queue q)
    (hpriority : ∀ t ∈ s.queue q, s'.priority t = s.priority t) (hstamp : s'.stamp = s.stamp)
    (hclock : s'.clock = s.clock) : s'.Ordered fifo q := by
  refine ⟨?_, fun t ↦ ?_⟩
  · rw [hqueue, hstamp]
    exact h.ordered.congr hpriority fun _ _ ↦ rfl
  · rw [hstamp, hclock]
    exact h.stamped t

theorem remove : (s.remove q' t).Ordered fifo q := by
  refine ⟨?_, h.stamped⟩
  by_cases hq : q = q'
  · subst hq
    simp only [Sched.remove, update_self]
    exact h.ordered.sublist erase_sublist
  · simp only [Sched.remove, update_of_ne hq]
    exact h.ordered

/-- A thread that is not in the list goes to this list or to another one. -/
theorem insert (hq : q.byPriority = true) (ht : t ∉ s.queue q) :
    (s.insert q' t).Ordered fifo q := by
  have hstamp : ∀ u ∈ s.queue q, (s.insert q' t).stamp u = s.stamp u := fun u hu ↦
    update_of_ne (ne_of_mem_of_not_mem hu ht) ..
  have hself : (s.insert q' t).stamp t = s.clock := update_self ..
  have hold := h.ordered.congr (fun _ _ ↦ rfl) hstamp
  refine ⟨?_, fun u ↦ ?_⟩
  · by_cases hqq : q = q'
    · subst hqq
      simp only [queue_insert, update_self]
      refine hold.insert (fun b _ ↦ less_iff hq t b) fun b hb ↦ ?_
      rw [hself, hstamp b hb]
      exact h.stamped b
    · simp only [queue_insert, update_of_ne hqq]
      exact hold
  · change (s.insert q' t).stamp u < s.clock + 1
    by_cases hu : u = t
    · rw [hu, hself]
      exact Nat.lt_succ_self _
    · exact ((update_of_ne hu ..).trans_lt (h.stamped u)).trans (Nat.lt_succ_self _)

theorem setStatus (status : ThreadStatus) : (s.setStatus t status).Ordered fifo q :=
  h.congr rfl (fun _ _ ↦ rfl) rfl rfl

/-! ## The scheduler -/

theorem schedule (hs : s.schedule pick = some s') : s'.Ordered fifo q := by
  obtain rfl := eq_of_schedule hs
  have hnext : (s.nextThreadToRun pick).2.Ordered fifo q := by
    rcases s.nextThreadToRun_cases pick with ⟨t, -, heq⟩ | ⟨-, heq⟩ <;> rw [heq]
    · exact h.remove
    · exact h
  unfold threadScheduleTail
  split <;> exact hnext.congr rfl (fun _ _ ↦ rfl) rfl rfl

theorem threadUnblock (hq : q.byPriority = true) (ht : t ∉ s.queue q)
    (hs : s.threadUnblock t = some s') : s'.Ordered fifo q := by
  obtain rfl := eq_of_threadUnblock hs
  exact (h.insert hq ht).setStatus .ready

end

end Ordered

/-- The state in which `schedule` is called to do what is asked. -/
def scheduling (s : Sched) : Request → Option Sched
  | .stay | .unblock _ => none
  | .yield =>
    some ((if s.running = idleThread then s else s.insert .ready s.running).setStatus
      s.running .ready)
  | .block => some (s.setStatus s.running .blocked)
  | .exit => some (s.setStatus s.running .dying)

/-- The state in which an event leads to a call of `schedule`, if it does. -/
def calls (cfg : Config) (s : Sched) : Event → Option Sched
  | .call _ => none
  | .go => do
    let f ← (s.code s.running).head?
    assert (s.safe cfg s.running f)
    (s.after cfg f).scheduling (s.pop.effect cfg s.running f).1
  | .timer =>
    if s.intrOff then none
    else do
      let s₁ ← (s.ticked cfg).threadWakeUp (s.ticked cfg).ticks
      if s.expires then s₁.scheduling .yield else none

theorem perform_of_scheduling (h : s.scheduling request = some s₁) :
    s.perform pick request = s₁.schedule pick := by
  cases request with
  | stay | unblock _ => cases h
  | yield | block | exit =>
    obtain rfl := some.inj h
    rfl

/-- A step that calls `schedule` ends with that call. -/
theorem step_of_calls {e : Event} (hs : s.Steady) (h : s.calls cfg e = some s₁) :
    s.step cfg e = s₁.schedule none := by
  have hrun : s.status s.running = .running := (hs.run _).mpr rfl
  cases e with
  | call c => cases h
  | go =>
    simp only [calls, bind_eq_some, assert_eq_some] at h
    obtain ⟨f, hf, -, hsafe, h⟩ := h
    exact (hs.react_go hf hsafe none).trans (perform_of_scheduling h)
  | timer =>
    simp only [calls] at h
    split at h
    · cases h
    · next hoff =>
      simp only [bind_eq_some] at h
      obtain ⟨s2, hwake, h⟩ := h
      split at h
      · next hyield =>
        rw [step, react, if_neg hoff]
        simp only [timerInterrupt, threadTick_eq, assert, if_pos hrun, some_bind, hwake,
          if_pos hyield]
        exact (perform_of_scheduling h : s2.perform none .yield = s₁.schedule none)
      · cases h

/-- The loop of `thread_wake_up` keeps what every `thread_unblock` in it keeps. -/
theorem Steady.wakeUpLoop_rule {I : Sched → Prop}
    (hstep : ∀ {s s' t}, s.Steady → I s → t ∈ s.queue .sleeping → s.wakeUpTick t ≤ now →
      (s.remove .sleeping t).threadUnblock t = some s' → I s')
    (h : s.Steady) (hI : I s) (hl : s.queue .sleeping = l)
    (hrun : Sched.wakeUpLoop now l s = some s') : I s' := by
  induction l generalizing s with
  | nil => exact some.inj hrun ▸ hI
  | cons t rest ih =>
    unfold Sched.wakeUpLoop at hrun
    split at hrun
    · exact some.inj hrun ▸ hI
    · next hdue =>
      have ht : t ∈ s.queue .sleeping := hl ▸ mem_cons_self
      obtain ⟨s₁, h1, hrun⟩ := bind_eq_some_iff.mp hrun
      have hI1 : I s₁ := hstep h hI ht (not_lt.mp hdue) h1
      have hasked := h.asked_unblock ht (by rintro ⟨⟩)
      have hs1 : s₁.Steady := (hasked.perform none).of_eq h1
      refine ih hs1 hI1 ?_ hrun
      rw [threadUnblock_eq hasked.2.2.2, some.injEq] at h1
      rw [← h1]
      simp [setStatus, hl]

namespace Ordered

section

variable (hq : q.byPriority = true)

include hq

theorem scheduling (h : s.Ordered fifo q)
    (ht : s.Asked request) (hs : s.scheduling request = some s') : s'.Ordered fifo q := by
  cases request with
  | stay | unblock _ => cases hs
  | yield =>
    obtain rfl := some.inj hs
    refine setStatus ?_ _
    split
    · exact h
    · exact h.insert hq (Placed.not_mem ht q)
  | block | exit =>
    obtain rfl := some.inj hs
    exact h.setStatus _

theorem perform (h : s.Ordered fifo q)
    (ht : s.Asked request) (hs : s.perform pick request = some s') : s'.Ordered fifo q := by
  cases request with
  | stay => exact some.inj hs ▸ h
  | unblock t => exact h.threadUnblock hq (ht.2.1 q) hs
  | yield | block | exit => exact (h.scheduling hq ht rfl).schedule hs

theorem threadWakeUp (h : s.Ordered fifo q) (hs : s.Steady)
    (hwake : s.threadWakeUp now = some s') : s'.Ordered fifo q :=
  hs.wakeUpLoop_rule (I := fun s ↦ s.Ordered fifo q)
    (fun hs h ht _ hun ↦ h.remove.threadUnblock hq (hs.not_mem_remove ht q) hun) h rfl hwake

theorem timerInterrupt (h : (s.ticked cfg).Ordered fifo q)
    (hs : s.Steady) (htimer : s.timerInterrupt cfg pick = some s') : s'.Ordered fifo q := by
  obtain ⟨s₁, hwake, htimer⟩ := timerInterrupt_cases htimer
  have hs1 : s₁.Asked .yield := ((hs.ticked.wakeUpLoop rfl).of_eq hwake).1
  have h1 : s₁.Ordered fifo q := h.threadWakeUp hq hs.ticked hwake
  rcases htimer with ⟨-, hyield⟩ | ⟨-, rfl⟩
  · have hperform : s₁.perform pick .yield = some s' := hyield
    exact h1.perform hq hs1 hperform
  · exact h1

/-! ## Frames -/

/-- **A frame keeps the lists ordered.** -/
theorem effect (h : s.Ordered fifo q) (hs : s.Steady) : (s.after cfg f).Ordered fifo q := by
  have hpop : s.pop.Ordered fifo q := h.congr rfl (fun _ _ ↦ rfl) rfl rfl
  have hrun : s.running ∉ s.queue q := hs.not_mem q
  have hnext : s.next ∉ s.queue q := hs.next_not_mem q
  cases f with
  | block =>
    simp only [after, Sched.effect]
    split
    · exact hpop
    · exact hpop.insert hq hrun
  | setPriority newPriority =>
    refine hpop.congr rfl (fun t ht ↦ ?_) rfl rfl
    exact update_of_ne (ne_of_mem_of_not_mem ht hrun) ..
  | sleep tick =>
    have hset : Ordered { s.pop with
        wakeUpTick := update s.pop.wakeUpTick s.running tick } fifo q :=
      h.congr rfl (fun _ _ ↦ rfl) rfl rfl
    exact hset.insert hq hrun
  | down σ | redown σ =>
    simp only [after, Sched.effect, semaDown]
    split
    · have hpush : (s.pop.push s.running [.redown σ]).Ordered fifo q :=
        h.congr rfl (fun _ _ ↦ rfl) rfl rfl
      exact hpush.insert hq hrun
    · exact hpop.congr rfl (fun _ _ ↦ rfl) rfl rfl
  | up σ =>
    simp only [after, Sched.effect, semaUp]
    split
    · exact hpop.congr rfl (fun _ _ ↦ rfl) rfl rfl
    · next t _ _ =>
      have hremoved : (s.pop.remove (.waiters σ) t).Ordered fifo q := hpop.remove
      exact hremoved.congr rfl (fun _ _ ↦ rfl) rfl rfl
  | initThread priority entry exec =>
    have hinserted : (s.pop.insert .embryo s.next).Ordered fifo q := hpop.insert hq hnext
    refine hinserted.congr rfl (fun t ht ↦ update_of_ne ?_ ..) rfl rfl
    rintro rfl
    rcases mem_insert.mp ht with hmem | ⟨rfl, -⟩
    · exact hnext hmem
    · cases hq
  | unblock t | launch t => exact hpop.remove
  | _ =>
    simp only [after, Sched.effect]
    first
      | exact hpop.congr rfl (fun _ _ ↦ rfl) rfl rfl
      | (split <;> exact hpop.congr rfl (fun _ _ ↦ rfl) rfl rfl)

/-- An event keeps the lists ordered, if `thread_tick` does. -/
theorem step {e : Event} (h : s.Ordered fifo q) (hk : s.Kept)
    (hu : s.UnblocksParked (.event e none))
    (htick : e = .timer → (s.ticked cfg).Ordered fifo q) (hstep : s.step cfg e = some s') :
    s'.Ordered fifo q := by
  rcases react_cases hstep with rfl | ⟨c, -, -, -, rfl⟩ | ⟨f, rfl, hf, -, hperform⟩ |
    ⟨rfl, -, htimer⟩
  · exact h
  · exact h.congr rfl (fun _ _ ↦ rfl) rfl rfl
  · exact (h.effect hq hk.steady).perform hq (hk.steady.effect hk.coded hf hu).1 hperform
  · exact (htick rfl).timerInterrupt hq hk.steady htimer

/-- The lists are ordered when `schedule` is called. -/
theorem calls {e : Event} (h : s.Ordered fifo q) (hk : s.Kept)
    (htick : e = .timer → (s.ticked cfg).Ordered fifo q) (hcalls : s.calls cfg e = some s₁) :
    s₁.Ordered fifo q := by
  cases e with
  | call c => cases hcalls
  | go =>
    simp only [Sched.calls, bind_eq_some, assert_eq_some] at hcalls
    obtain ⟨f, hf, -, -, hcalls⟩ := hcalls
    have hu : s.UnblocksParked (.event .go none) := by
      intro t ht
      -- `thread_unblock` does not call `schedule`.
      cases f with
      | unblock _ => cases hcalls
      | _ => simp [hf, Frame.unblocks] at ht
    exact (h.effect hq hk.steady).scheduling hq (hk.steady.effect hk.coded hf hu).1 hcalls
  | timer =>
    simp only [Sched.calls] at hcalls
    split at hcalls
    · cases hcalls
    · obtain ⟨s2, hwake, hcalls⟩ := bind_eq_some_iff.mp hcalls
      have hs2 : s2.Asked .yield := ((hk.steady.ticked.wakeUpLoop rfl).of_eq hwake).1
      split at hcalls
      · exact ((htick rfl).threadWakeUp hq hk.steady.ticked hwake).scheduling hq hs2 hcalls
      · cases hcalls

end

end Ordered

/-! ## The first thread of a list -/

/-- A thread has the highest priority of those in a list, and with `fifo` it came first among those
that have it. -/
def First (s : Sched) (fifo : Prop) (l : List Nat) (t : Nat) : Prop :=
  t ∈ l ∧ ∀ u ∈ l, u ≠ t → PriorityQueue.Before fifo s.priority s.stamp t u

theorem Ordered.first (h : s.Ordered fifo q) (ht : (s.queue q).head? = some t) :
    s.First fifo (s.queue q) t := by
  obtain ⟨rest, hq⟩ := List.head?_eq_some_iff.mp ht
  have hpairwise := h.ordered
  rw [hq] at hpairwise ⊢
  refine ⟨mem_cons_self, fun u hu hne ↦ ?_⟩
  exact (pairwise_cons.mp hpairwise).1 u ((mem_cons.mp hu).resolve_left hne)

/-- `next_thread_to_run` returns the first thread of `ready_list`. -/
theorem Ordered.nextThreadToRun (h : s.Ordered fifo .ready) (hne : s.queue .ready ≠ []) :
    s.First fifo (s.queue .ready) (s.nextThreadToRun none).1 := by
  obtain ⟨t, rest, hq⟩ := exists_cons_of_ne_nil hne
  have hnext : (s.nextThreadToRun none).1 = t := by
    simp only [Sched.nextThreadToRun, nextThreadToRun.next, hq]
  rw [hnext]
  exact h.first (hq ▸ rfl)

/-- `sema_up` unblocks the first thread that waits. -/
theorem Ordered.semaUp {σ : SemaId} (h : s.Ordered fifo (.waiters σ))
    (hup : (s.semaUp σ).1 = .unblock t) : s.First fifo (s.queue (.waiters σ)) t := by
  rcases hq : s.queue (.waiters σ) with - | ⟨u, rest⟩ <;> simp only [Sched.semaUp, hq] at hup
  · cases hup
  · obtain rfl := Request.unblock.inj hup
    exact hq ▸ h.first (hq ▸ rfl)

/-! ## Aging -/

theorem forEach_of_not_mem (ht : t ∉ l) : forEach next l g t = g t := by
  induction l generalizing g with
  | nil => rfl
  | cons a l ih =>
    rw [mem_cons, not_or] at ht
    exact (ih ht.2).trans (update_of_ne ht.1 ..)

theorem forEach_of_mem (hl : l.Nodup) (ht : t ∈ l) : forEach next l g t = next t (g t) := by
  induction l generalizing g with
  | nil => cases ht
  | cons a l ih =>
    obtain ⟨ha, hl⟩ := nodup_cons.mp hl
    change forEach next l (update g a (next a (g a))) t = next t (g t)
    rcases mem_cons.mp ht with rfl | ht
    · rw [forEach_of_not_mem ha, update_self]
    · rw [ih hl ht, update_of_ne (ne_of_mem_of_not_mem ht ha)]

theorem forEach_forall {P : Int → Prop}
    (hnext : ∀ t x, P x → P (next t x)) (hg : ∀ t, P (g t)) (t : Nat) : P (forEach next l g t) := by
  induction l generalizing g with
  | nil => exact hg t
  | cons a l ih =>
    refine ih fun u ↦ ?_
    change P (update g a (next a (g a)) u)
    by_cases hu : u = a
    · rw [hu, update_self]
      exact hnext a _ (hg a)
    · rw [update_of_ne hu]
      exact hg u

theorem isInt_aged (p : Int) : IsInt (aged p) := by
  obtain ⟨hle, hlt⟩ := isInt_int32 (p + 1)
  rw [aged, IsInt, priMax]
  omega

/-- `priority++` does not overflow. -/
theorem aged_eq {p : Int} (hp : IsInt p) (hmax : p ≠ 2 ^ 31 - 1) : aged p = min (p + 1) priMax := by
  obtain ⟨hle, hlt⟩ := hp
  rw [aged, int32_eq_self ⟨by omega, by omega⟩]

/-- When `thread_aging` raises the priorities, none of them is `INT_MAX`. -/
def Fits (s : Sched) : Prop :=
  s.agingTicks + 1 = timeSlice * 100 → ∀ t ∈ s.queue .ready, s.priority t ≠ 2 ^ 31 - 1

instance decidableFits (s : Sched) : Decidable s.Fits :=
  inferInstanceAs (Decidable (_ → _))

theorem Ordered.threadAging (h : s.Ordered fifo q) (hfifo : ¬ fifo) (hs : s.Steady)
    (hint : ∀ t, IsInt (s.priority t)) (hfits : s.Fits) : s.threadAging.Ordered fifo q := by
  unfold Sched.threadAging
  split
  · next hage =>
    by_cases hq : q = .ready
    · subst hq
      refine ⟨h.ordered.mono hfifo fun a ha b hb hle ↦ ?_, h.stamped⟩
      change forEach _ _ _ b ≤ forEach _ _ _ a
      rw [forEach_of_mem (hs.nodup _) ha, forEach_of_mem (hs.nodup _) hb,
        aged_eq (hint a) (hfits hage a ha), aged_eq (hint b) (hfits hage b hb)]
      omega
    · refine h.congr rfl (fun t ht ↦ forEach_of_not_mem fun hmem ↦ ?_) rfl rfl
      exact hq (hs.apart _ _ t ht hmem)
  · exact h.congr rfl (fun _ _ ↦ rfl) rfl rfl

/-- The tick is charged to the running thread. -/
def charged (s : Sched) : Sched :=
  if s.running = idleThread then s
  else { s with
    recentCpu := update s.recentCpu s.running
      (addFp (s.recentCpu s.running) (intToFp 1)) }

/-- The state in which the priorities are calculated for `thread_mlfqs`. -/
def accounted (s : Sched) : Sched :=
  if s.charged.ticks % timerFreq = 0 then s.charged.everySecond else s.charged

theorem mlfqsTick_eq (s : Sched) : s.mlfqsTick =
    if s.accounted.ticks % timeSlice = 0 then s.accounted.everySlice else s.accounted := rfl

/-- The state before `thread_aging`. -/
def counted (cfg : Config) (s : Sched) : Sched :=
  let s := { s with ticks := s.ticks + 1 }
  let s := if cfg.mlfqs then s.mlfqsTick else s
  { s with threadTicks := s.threadTicks + 1 }

theorem ticked_eq (cfg : Config) (s : Sched) :
    s.ticked cfg = if cfg.ages then (s.counted cfg).threadAging else s.counted cfg := rfl

theorem counted_of_not_mlfqs (hmlfqs : cfg.mlfqs = false) : s.counted cfg =
    { s with ticks := s.ticks + 1, threadTicks := s.threadTicks + 1 } := by
  simp only [counted, hmlfqs]
  rfl

/-! ## The numbers of the threads -/

/-- What the scheduler does not change, apart from the calculations of `thread_tick`. -/
def numbers (s : Sched) : (Nat → Int) × (Nat → Int) × List Nat :=
  (s.priority, s.recentCpu, s.allList)

theorem numbers_perform (h : s.perform pick request = some s') : s'.numbers = s.numbers := by
  obtain ⟨_, _, _, _, _, _, rfl⟩ := Switches.perform h
  rfl

theorem Steady.numbers_threadWakeUp (hs : s.Steady) (h : s.threadWakeUp now = some s') :
    s'.numbers = s.numbers :=
  hs.wakeUpLoop_rule (I := fun s' ↦ s'.numbers = s.numbers)
    (fun {s s' t} _ h _ _ hun ↦ by
      have hperform : (s.remove .sleeping t).perform none (.unblock t) = some s' := hun
      exact (numbers_perform hperform).trans h) rfl rfl h

theorem Steady.numbers_timerInterrupt (hs : s.Steady) (h : s.timerInterrupt cfg pick = some s') :
    s'.numbers = (s.ticked cfg).numbers := by
  obtain ⟨s₁, hwake, h⟩ := timerInterrupt_cases h
  have h1 := hs.ticked.numbers_threadWakeUp hwake
  rcases h with ⟨-, hyield⟩ | ⟨-, rfl⟩
  · have hperform : s₁.perform pick .yield = some s' := hyield
    exact (numbers_perform hperform).trans h1
  · exact h1

theorem sets_expansion {cur : Nat} {g : Frame} (hg : g ∈ s.expansion cfg cur f) :
    g.sets = none ∧ g.gives = none := by
  cases f <;> simp only [expansion] at hg <;> (try split at hg) <;>
    simp at hg <;> grind -linarith [Frame.sets, Frame.gives]

theorem sets_born {code : List Frame} {g : Frame} (hf : f.born = some code) (hg : g ∈ code) :
    g.sets = none ∧ g.gives = none := by
  cases f with
  | initThread priority entry exec =>
    obtain rfl := some.inj hf
    cases entry with
    | thread => cases hg
    | process success =>
      obtain rfl := mem_singleton.mp hg
      exact ⟨rfl, rfl⟩
  | _ => cases hf

theorem isInt_decayed (doubleLoadAvg recentCpu nice : Int) :
    IsInt (decayed doubleLoadAvg recentCpu nice) := by
  unfold decayed addFp
  exact isInt_int32 _

theorem calculatedPriority_bounds (recentCpu nice : Int) :
    priMin ≤ calculatedPriority recentCpu nice ∧ calculatedPriority recentCpu nice ≤ priMax := by
  simp only [calculatedPriority, priMin, priMax]
  omega

theorem isInt_calculatedPriority (recentCpu nice : Int) :
    IsInt (calculatedPriority recentCpu nice) := by
  obtain ⟨hle, hlt⟩ := calculatedPriority_bounds recentCpu nice
  simp only [priMin, priMax] at hle hlt
  exact ⟨by omega, by omega⟩

/-- The numbers of the threads, and the priorities that will be set, fit into an `int`. -/
structure Ranged (s : Sched) : Prop where
  priority : ∀ t, IsInt (s.priority t)
  recentCpu : ∀ t, IsInt (s.recentCpu t)
  frames : ∀ t, ∀ f ∈ s.code t, ∀ p, f.sets = some p ∨ f.gives = some p → IsInt p

namespace Ranged

section

variable (h : s.Ranged)

include h

theorem congr (hnumbers : s'.numbers = s.numbers) (hcode : s'.code = s.code) : s'.Ranged := by
  obtain ⟨hpriority, hrest⟩ := Prod.mk.inj hnumbers
  exact ⟨hpriority ▸ h.priority, (Prod.mk.inj hrest).1 ▸ h.recentCpu, hcode ▸ h.frames⟩

theorem push {c : ThreadCall} : (s.push t c.code).Ranged := by
  refine ⟨h.priority, h.recentCpu, fun u g hg p hp ↦ ?_⟩
  by_cases hu : u = t
  · subst hu
    rw [code_push, update_self] at hg
    rcases mem_append.mp hg with hg | hg
    · exact c.isInt_code hg hp
    · exact h.frames u g hg p hp
  · rw [code_push, update_of_ne hu] at hg
    exact h.frames u g hg p hp

theorem after (hs : s.Steady) (hf : s.Next f) : (s.after cfg f).Ranged := by
  have hne : s.running ≠ s.next := hs.running_lt.ne
  have hint := h.frames s.running f (mem_of_mem_head? hf)
  refine ⟨fun t ↦ ?_, fun t ↦ ?_, fun t g hg p hp ↦ ?_⟩
  · rw [priority_after cfg f hne]
    rcases hset : (if t = s.running then f.sets
      else if t = s.next then f.gives else none) with - | p
    · exact h.priority t
    · refine hint p ?_
      grind -linarith
  · rw [recentCpu_after]
    split <;> exact h.recentCpu _
  · by_cases ht : t = s.running
    · subst ht
      rw [code_after_self cfg hne] at hg
      rcases mem_append.mp hg with hg | hg
      · obtain ⟨hsets, hgives⟩ := sets_expansion hg
        simp [hsets, hgives] at hp
      · exact h.frames _ g (mem_of_mem_tail hg) p hp
    · rw [code_after_of_ne cfg hne ht] at hg
      split at hg
      · rcases hborn : f.born with - | code <;> rw [hborn] at hg
        · exact h.frames t g hg p hp
        · obtain ⟨hsets, hgives⟩ := sets_born hborn hg
          simp [hsets, hgives] at hp
      · exact h.frames t g hg p hp

theorem charged : s.charged.Ranged := by
  unfold Sched.charged
  split
  · exact h
  · refine ⟨h.priority, fun t ↦ ?_, h.frames⟩
    by_cases ht : t = s.running
    · subst ht
      simp only [update_self]
      exact isInt_int32 _
    · simp only [update_of_ne ht]
      exact h.recentCpu t

theorem everySecond : s.everySecond.Ranged := by
  obtain ⟨d, hd⟩ : ∃ d, s.everySecond.recentCpu =
      forEach (fun t r ↦ decayed d r (s.nice t)) s.allList s.recentCpu := ⟨_, rfl⟩
  refine ⟨h.priority, fun t ↦ ?_, h.frames⟩
  rw [hd]
  exact forEach_forall (fun _ _ _ ↦ isInt_decayed ..) h.recentCpu t

theorem everySlice : s.everySlice.Ranged := by
  refine ⟨fun t ↦ ?_, h.recentCpu, h.frames⟩
  exact forEach_forall (P := IsInt) (fun _ _ _ ↦ isInt_calculatedPriority _ _) h.priority t

theorem accounted : s.accounted.Ranged := by
  unfold Sched.accounted
  split
  · exact h.charged.everySecond
  · exact h.charged

theorem mlfqsTick : s.mlfqsTick.Ranged := by
  rw [mlfqsTick_eq]
  split
  · exact h.accounted.everySlice
  · exact h.accounted

theorem counted : (s.counted cfg).Ranged := by
  unfold Sched.counted
  split
  · have hset : Ranged { s with ticks := s.ticks + 1 } := h.congr rfl rfl
    exact hset.mlfqsTick.congr rfl rfl
  · exact h.congr rfl rfl

theorem ticked : (s.ticked cfg).Ranged := by
  rw [ticked_eq]
  split
  · unfold threadAging
    split
    · exact ⟨forEach_forall (fun _ p _ ↦ isInt_aged p) h.counted.priority, h.counted.recentCpu,
        h.counted.frames⟩
    · exact h.counted.congr rfl rfl
  · exact h.counted

theorem step {e : Event} (hk : s.Kept) (hstep : s.step cfg e = some s') : s'.Ranged := by
  rcases react_cases hstep with rfl | ⟨c, -, -, -, rfl⟩ | ⟨f, -, hf, -, hperform⟩ | ⟨-, -, htimer⟩
  · exact h
  · exact h.push
  · refine (h.after hk.steady hf).congr (numbers_perform hperform) ?_
    exact congrArg Data.code (Moves.perform hperform).data
  · refine h.ticked.congr (hk.steady.numbers_timerInterrupt htimer) ?_
    exact congrArg Data.code ((Moves.timerInterrupt htimer).data.trans (ticked_frame cfg s).1.symm)

end

end Ranged

theorem ranged_boot (value : Nat → Nat) : (boot value).Ranged := by
  have hzero : IsInt 0 := ⟨by decide, by decide⟩
  refine ⟨fun t ↦ ?_, fun _ ↦ hzero, fun t f hf p hp ↦ ?_⟩
  · simp only [boot]
    split
    · exact ⟨by decide, by decide⟩
    · exact hzero
  · simp only [boot] at hf
    grind -linarith [Frame.sets, Frame.gives]

theorem ordered_boot (value : Nat → Nat) (q : Queue) : (boot value).Ordered fifo q := by
  refine ⟨?_, fun _ ↦ Nat.one_pos⟩
  simp only [boot]
  split
  · exact pairwise_singleton _ _
  · exact List.Pairwise.nil

/-! ## Priority scheduling -/

/-- The lists stay ordered in `thread_tick`, without `thread_mlfqs`. -/
theorem Ordered.ticked (h : s.Ordered (cfg.ages = false) q) (hmlfqs : cfg.mlfqs = false)
    (hs : s.Steady) (hr : s.Ranged) (hfits : cfg.ages = true → s.Fits) :
    (s.ticked cfg).Ordered (cfg.ages = false) q := by
  rw [ticked_eq, counted_of_not_mlfqs hmlfqs]
  split
  · next hages =>
    refine Ordered.threadAging (h.congr rfl (fun _ _ ↦ rfl) rfl rfl) (by simp [hages])
      (hs.congr rfl rfl rfl) hr.priority (hfits hages)
  · exact h.congr rfl (fun _ _ ↦ rfl) rfl rfl

/-- No priority overflows in a timer interrupt. -/
def FitsAt (cfg : Config) (s : Sched) (e : Event) : Prop := e = .timer → cfg.ages = true → s.Fits

instance decidableFitsAt (cfg : Config) (s : Sched) (e : Event) : Decidable (s.FitsAt cfg e) :=
  inferInstanceAs (Decidable (_ → _ → _))

/-- **Lists are ordered by priority.**  Without `thread_mlfqs`, as long as `thread_unblock` is
called only for a thread that has called `thread_block` and `thread_aging` does not find `INT_MAX`
in `ready_list`: `ready_list` and the waiters of every semaphore are in order of priority, and
without aging threads of the same priority are in the order they came in.  So `schedule` chooses the
first one of these, whenever it is called, and so does `sema_up`. -/
theorem priorities_ordered (hmlfqs : cfg.mlfqs = false) {value : Nat → Nat} {es : List Event}
    (hmeets : Run.Meets (step cfg)
      (fun s e ↦ s.UnblocksParked (.event e none) ∧ s.FitsAt cfg e) (boot value) es)
    (hrun : Run.run (step cfg) (boot value) es = some s) :
    (∀ q, q.byPriority = true → (s.queue q).Pairwise fun a b ↦ s.priority b ≤ s.priority a ∧
        (cfg.ages = false → s.priority a = s.priority b → s.stamp a < s.stamp b)) ∧
    (∀ e s₁, s.FitsAt cfg e → s.calls cfg e = some s₁ →
      s.step cfg e = s₁.schedule none ∧ (s₁.queue .ready ≠ [] →
        s₁.First (cfg.ages = false) (s₁.queue .ready) (s₁.nextThreadToRun none).1)) ∧
    ∀ σ t, (s.semaUp σ).1 = .unblock t → s.First (cfg.ages = false) (s.queue (.waiters σ)) t := by
  obtain ⟨hk, hr, hordered⟩ := Run.invariant (I := fun s ↦ s.Kept ∧ s.Ranged ∧
      ∀ q, q.byPriority = true → s.Ordered (cfg.ages = false) q)
    (fun s e s' h hC hstep ↦ ⟨h.1.step hC.1 hstep, h.2.1.step h.1 hstep,
      fun q hq ↦ (h.2.2 q hq).step hq h.1 hC.1 (fun he ↦ (h.2.2 q hq).ticked hmlfqs h.1.steady
        h.2.1 (hC.2 he)) hstep⟩)
    ⟨kept_boot value, ranged_boot value, fun q _ ↦ ordered_boot value q⟩ hmeets hrun
  refine ⟨fun q hq ↦ ?_, fun e s₁ he hcalls ↦ ⟨step_of_calls hk.steady hcalls, fun hne ↦ ?_⟩,
    fun σ t hup ↦ (hordered _ rfl).semaUp hup⟩
  · refine (hordered q hq).ordered.imp fun hab ↦ ⟨hab.le, fun hages heq ↦ ?_⟩
    exact (hab.resolve_left heq.not_gt).2 hages
  · refine Ordered.nextThreadToRun ?_ hne
    exact (hordered _ rfl).calls rfl hk
      (fun ht ↦ (hordered _ rfl).ticked hmlfqs hk.steady hr (he ht)) hcalls

/-- A thread of priority 40 sleeps until the third tick.  The main thread is interrupted once and
creates a thread of priority 50, which runs until the others have grown old. -/
def growOlder : List Event :=
  List.replicate 3 Event.go ++ Event.call (.create true 40 .thread) :: List.replicate 11 Event.go ++
    Event.call (.sleep 3) :: Event.go :: Event.go :: Event.timer ::
    Event.call (.create true 50 .thread) :: List.replicate 11 Event.go ++
    List.replicate 399 Event.timer

/-- The second thread has come to stand before the main thread, and both priorities have grown. -/
theorem priorities_ordered_aged : ∃ s,
    Run.run (step ⟨false, false, true, id⟩) (boot fun _ ↦ 0) growOlder = some s ∧
    s.queue .ready = [2, initialThread] ∧ s.priority 2 = 41 ∧ s.priority initialThread ≤ 41 := by
  refine Run.exists_of_view (fun s ↦ (s.queue .ready, s.priority 2)) ([2, initialThread], 41)
    (by decide +kernel) fun s hrun heval ↦ ?_
  obtain ⟨hready, hpriority⟩ := Prod.mk.inj heval
  have hordered := (priorities_ordered rfl (by decide +kernel) hrun).1 .ready rfl
  rw [hready] at hordered
  exact ⟨hready, hpriority, hpriority ▸ ((pairwise_cons.mp hordered).1 _ (by simp)).1⟩

/-- A thread sets its priority to `INT_MAX` and sleeps, and so does the main thread, until the tick
with which they grow old. -/
def growOld : List Event :=
  List.replicate 3 Event.go ++ Event.call (.create true 31 .thread) :: List.replicate 11 Event.go ++
    Event.call (.setPriority 2147483647) :: Event.go :: Event.go :: Event.timer ::
    Event.call (.sleep 399) :: Event.go :: Event.go ::
    Event.call (.sleep 399) :: Event.go :: List.replicate 399 Event.timer

/-- The highest priority overflows, and the thread still stands before the main thread. -/
theorem priority_overflows : ∃ s,
    Run.run (step ⟨false, false, true, id⟩) (boot fun _ ↦ 0) growOld = some s ∧
    ¬ (s.queue .ready).Pairwise fun a b ↦ s.priority b ≤ s.priority a := by
  refine Run.exists_of_view (fun s ↦ (s.queue .ready, s.priority 2, s.priority initialThread))
    ([2, initialThread], -2 ^ 31, 32) (by decide +kernel) fun s _ heval ↦ ?_
  simp only [Prod.mk.injEq] at heval
  obtain ⟨hready, htwo, hmain⟩ := heval
  simp [hready, htwo, hmain]

end Sched

end Pintos
