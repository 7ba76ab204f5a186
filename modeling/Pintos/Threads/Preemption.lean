import Pintos.Threads.Priority

/-!
# Preemption

Without `USERPROG`, whatever makes a thread ready or lowers the priority of the running one ends
with `thread_yield`: then the first thread of `ready_list` runs, or the running thread if it has the
highest priority.  The timer is the exception.  It wakes up threads and raises priorities, and the
running thread yields only if its time slice is over.
-/

set_option autoImplicit false

namespace Pintos

open Option

/-- Frames after which the running thread may not have the highest priority any more. -/
def Frame.preempts : Frame → Bool
  | .setPriority _ | .launch _ => true
  | _ => false

/-- Every such frame is followed by `thread_yield`, and there is no call of `thread_unblock`. -/
def Frame.heeds : List Frame → Bool
  | [] => true
  | f :: rest =>
    (f.unblocks.isNone && (!f.preempts || rest.head? = some .yield)) && Frame.heeds rest

theorem Frame.heeds_append {a b : List Frame} (ha : Frame.heeds a = true)
    (hb : Frame.heeds b = true) : Frame.heeds (a ++ b) = true := by
  induction a with
  | nil => exact hb
  | cons f rest ih =>
    simp only [Frame.heeds, Bool.and_eq_true, Bool.or_eq_true, Bool.not_eq_true'] at ha
    simp only [List.cons_append, Frame.heeds, Bool.and_eq_true, Bool.or_eq_true, Bool.not_eq_true']
    refine ⟨⟨ha.1.1, ha.1.2.imp_right fun hhead ↦ ?_⟩, ih ha.2⟩
    rw [List.head?_append, of_decide_eq_true hhead]
    rfl

theorem Frame.heeds_tail {code : List Frame} (h : Frame.heeds code = true) :
    Frame.heeds code.tail = true := by
  cases code with
  | nil => rfl
  | cons f rest => exact (Bool.and_eq_true_iff.mp h).2

/-- The call of a thread that is `thread_unblock` itself. -/
def ThreadCall.unblocks : ThreadCall → Bool
  | .unblock _ => true
  | _ => false

theorem ThreadCall.heeds_code {c : ThreadCall} (hc : c.unblocks = false) :
    Frame.heeds c.code = true := by
  cases c with
  | create _ _ _ | exec _ _ =>
    simp only [ThreadCall.code]
    split <;> rfl
  | unblock t => cases hc
  | _ => rfl

namespace Sched

variable {cfg : Config} {s s' s₁ : Sched} {t : Nat} {f : Frame} {fifo : Prop}

theorem heeds_expansion {cur : Nat} : Frame.heeds (s.expansion cfg cur f) = true := by
  cases f <;> simp only [expansion] <;> first | rfl | (split <;> rfl)

/-- No thread that is ready has a higher priority than the running one. -/
def Tops (s : Sched) : Prop := ∀ t ∈ s.queue .ready, s.priority t ≤ s.priority s.running

theorem Tops.congr (h : s.Tops) (hready : s'.queue .ready = s.queue .ready)
    (hrunning : s'.running = s.running) (hpriority : s'.priority = s.priority) : s'.Tops := by
  rw [Tops, hready, hrunning, hpriority]
  exact h

/-- `schedule` chooses a thread of the highest priority. -/
theorem Ordered.schedule_tops (h : s.Ordered fifo .ready) (hs : s.schedule none = some s') :
    s'.Tops := by
  obtain rfl := eq_of_schedule hs
  have hswitch : ((s.nextThreadToRun none).2.switchTo (s.nextThreadToRun none).1).Tops := by
    rcases hready : s.queue .ready with - | ⟨u, rest⟩ <;>
      simp only [Sched.nextThreadToRun, nextThreadToRun.next, hready]
    · intro t ht
      have hnil : t ∈ s.queue .ready := ht
      rw [hready] at hnil
      cases hnil
    · intro t ht
      have hmem : t ∈ (s.remove .ready u).queue .ready := ht
      exact h.ordered.le_head (hready ▸ rfl) (List.mem_of_mem_erase hmem)
  unfold threadScheduleTail
  split
  · exact hswitch.congr rfl rfl rfl
  · exact hswitch

theorem Ordered.perform_tops {request : Request} {s2 : Sched} (h : s.Ordered fifo .ready)
    (ht : s.Asked request) (hcalls : s.scheduling request = some s2)
    (hs : s.perform none request = some s') : s'.Tops := by
  rw [perform_of_scheduling hcalls] at hs
  exact (h.scheduling rfl ht hcalls).schedule_tops hs

/-! ## Steps -/

/-- The running thread has the highest priority, or is about to yield. -/
def Heeding (s : Sched) : Prop := s.Tops ∨ (s.code s.running).head? = some .yield

section

variable (hs : s.Steady) (hf : (s.code s.running).head? = some f)
  (hheeds : Frame.heeds (s.code s.running) = true)

include hf hheeds in
theorem head_tail_of_preempts (hpreempts : f.preempts = true) :
    (s.code s.running).tail.head? = some .yield := by
  obtain ⟨rest, hcode⟩ := List.head?_eq_some_iff.mp hf
  rw [hcode] at hheeds ⊢
  simp only [Frame.heeds, Bool.and_eq_true, Bool.or_eq_true, Bool.not_eq_true', decide_eq_true_eq,
    hpreempts] at hheeds
  exact hheeds.1.2.resolve_left nofun

include hf hheeds in
theorem unblocks_of_heeds : f.unblocks = none := by
  obtain ⟨rest, hcode⟩ := List.head?_eq_some_iff.mp hf
  rw [hcode] at hheeds
  simp only [Frame.heeds, Bool.and_eq_true, isNone_iff_eq_none] at hheeds
  exact hheeds.1.1

include hs hf hheeds

/-- `thread_set_priority` yields. -/
theorem head_after_sets {p : Int} (hsets : f.sets = some p) :
    ((s.after cfg f).code s.running).head? = some .yield := by
  rw [code_after_self cfg hs.running_lt.ne]
  cases f with
  | setPriority _ => exact head_tail_of_preempts hf hheeds rfl
  | _ => cases hsets

/-- A thread that has unblocked another one yields. -/
theorem head_after_unblock (huserprog : cfg.userprog = false)
    (hrequest : (s.pop.effect cfg s.running f).1 = .unblock t) :
    ((s.after cfg f).code s.running).head? = some .yield := by
  rw [code_after_self cfg hs.running_lt.ne]
  cases f with
  | launch _ => exact head_tail_of_preempts hf hheeds rfl
  | unblock _ => exact absurd (unblocks_of_heeds hf hheeds) (by simp [Frame.unblocks])
  | up _ => simp [expansion, huserprog]
  | _ =>
    simp only [Sched.effect, semaDown] at hrequest
    first | cases hrequest | (split at hrequest <;> cases hrequest)

end

/-- **A frame keeps the highest priority running**, or is followed by `thread_yield`. -/
theorem Heeding.effect (h : s.Heeding) (huserprog : cfg.userprog = false) (hk : s.Kept)
    (ho : s.Ordered fifo .ready) (hheeds : Frame.heeds (s.code s.running) = true)
    (hf : s.Next f) (hu : s.UnblocksParked (.event .go none))
    (hperform : (s.after cfg f).perform none (s.pop.effect cfg s.running f).1 = some s') :
    s'.Heeding := by
  have hne : s.running ≠ s.next := hk.steady.running_lt.ne
  have hasked : (s.after cfg f).Asked _ :=
    (hk.steady.effect hk.coded hf hu).1
  have hordered : (s.after cfg f).Ordered fifo .ready := ho.effect rfl hk.steady
  have hrunning : (s.after cfg f).running = s.running := running_effect cfg s.pop s.running f
  rcases hrequest : (s.pop.effect cfg s.running f).1 with - | t | - | - | - <;>
    rw [hrequest] at hperform hasked
  · -- The thread goes on: only `thread_set_priority` has changed anything that matters.
    obtain rfl := some.inj hperform
    rcases h with htops | hyield
    · rcases hsets : f.sets with - | p
      · refine .inl fun t ht ↦ ?_
        rw [ready_after] at ht
        have hrun : t ≠ s.running := ne_of_mem_of_not_mem ht (hk.steady.not_mem _)
        have hnext : t ≠ s.next := ne_of_mem_of_not_mem ht (hk.steady.next_not_mem _)
        rw [hrunning, priority_after cfg f hne, priority_after cfg f hne, if_neg hrun, if_neg hnext,
          if_pos rfl, hsets]
        exact htops t ht
      · refine .inr ?_
        rw [hrunning]
        exact head_after_sets hk.steady hf hheeds hsets
    · obtain rfl : f = .yield := some.inj (hf.symm.trans hyield)
      cases hrequest
  · have hcode : s'.code = (s.after cfg f).code :=
      congrArg Data.code (Moves.perform hperform).data
    have hrun' : s'.running = s.running := by
      exact eq_of_threadUnblock hperform ▸ hrunning
    refine .inr ?_
    rw [hcode, hrun']
    exact head_after_unblock hk.steady hf hheeds huserprog hrequest
  all_goals exact .inl (hordered.perform_tops hasked rfl hperform)

/-! ## The timer -/

/-- A timer interrupt that does not end the time slice wakes up no thread, and raises no priority,
above the priority of the running thread. -/
def Timely (cfg : Config) (s : Sched) (e : Event) : Prop :=
  e = .timer → s.expires = false →
    (∀ t ∈ s.queue .sleeping, s.wakeUpTick t ≤ s.ticks + 1 → s.priority t ≤ s.priority s.running) ∧
    (cfg.ages = true → s.agingTicks + 1 = timeSlice * 100 →
      ∀ t ∈ s.queue .ready, min (s.priority t + 1) priMax ≤ s.priority s.running)

instance decidableTimely (cfg : Config) (s : Sched) (e : Event) : Decidable (s.Timely cfg e) :=
  inferInstanceAs (Decidable (_ → _ → _ ∧ (_ → _ → _)))

/-- `thread_tick` changes the priority of ready threads only. -/
theorem priority_ticked_of_not_mem (hmlfqs : cfg.mlfqs = false) (ht : t ∉ s.queue .ready) :
    (s.ticked cfg).priority t = s.priority t := by
  rw [ticked_eq, counted_of_not_mlfqs hmlfqs]
  split
  · unfold threadAging
    split
    · exact forEach_of_not_mem ht
    · rfl
  · rfl

theorem Tops.ticked (h : s.Tops) (hmlfqs : cfg.mlfqs = false) (hs : s.Steady) (hr : s.Ranged)
    (hfits : cfg.ages = true → s.Fits) (hexpires : s.expires = false)
    (htimely : s.Timely cfg .timer) : (s.ticked cfg).Tops := by
  obtain ⟨-, -, hqueue, hrunning⟩ := ticked_frame cfg s
  intro t ht
  rw [hqueue] at ht
  rw [hrunning, priority_ticked_of_not_mem hmlfqs (hs.not_mem _), ticked_eq,
    counted_of_not_mlfqs hmlfqs]
  split
  · next hages =>
    unfold threadAging
    split
    · next hage =>
      change forEach _ _ _ t ≤ _
      rw [forEach_of_mem (hs.nodup _) ht, aged_eq (hr.priority t) (hfits hages hage t ht)]
      exact (htimely rfl hexpires).2 hages hage t ht
    · exact h t ht
  · exact h t ht

/-- `thread_wake_up` finds no thread of a higher priority. -/
theorem Tops.threadWakeUp {now : Int} (h : s.Tops) (hs : s.Steady)
    (hdue : ∀ t ∈ s.queue .sleeping, s.wakeUpTick t ≤ now → s.priority t ≤ s.priority s.running)
    (hwake : s.threadWakeUp now = some s') : s'.Tops := by
  -- Both lists are part of the invariant: what is left to be woken up is due for the same reason.
  refine (hs.wakeUpLoop_rule (I := fun s ↦ s.Tops ∧ ∀ t ∈ s.queue .sleeping, s.wakeUpTick t ≤ now →
    s.priority t ≤ s.priority s.running) ?_ ⟨h, hdue⟩ rfl hwake).1
  intro s s' t hs ⟨htops, hdue⟩ ht hle hun
  rw [threadUnblock_eq (hs.asked_unblock ht nofun).2.2.2, some.injEq] at hun
  subst hun
  have hmem : ∀ {q u}, u ∈ (((s.remove .sleeping t).insert .ready t).setStatus t .ready).queue q →
      u ∈ (s.remove .sleeping t).queue q ∨ q = .ready ∧ u = t := fun hu ↦ mem_insert.mp hu
  refine ⟨fun u hu ↦ ?_, fun u hu hle' ↦ ?_⟩
  · rcases hmem hu with hmem | ⟨-, rfl⟩
    · exact htops u (((mem_remove (hs.nodup _)).mp hmem).1)
    · exact hdue u ht hle
  · rcases hmem hu with hmem | ⟨hq, -⟩
    · exact hdue u (((mem_remove (hs.nodup _)).mp hmem).1) hle'
    · cases hq

theorem Heeding.timerInterrupt (h : s.Heeding) (hmlfqs : cfg.mlfqs = false) (hs : s.Steady)
    (hr : s.Ranged) (ho : (s.ticked cfg).Ordered fifo .ready) (hfits : cfg.ages = true → s.Fits)
    (htimely : s.Timely cfg .timer) (htimer : s.timerInterrupt cfg none = some s') :
    s'.Heeding := by
  obtain ⟨s₁, hwake, htimer'⟩ := timerInterrupt_cases htimer
  have hs1 := (hs.ticked.wakeUpLoop rfl).of_eq hwake
  rcases htimer' with ⟨-, hyield⟩ | ⟨hexpires, rfl⟩
  · have hperform : s₁.perform none .yield = some s' := hyield
    have hasked : s₁.Asked .yield := hs1.1
    exact .inl ((ho.threadWakeUp rfl hs.ticked hwake).perform_tops hasked rfl hperform)
  · refine h.imp (fun htops ↦ ?_) fun hhead ↦ ?_
    · obtain ⟨-, -, hqueue, hrunning⟩ := ticked_frame cfg s
      obtain ⟨hwakeUpTick, hticks⟩ := wakeUpTick_ticked cfg s
      refine (htops.ticked hmlfqs hs hr hfits hexpires htimely).threadWakeUp hs.ticked ?_ hwake
      intro t ht hle
      rw [hqueue] at ht
      rw [hwakeUpTick, hticks] at hle
      have hready : t ∉ s.queue .ready := fun hmem ↦ nomatch hs.apart _ _ t ht hmem
      rw [hrunning, priority_ticked_of_not_mem hmlfqs hready,
        priority_ticked_of_not_mem hmlfqs (hs.not_mem _)]
      exact (htimely rfl hexpires).1 t ht (by exact_mod_cast hle)
    · rw [(Moves.timerInterrupt htimer).data, hs1.2, (ticked_frame cfg s).2.2.2]
      exact hhead

/-! ## Preemptive scheduling -/

/-- A thread calls `thread_unblock` itself, which does not yield. -/
def Event.unblocks : Event → Bool
  | .call c => c.unblocks
  | .go | .timer => false

/-- `thread_yield` follows in all that the threads are doing. -/
def AllHeed (s : Sched) : Prop := ∀ t, Frame.heeds (s.code t) = true

theorem AllHeed.unblocksParked (h : s.AllHeed) (e : Event) :
    s.UnblocksParked (.event e none) := by
  cases e with
  | go =>
    intro t ht
    obtain ⟨f, hf, ht⟩ := bind_eq_some_iff.mp ht
    rw [unblocks_of_heeds hf (h _)] at ht
    cases ht
  | call _ | timer => trivial

theorem AllHeed.push {c : ThreadCall} (h : s.AllHeed) (hc : c.unblocks = false) :
    (s.push t c.code).AllHeed := by
  intro u
  by_cases hu : u = t
  · rw [hu, code_push, Function.update_self]
    exact Frame.heeds_append (ThreadCall.heeds_code hc) (h t)
  · rw [code_push, Function.update_of_ne hu]
    exact h u

theorem AllHeed.after (h : s.AllHeed) (hs : s.Steady) : (s.after cfg f).AllHeed := by
  have hne : s.running ≠ s.next := hs.running_lt.ne
  intro t
  by_cases ht : t = s.running
  · rw [ht, code_after_self cfg hne]
    exact Frame.heeds_append heeds_expansion (Frame.heeds_tail (h _))
  · rw [code_after_of_ne cfg hne ht]
    split
    · cases f with
      | initThread priority entry exec => cases entry <;> rfl
      | _ => exact h t
    · exact h t

theorem AllHeed.step {e : Event} (h : s.AllHeed) (hs : s.Steady)
    (hcall : e.unblocks = false) (hstep : s.step cfg e = some s') : s'.AllHeed := by
  rcases react_cases hstep with rfl | ⟨c, -, -, rfl, rfl⟩ | ⟨f, -, hf, -, hperform⟩ | ⟨-, -, htimer⟩
  · exact h
  · exact h.push hcall
  · rw [AllHeed, (Moves.perform hperform).data]
    exact h.after hs
  · rw [AllHeed, (Moves.timerInterrupt htimer).data]
    exact h

theorem Heeding.step {e : Event} (h : s.Heeding) (huserprog : cfg.userprog = false)
    (hmlfqs : cfg.mlfqs = false) (hk : s.Kept) (hr : s.Ranged) (hheed : s.AllHeed)
    (ho : s.Ordered (cfg.ages = false) .ready) (hfits : s.FitsAt cfg e) (htimely : s.Timely cfg e)
    (hstep : s.step cfg e = some s') : s'.Heeding := by
  rcases react_cases hstep with rfl | ⟨c, hnil, -, -, rfl⟩ | ⟨f, -, hf, -, hperform⟩ |
    ⟨rfl, -, htimer⟩
  · exact h
  · exact .inl ((h.resolve_right (by simp [hnil])).congr rfl rfl rfl)
  · exact h.effect huserprog hk ho (hheed _) hf (hheed.unblocksParked .go) hperform
  · have hordered := ho.ticked hmlfqs hk.steady hr (hfits rfl)
    exact h.timerInterrupt hmlfqs hk.steady hr hordered (hfits rfl) htimely htimer

/-- **A thread of the highest priority runs.**  In a kernel without `USERPROG` and `thread_mlfqs`,
where `thread_unblock` is called by the functions of the kernel only, and as long as the timer does
not make a thread of higher priority ready within a time slice: a thread that is outside these
functions has at least the priority of every thread in `ready_list`. -/
theorem highest_priority_runs (huserprog : cfg.userprog = false) (hmlfqs : cfg.mlfqs = false)
    {value : Nat → Nat} {es : List Event} (hmeets : Run.Meets (step cfg)
      (fun s e ↦ e.unblocks = false ∧ s.FitsAt cfg e ∧ s.Timely cfg e) (boot value) es)
    (hrun : Run.run (step cfg) (boot value) es = some s) (hcode : s.code s.running = []) :
    ∀ t ∈ s.queue .ready, s.priority t ≤ s.priority s.running := by
  have hheed : (boot value).AllHeed := by
    intro t
    simp only [boot]
    split
    · rfl
    · split <;> rfl
  obtain ⟨-, -, -, -, htops | hhead⟩ := Run.invariant (I := fun s ↦ s.Kept ∧ s.Ranged ∧ s.AllHeed ∧
      s.Ordered (cfg.ages = false) .ready ∧ s.Heeding)
    (by
      rintro s e s' ⟨hk, hr, hheed, ho, h⟩ ⟨hcall, hfits, htimely⟩ hstep
      have hu : s.UnblocksParked (.event e none) := hheed.unblocksParked e
      exact ⟨hk.step hu hstep, hr.step hk hstep, hheed.step hk.steady hcall hstep,
        ho.step rfl hk hu (fun he ↦ ho.ticked hmlfqs hk.steady hr (hfits he)) hstep,
        h.step huserprog hmlfqs hk hr hheed ho hfits htimely hstep⟩)
    ⟨kept_boot value, ranged_boot value, hheed, ordered_boot value .ready, .inl (by rintro _ ⟨⟩)⟩
    hmeets hrun
  · exact htops
  · simp [hcode] at hhead

/-- The second thread has been woken up and has grown older within time slices of the third one,
which is still running. -/
theorem highest_priority_runs_aged : ∃ s,
    Run.run (step ⟨false, false, true, id⟩) (boot fun _ ↦ 0) growOlder = some s ∧
    s.running = 3 ∧ s.queue .ready = [2, initialThread] ∧ s.priority 2 ≤ s.priority 3 := by
  refine Run.exists_of_view (fun s ↦ (s.running, s.code s.running, s.queue .ready))
    (3, [], [2, initialThread]) (by decide +kernel) fun s hrun heval ↦ ?_
  simp only [Prod.mk.injEq] at heval
  obtain ⟨hrunning, hcode, hready⟩ := heval
  have htops := highest_priority_runs rfl rfl (by decide +kernel) hrun hcode
  rw [hready, hrunning] at htops
  exact ⟨hrunning, hready, htops 2 (by simp)⟩

/-- A thread of priority 40 sleeps until the next tick. -/
def wakeLate : List Event :=
  List.replicate 3 Event.go ++ Event.call (.create true 40 .thread) :: List.replicate 11 Event.go ++
    Event.call (.sleep 1) :: Event.go :: Event.go :: [Event.timer]

/-- The thread has been woken up, and the main thread is still running. -/
theorem woken_thread_waits : ∃ s,
    Run.run (step ⟨false, false, false, id⟩) (boot fun _ ↦ 0) wakeLate = some s ∧
    s.code s.running = [] ∧ ∃ t ∈ s.queue .ready, s.priority s.running < s.priority t := by
  refine Run.exists_of_view
    (fun s ↦ (s.code s.running, s.queue .ready, s.priority s.running, s.priority 2))
    ([], [2], 31, 40) (by decide +kernel) fun s _ heval ↦ ?_
  simp only [Prod.mk.injEq] at heval
  obtain ⟨hcode, hready, hmain, htwo⟩ := heval
  exact ⟨hcode, 2, by simp [hready], by rw [hmain, htwo]; decide⟩

end Sched

end Pintos
