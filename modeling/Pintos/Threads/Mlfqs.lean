import Pintos.Threads.Priority

/-!
# The 4.4BSD scheduler

With `thread_mlfqs` the priorities of all threads are calculated anew with every fourth tick, from
the time they have had and from how nice they are, and `ready_list` keeps its order.  It is a list
in order of priority after that only if the threads were in the right order for their new
priorities.
-/

set_option autoImplicit false

namespace Pintos

open Function List Option

namespace Sched

variable {cfg : Config} {s s' s₁ : Sched} {q : Queue} {t u : Nat} {f : Frame} {fifo : Prop}
  {pick : Option Nat} {request : Request}

/-! ## Priorities from `recent_cpu` and `nice` -/

/-- What a thread is charged with: the higher it is, the lower is its priority.  It stands for
`recent_cpu / 4 + nice * 2`. -/
def burden (recentCpu nice : Int) : Int := recentCpu.tdiv 4 + nice * 2 ^ 15

/-- Without overflow, the priority is what the charge leaves of the highest priority. -/
theorem calculatedPriority_eq {r n : Int} (hr : IsInt r) (hn : -2 ^ 15 ≤ n ∧ n ≤ 2 ^ 15) :
    calculatedPriority r n = max (min (fpToIntRoundOff (63 * 2 ^ 14 - burden r n)) priMax) priMin ∧
      -2 ^ 31 + 2 ^ 13 ≤ 63 * 2 ^ 14 - burden r n ∧ 63 * 2 ^ 14 - burden r n < 2 ^ 31 - 2 ^ 13 := by
  have hlow : -2 ^ 29 ≤ r.tdiv 4 := Int.tdiv_le_tdiv (a := -2 ^ 31) (by decide) hr.1
  have hhigh : r.tdiv 4 ≤ 2 ^ 29 := Int.tdiv_le_tdiv (b := 2 ^ 31) (by decide) hr.2.le
  have hmax : intToFp priMax = 63 * 2 ^ 14 := by decide
  have hquarter : divFp r (intToFp 4) = r.tdiv 4 := by
    rw [divFp, show intToFp 4 = 4 * num1 by decide, Int.mul_tdiv_mul_of_pos_left _ _ (by decide)]
    exact int32_eq_self ⟨by omega, by omega⟩
  have hnice : intToFp (int32 (n * 2)) = n * 2 ^ 15 := by
    have hproduct : n * 2 * num1 = n * 2 ^ 15 := by
      simp only [num1]
      omega
    rw [int32_eq_self ⟨by omega, by omega⟩, intToFp, hproduct]
    exact int32_eq_self ⟨by omega, by omega⟩
  have hsub : subFp (63 * 2 ^ 14) (r.tdiv 4) = 63 * 2 ^ 14 - r.tdiv 4 :=
    int32_eq_self ⟨by omega, by omega⟩
  have hsub' : subFp (63 * 2 ^ 14 - r.tdiv 4) (n * 2 ^ 15) = 63 * 2 ^ 14 - burden r n := by
    rw [subFp, int32_eq_self ⟨by omega, by omega⟩, burden]
    omega
  refine ⟨?_, by unfold burden; omega, by unfold burden; omega⟩
  simp only [calculatedPriority, hmax, hquarter, hnice, hsub, hsub']

theorem calculatedPriority_le {r r' n n' : Int} (hr : IsInt r) (hr' : IsInt r')
    (hn : -2 ^ 15 ≤ n ∧ n ≤ 2 ^ 15) (hn' : -2 ^ 15 ≤ n' ∧ n' ≤ 2 ^ 15)
    (h : burden r n ≤ burden r' n') : calculatedPriority r' n' ≤ calculatedPriority r n := by
  obtain ⟨heq, -, hhigh⟩ := calculatedPriority_eq hr hn
  obtain ⟨heq', hlow', -⟩ := calculatedPriority_eq hr' hn'
  rw [heq, heq']
  have hround := fpToIntRoundOff_le hlow' hhigh (by omega)
  omega

/-! ## All threads -/

theorem Dead.setStatus (ht : s.Dead t) (hne : t ≠ u) (status : ThreadStatus) :
    (s.setStatus u status).Dead t := by
  simpa [Dead, Sched.setStatus, hne] using ht

theorem Dead.ne_of_status {status : ThreadStatus} (ht : s.Dead t) (hu : s.status u = status)
    (hstatus : status ≠ .gone ∧ status ≠ .dying) : t ≠ u := by
  rintro rfl
  rw [Dead, hu] at ht
  exact ht.elim hstatus.1 hstatus.2

/-- The dead stay dead when another thread is chosen. -/
theorem Placed.dead_schedule (h : s.Placed none) (hs : s.schedule pick = some s') (ht : s.Dead t) :
    s'.Dead t := by
  obtain rfl := eq_of_schedule hs
  have hswitch : ((s.nextThreadToRun pick).2.switchTo (s.nextThreadToRun pick).1).Dead t := by
    rcases s.nextThreadToRun_cases pick with ⟨u, hu, heq⟩ | ⟨-, heq⟩ <;> rw [heq]
    · have hne : t ≠ u := ht.ne_of_status (h.place _ u hu).1 ⟨by rintro ⟨⟩, by rintro ⟨⟩⟩
      have hremoved : (s.remove .ready u).Dead t := ht
      exact hremoved.setStatus hne .running
    · exact ht.setStatus (ht.ne_of_status rfl h.idle) .running
  unfold threadScheduleTail
  split
  · by_cases heq : t = s.running
    · exact .inl (heq ▸ update_self ..)
    · exact hswitch.setStatus heq .gone
  · exact hswitch

/-- Nobody runs when `schedule` is called. -/
theorem Asked.placed_scheduling (h : s.Asked request) (hs : s.scheduling request = some s₁) :
    s₁.Placed none := by
  cases request with
  | stay | unblock _ => cases hs
  | yield =>
    obtain rfl := some.inj hs
    have hsteady : s.Steady := h
    split
    · next hidle => exact hsteady.stop .ready (fun _ ↦ ⟨nofun, nofun⟩) (fun _ ↦ hidle) nofun
    · next hidle =>
      have halive : s.status s.running ≠ .gone := by
        rw [(hsteady.run _).mpr rfl]
        nofun
      exact hsteady.insert (q := .ready) hsteady.not_mem hidle halive fun u ↦ by simp_all [eq_comm]
  | block =>
    obtain rfl := some.inj hs
    exact h
  | exit =>
    obtain rfl := some.inj hs
    exact h.1.stop .dying (fun heq ↦ absurd heq h.2) nofun nofun

theorem Asked.dead_perform (h : s.Asked request) (hrun : s.status s.running = .running)
    (hs : s.perform pick request = some s') (ht : s.Dead t) : s'.Dead t := by
  have hne : t ≠ s.running := ht.ne_of_status hrun ⟨nofun, nofun⟩
  cases request with
  | stay => exact some.inj hs ▸ ht
  | unblock u =>
    have hblocked : s.status u = .blocked := h.2.2.2
    rw [Sched.perform, threadUnblock_eq hblocked, some.injEq] at hs
    have hinserted : (s.insert .ready u).Dead t := ht
    exact hs ▸ hinserted.setStatus (ht.ne_of_status hblocked ⟨nofun, nofun⟩) .ready
  | yield =>
    refine (h.placed_scheduling rfl).dead_schedule hs (Dead.setStatus ?_ hne _)
    split <;> exact ht
  | block | exit => exact (h.placed_scheduling rfl).dead_schedule hs (ht.setStatus hne _)

/-- A thread that dies is dead. -/
theorem Asked.dead_of_exit (h : s.Asked .exit) (hs : s.perform pick .exit = some s') :
    s'.Dead s.running :=
  (h.placed_scheduling rfl).dead_schedule hs (.inr (update_self ..))

theorem Steady.dead_threadWakeUp {now : Int} (h : s.Steady) (hs : s.threadWakeUp now = some s')
    (ht : s.Dead t) : s'.Dead t :=
  h.wakeUpLoop_rule (I := fun s ↦ s.Dead t)
    (fun {s s' u} hs ht hu _ hun ↦ by
      have hperform : (s.remove .sleeping u).perform none (.unblock u) = some s' := hun
      exact (hs.asked_unblock hu nofun).dead_perform ((hs.run _).mpr rfl) hperform ht) ht rfl hs

theorem Steady.dead_timerInterrupt (h : s.Steady) (hs : s.timerInterrupt cfg pick = some s')
    (ht : s.Dead t) : s'.Dead t := by
  obtain ⟨s₁, hwake, hs⟩ := timerInterrupt_cases hs
  have hs1 := ((h.ticked.wakeUpLoop rfl).of_eq hwake).1
  have ht' : (s.ticked cfg).Dead t := by
    rw [Dead, (ticked_frame cfg s).2.1]
    exact ht
  have ht1 := h.ticked.dead_threadWakeUp hwake ht'
  rcases hs with ⟨-, hyield⟩ | ⟨-, rfl⟩
  · have hperform : s₁.perform pick .yield = some s' := hyield
    have hasked : s₁.Asked .yield := hs1
    exact hasked.dead_perform ((hs1.run _).mpr rfl) hperform ht1
  · exact ht1

/-- Every thread that is alive is in `all_list`. -/
def Listed (s : Sched) : Prop := ∀ t, t ∉ s.allList → s.Dead t

theorem allList_after : (s.after cfg f).allList = if f = .die then s.allList.erase s.running
    else s.allList ++ f.born.toList.map fun _ ↦ s.next := by
  cases f with
  | die | initThread _ _ _ => rfl
  | _ =>
    simp only [after, effect, semaDown, semaUp, Frame.born]
    first | exact (append_nil _).symm | (split <;> exact (append_nil _).symm)

theorem allList_ticked (cfg : Config) (s : Sched) : (s.ticked cfg).allList = s.allList := by
  have hmlfqs : ∀ s : Sched, s.mlfqsTick.allList = s.allList := by
    intro s
    unfold mlfqsTick
    dsimp only
    split <;> split <;> split <;> rfl
  rw [ticked_eq]
  have hcounted : (s.counted cfg).allList = s.allList := by
    unfold counted
    split
    · exact hmlfqs _
    · rfl
  split
  · unfold threadAging
    split <;> exact hcounted
  · exact hcounted

theorem Listed.step {e : Event} (h : s.Listed) (hk : s.Kept)
    (hu : s.UnblocksParked (.event e none)) (hstep : s.step cfg e = some s') : s'.Listed := by
  have hrun : s.status s.running = .running := (hk.steady.run _).mpr rfl
  rcases react_cases hstep with rfl | ⟨c, -, -, -, rfl⟩ | ⟨f, rfl, hf, -, hperform⟩ |
    ⟨-, -, htimer⟩
  · exact h
  · exact h
  · intro t ht
    have hasked : (s.after cfg f).Asked _ := (hk.steady.effect hk.coded hf hu).1
    have hrunning : (s.after cfg f).running = s.running := running_effect cfg s.pop s.running f
    have hstatus : (s.after cfg f).status (s.after cfg f).running = .running := by
      rw [hrunning, status_after, if_neg fun hcon ↦ hk.steady.running_lt.ne hcon.2]
      exact hrun
    have hall : s'.allList = (s.after cfg f).allList :=
      (Prod.mk.inj (Prod.mk.inj (numbers_perform hperform)).2).2
    rw [hall, allList_after] at ht
    split at ht
    · next hdie =>
      subst hdie
      by_cases heq : t = s.running
      · exact heq ▸ hasked.dead_of_exit hperform
      · refine hasked.dead_perform hstatus hperform ?_
        exact h t fun hmem ↦ ht ((mem_erase_of_ne heq).mpr hmem)
    · refine hasked.dead_perform hstatus hperform ?_
      rw [mem_append, not_or] at ht
      rw [Dead, status_after, if_neg]
      · exact h t ht.1
      · rintro ⟨hborn, rfl⟩
        obtain ⟨code, hcode⟩ := isSome_iff_exists.mp hborn
        exact ht.2 (by simp [hcode])
  · intro t ht
    have hall : s'.allList = s.allList :=
      (Prod.mk.inj (Prod.mk.inj (hk.steady.numbers_timerInterrupt htimer)).2).2.trans
        (allList_ticked cfg s)
    rw [hall] at ht
    exact hk.steady.dead_timerInterrupt htimer (h t ht)

theorem listed_boot (value : Nat → Nat) : (boot value).Listed := by
  intro t ht
  simp only [boot, mem_cons, not_mem_nil, or_false, not_or] at ht
  exact .inl (by simp [boot, ht.1, ht.2])

/-! ## The order of the threads -/

/-- When the priorities are calculated, the threads in `ready_list` are in the order of what they
are charged with at that time, and `nice` is small enough for the calculation. -/
def Fair (s : Sched) (e : Event) : Prop :=
  e = .timer → (s.ticks + 1) % timeSlice = 0 →
    (s.queue .ready).Pairwise (fun a b ↦
      burden ((accounted { s with ticks := s.ticks + 1 }).recentCpu a) (s.nice a) ≤
        burden ((accounted { s with ticks := s.ticks + 1 }).recentCpu b) (s.nice b)) ∧
    ∀ t ∈ s.queue .ready, -2 ^ 15 ≤ s.nice t ∧ s.nice t ≤ 2 ^ 15

instance decidableFair (s : Sched) (e : Event) : Decidable (s.Fair e) :=
  inferInstanceAs (Decidable (_ → _ → _ ∧ _))

theorem forEach_const {g c : Nat → Int} {l : List Nat} (ht : t ∈ l) :
    forEach (fun t _ ↦ c t) l g t = c t := by
  induction l generalizing g with
  | nil => cases ht
  | cons a l ih =>
    change forEach (fun t _ ↦ c t) l (update g a (c a)) t = c t
    by_cases hmem : t ∈ l
    · exact ih hmem
    · obtain rfl := (mem_cons.mp ht).resolve_right hmem
      rw [forEach_of_not_mem hmem, update_self]

theorem priority_everySlice (ht : t ∈ s.allList) :
    s.everySlice.priority t = calculatedPriority (s.recentCpu t) (s.nice t) :=
  forEach_const ht

/-- What `thread_tick` does not touch before it calculates the priorities. -/
theorem accounted_frame (s : Sched) : s.accounted.ticks = s.ticks ∧
    s.accounted.priority = s.priority ∧ s.accounted.nice = s.nice ∧ s.accounted.queue = s.queue ∧
    s.accounted.allList = s.allList ∧ s.accounted.stamp = s.stamp ∧ s.accounted.clock = s.clock ∧
    s.accounted.agingTicks = s.agingTicks := by
  unfold accounted charged
  split <;> split <;> exact ⟨rfl, rfl, rfl, rfl, rfl, rfl, rfl, rfl⟩

/-- The threads are ordered by their new priorities. -/
theorem Ordered.everySlice (h : s.Ordered fifo .ready) (hfifo : ¬ fifo) (hr : s.Ranged)
    (hall : ∀ t ∈ s.queue .ready, t ∈ s.allList) (hburden : (s.queue .ready).Pairwise fun a b ↦
      burden (s.recentCpu a) (s.nice a) ≤ burden (s.recentCpu b) (s.nice b))
    (hnice : ∀ t ∈ s.queue .ready, -2 ^ 15 ≤ s.nice t ∧ s.nice t ≤ 2 ^ 15) :
    s.everySlice.Ordered fifo .ready := by
  have hpriority : ∀ t ∈ s.queue .ready,
      s.everySlice.priority t = calculatedPriority (s.recentCpu t) (s.nice t) :=
    fun t ht ↦ priority_everySlice (hall t ht)
  refine ⟨hburden.imp_of_mem fun {a b} ha hb hab ↦ ?_, h.stamped⟩
  have hle : s.everySlice.priority b ≤ s.everySlice.priority a := by
    rw [hpriority a ha, hpriority b hb]
    exact calculatedPriority_le (hr.recentCpu a) (hr.recentCpu b) (hnice a ha) (hnice b hb) hab
  exact hle.lt_or_eq.imp_right fun heq ↦ ⟨heq.symm, fun hf ↦ absurd hf hfifo⟩

theorem Ordered.mlfqsTick (h : s.Ordered fifo .ready) (hfifo : ¬ fifo) (hr : s.Ranged)
    (hall : ∀ t ∈ s.queue .ready, t ∈ s.allList) (hfair : s.ticks % timeSlice = 0 →
      (s.queue .ready).Pairwise (fun a b ↦
        burden (s.accounted.recentCpu a) (s.nice a) ≤ burden (s.accounted.recentCpu b) (s.nice b)) ∧
      ∀ t ∈ s.queue .ready, -2 ^ 15 ≤ s.nice t ∧ s.nice t ≤ 2 ^ 15) :
    s.mlfqsTick.Ordered fifo .ready := by
  obtain ⟨hticks, hpriority, hnice, hqueue, hallList, hstamp, hclock, -⟩ := accounted_frame s
  have haccounted : s.accounted.Ordered fifo .ready :=
    h.congr (congrFun hqueue _) (fun t _ ↦ congrFun hpriority t) hstamp hclock
  rw [mlfqsTick_eq]
  split
  · next htick =>
    rw [hticks] at htick
    obtain ⟨hburden, hsmall⟩ := hfair htick
    refine haccounted.everySlice hfifo hr.accounted ?_ ?_ ?_ <;>
      simpa only [hqueue, hallList, hnice]
  · exact haccounted

/-- What `thread_tick` does not touch before `thread_aging`. -/
theorem counted_frame (hmlfqs : cfg.mlfqs = true) (s : Sched) :
    (s.counted cfg).toData = s.toData ∧ (s.counted cfg).status = s.status ∧
      (s.counted cfg).queue = s.queue ∧ (s.counted cfg).running = s.running ∧
      (s.counted cfg).agingTicks = s.agingTicks ∧ ∀ t ∈ s.allList,
        (s.counted cfg).priority t = s.priority t ∨ (s.counted cfg).priority t ≤ priMax := by
  have haccounted : ∀ s : Sched, s.accounted.toData = s.toData ∧ s.accounted.status = s.status ∧
      s.accounted.queue = s.queue ∧ s.accounted.running = s.running ∧
      s.accounted.agingTicks = s.agingTicks ∧ s.accounted.priority = s.priority ∧
      s.accounted.allList = s.allList := by
    intro s
    unfold accounted charged
    split <;> split <;> exact ⟨rfl, rfl, rfl, rfl, rfl, rfl, rfl⟩
  obtain ⟨hdata, hstatus, hqueue, hrunning, haging, hpriority, hall⟩ :=
    haccounted { s with ticks := s.ticks + 1 }
  simp only [counted, hmlfqs, if_true, mlfqsTick_eq]
  split
  · refine ⟨hdata, hstatus, hqueue, hrunning, haging, fun t ht ↦ .inr ?_⟩
    refine (priority_everySlice (by rw [hall]; exact ht)).trans_le ?_
    exact (calculatedPriority_bounds _ _).2
  · exact ⟨hdata, hstatus, hqueue, hrunning, haging, fun t _ ↦ .inl (congrFun hpriority t)⟩

theorem Ordered.ticked_mlfqs (h : s.Ordered False .ready) (hmlfqs : cfg.mlfqs = true)
    (hs : s.Steady) (hr : s.Ranged) (hl : s.Listed) (hfits : cfg.ages = true → s.Fits)
    (hfair : s.Fair .timer) : (s.ticked cfg).Ordered False .ready := by
  have hall : ∀ t ∈ s.queue .ready, t ∈ s.allList := by
    intro t ht
    by_contra hnot
    exact (hl t hnot).ne_of_status (hs.place _ t ht).1 ⟨nofun, nofun⟩ rfl
  have hordered : (Sched.mlfqsTick { s with ticks := s.ticks + 1 }).Ordered False .ready :=
    Ordered.mlfqsTick (h.congr rfl (fun _ _ ↦ rfl) rfl rfl) not_false (hr.congr rfl rfl) hall
      fun htick ↦ hfair rfl htick
  have hcounted : (s.counted cfg).Ordered False .ready := by
    simp only [counted, hmlfqs, if_true]
    exact hordered.congr rfl (fun _ _ ↦ rfl) rfl rfl
  rw [ticked_eq]
  split
  · next hages =>
    obtain ⟨hdata, hstatus, hqueue, hrunning, haging, hpriority⟩ := counted_frame hmlfqs s
    have hsteady : (s.counted cfg).Steady := by
      rw [Steady, hrunning]
      exact hs.congr hstatus hqueue (congrArg Data.next hdata)
    refine hcounted.threadAging not_false hsteady hr.counted.priority fun hage t ht ↦ ?_
    rw [haging] at hage
    rw [hqueue] at ht
    rcases hpriority t (hall t ht) with heq | hle
    · rw [heq]
      exact hfits hages hage t ht
    · simp only [priMax] at hle
      omega
  · exact hcounted

/-- **The scheduler chooses the best thread.**  With `thread_mlfqs`, as long as `thread_unblock` is
called only for a thread that has called `thread_block` and the priorities are calculated for
threads that are in the right order: whenever `schedule` is called and there is a
thread in `ready_list`, `next_thread_to_run` returns one of the highest priority. -/
theorem best_thread_chosen (hmlfqs : cfg.mlfqs = true) {value : Nat → Nat} {es : List Event}
    (hmeets : Run.Meets (step cfg) (fun s e ↦ s.UnblocksParked (.event e none) ∧
      s.FitsAt cfg e ∧ s.Fair e) (boot value) es)
    (hrun : Run.run (step cfg) (boot value) es = some s) {e : Event} (hfits : s.FitsAt cfg e)
    (hfair : s.Fair e) (hcalls : s.calls cfg e = some s₁) :
    s.step cfg e = s₁.schedule none ∧ (s₁.queue .ready ≠ [] →
      (s₁.nextThreadToRun none).1 ∈ s₁.queue .ready ∧
      ∀ u ∈ s₁.queue .ready, s₁.priority u ≤ s₁.priority (s₁.nextThreadToRun none).1) := by
  obtain ⟨hk, hr, hl, ho⟩ := Run.invariant (I := fun s ↦ s.Kept ∧ s.Ranged ∧ s.Listed ∧
      s.Ordered False .ready)
    (fun s e s' ⟨hk, hr, hl, ho⟩ ⟨hu, hfits, hfair⟩ hstep ↦
      ⟨hk.step hu hstep, hr.step hk hstep, hl.step hk hu hstep,
        ho.step rfl hk hu (fun he ↦ ho.ticked_mlfqs hmlfqs hk.steady hr hl (hfits he)
          (by subst he; exact hfair)) hstep⟩)
    ⟨kept_boot value, ranged_boot value, listed_boot value, ordered_boot value .ready⟩ hmeets hrun
  refine ⟨step_of_calls hk.steady hcalls, fun hne ↦ ?_⟩
  have hordered := ho.calls rfl hk (fun he ↦ ho.ticked_mlfqs hmlfqs hk.steady hr hl (hfits he)
    (by subst he; exact hfair)) hcalls
  obtain ⟨hmem, hbest⟩ := hordered.nextThreadToRun hne
  refine ⟨hmem, fun u hu ↦ ?_⟩
  by_cases heq : u = (s₁.nextThreadToRun none).1
  · rw [heq]
  · exact (hbest u hu heq).le

/-- Two threads are created, and after the first calculation of the priorities the running thread is
about to block. -/
def firstSlice : List Event :=
  List.replicate 3 Event.go ++ Event.call (.create true 40 .thread) :: List.replicate 11 Event.go ++
    Event.call (.create true 40 .thread) :: List.replicate 11 Event.go ++
    List.replicate 5 Event.timer ++
    [Event.call .block]

/-- The running thread blocks, and the main thread is chosen, not the third one. -/
theorem best_thread_chosen_block : ∃ s s₁,
    Run.run (step ⟨false, true, false, id⟩) (boot fun _ ↦ 0) firstSlice = some s ∧
    s.calls ⟨false, true, false, id⟩ .go = some s₁ ∧ s₁.queue .ready = [initialThread, 3] ∧
    (s₁.nextThreadToRun none).1 = initialThread ∧ s₁.priority 3 ≤ s₁.priority initialThread := by
  refine Run.exists_of_view₂ (fun _ s₁ ↦ (s₁.queue .ready, (s₁.nextThreadToRun none).1))
    ([initialThread, 3], initialThread) (by decide +kernel) fun s s₁ hrun hcalls heval ↦ ?_
  obtain ⟨hready, hnext⟩ := Prod.mk.inj heval
  have hbest := ((best_thread_chosen rfl (by decide +kernel) hrun (by nofun) (by nofun) hcalls).2
    (by simp [hready])).2 3 (by simp [hready])
  rw [hnext] at hbest
  exact ⟨hready, hnext, hbest⟩

/-- A thread of priority 0 is created, and after three ticks of the main thread another one of
priority 31, which is about to block after the priorities have been calculated. -/
def overtake : List Event :=
  List.replicate 3 Event.go ++ Event.call (.create true 0 .thread) :: List.replicate 11 Event.go ++
    List.replicate 3 Event.timer ++ Event.call (.create true 31 .thread) ::
    List.replicate 11 Event.go ++
    [Event.timer, Event.call .block]

/-- The running thread blocks, and the main thread is chosen, although the second thread has a
higher priority. -/
theorem worse_thread_chosen : ∃ s s₁,
    Run.run (step ⟨false, true, false, id⟩) (boot fun _ ↦ 0) overtake = some s ∧
    s.calls ⟨false, true, false, id⟩ .go = some s₁ ∧
    ∃ u ∈ s₁.queue .ready, s₁.priority (s₁.nextThreadToRun none).1 < s₁.priority u := by
  refine Run.exists_of_view₂
    (fun _ s₁ ↦ (s₁.queue .ready, s₁.priority (s₁.nextThreadToRun none).1, s₁.priority 2))
    ([initialThread, 2], 62, 63) (by decide +kernel) fun s s₁ _ _ heval ↦ ?_
  simp only [Prod.mk.injEq] at heval
  obtain ⟨hready, hmain, htwo⟩ := heval
  exact ⟨2, by simp [hready], by rw [hmain, htwo]; decide⟩

end Sched

end Pintos
