import Pintos.Threads.Queues

/-!
# Sleeping

`timer_sleep` reads the time, and then puts the thread into `sleeping_list`, in the order of the
time at which it is to be woken.  A timer interrupt wakes threads from the front of that list, up to
the first whose time has not come.

* `Sched.Rests` — what a step does to sleeping threads is nothing, unless it is a timer interrupt or
  another thread goes to sleep.
* `Sched.Dated` — `sleeping_list` is ordered, so that a timer interrupt wakes exactly the threads
  whose time has come (`Sched.sleeping_wakeUpLoop`).
* `Sched.wakes_on_time` — from this, for every run: which interrupt wakes a thread.
-/

set_option autoImplicit false

namespace Pintos

open Function List Option

namespace Sched

variable {cfg : Config} {s s' s₁ : Sched} {t u cur : Nat} {pick : Option Nat}

/-- `timer_sleep`, which reads the time first.  The thread may be interrupted before it goes on. -/
def timerSleep (s : Sched) (ticks : Int) : Event := .call (.sleep (s.ticks + ticks))

/-! ## What leaves sleeping threads alone -/

/-- The time, `sleeping_list` and the times in it are the same. -/
structure Rests (s s' : Sched) : Prop where
  queue : s'.queue .sleeping = s.queue .sleeping
  wakeUpTick : s'.wakeUpTick = s.wakeUpTick
  ticks : s'.ticks = s.ticks

/-- A thread is ready or running. -/
def Awake (s : Sched) (t : Nat) : Prop := s.status t = .ready ∨ s.status t = .running

namespace Rests

theorem refl (s : Sched) : s.Rests s := ⟨rfl, rfl, rfl⟩

theorem trans (h : s.Rests s₁) (h' : s₁.Rests s') : s.Rests s' :=
  ⟨h'.queue.trans h.queue, h'.wakeUpTick.trans h.wakeUpTick, h'.ticks.trans h.ticks⟩

theorem of_switches (h : s.Switches s') : s.Rests s' := by
  obtain ⟨_, _, _, _, _, _, rfl⟩ := h
  exact ⟨rfl, rfl, rfl⟩

/-- A frame, other than `thread_sleep`. -/
theorem effect {f : Frame} (hf : ∀ w, f ≠ .sleep w) : s.Rests (s.effect cfg cur f).2 := by
  cases f with
  | sleep w => exact absurd rfl (hf w)
  | down σ | redown σ =>
    simp only [Sched.effect, semaDown]
    split <;> exact ⟨rfl, rfl, rfl⟩
  | up σ =>
    simp only [Sched.effect, semaUp]
    split <;> exact ⟨rfl, rfl, rfl⟩
  | _ =>
    simp only [Sched.effect]
    first | exact ⟨rfl, rfl, rfl⟩ | (split <;> exact ⟨rfl, rfl, rfl⟩)

end Rests

/-! ## Staying awake -/

namespace Awake

theorem setStatus {status : ThreadStatus} (h : s.Awake t)
    (hstatus : status = .ready ∨ status = .running) : (s.setStatus u status).Awake t := by
  by_cases htu : t = u
  · subst htu
    simpa [Awake, Sched.setStatus] using hstatus
  · simpa [Awake, Sched.setStatus, htu] using h

theorem threadUnblock (h : s.Awake t) (hs : s.threadUnblock u = some s') : s'.Awake t := by
  obtain rfl := eq_of_threadUnblock hs
  have hinsert : (s.insert .ready u).Awake t := h
  exact hinsert.setStatus (.inl rfl)

/-- The thread that `thread_unblock` is called for. -/
theorem of_threadUnblock (hs : s.threadUnblock t = some s') : s'.Awake t := by
  obtain rfl := eq_of_threadUnblock hs
  exact .inl (update_self ..)

/-- Nobody falls asleep because the running thread yields. -/
theorem threadYield (h : s.Awake t) (hs : s.threadYield pick = some s') : s'.Awake t := by
  have hready : ∀ s₁ : Sched, s₁.Awake t → s₁.schedule pick = some s' → s'.Awake t := by
    intro s₁ h1 hs
    obtain rfl := eq_of_schedule hs
    have hswitch : ((s₁.nextThreadToRun pick).2.switchTo (s₁.nextThreadToRun pick).1).Awake t := by
      rcases s₁.nextThreadToRun_cases pick with ⟨u, -, heq⟩ | ⟨-, heq⟩ <;> rw [heq]
      · have hremove : (s₁.remove .ready u).Awake t := h1
        exact hremove.setStatus (.inr rfl)
      · exact h1.setStatus (.inr rfl)
    unfold threadScheduleTail
    split
    · next hdying =>
      have htu : t ≠ s₁.running := by
        rintro rfl
        rcases hswitch with h | h <;> rw [h] at hdying <;> cases hdying.2.1
      simpa [Awake, Sched.setStatus, htu] using hswitch
    · exact hswitch
  unfold Sched.threadYield at hs
  dsimp only at hs
  split at hs
  · exact hready _ (h.setStatus (.inl rfl)) hs
  · have hinsert : (s.insert .ready s.running).Awake t := h
    exact hready _ (hinsert.setStatus (.inl rfl)) hs

end Awake

/-! ## The timer -/

/-- `sleeping_list` is ordered by the time at which the threads are to be woken. -/
def Dated (s : Sched) : Prop :=
  (s.queue .sleeping).Pairwise fun a b ↦ s.wakeUpTick a ≤ s.wakeUpTick b

theorem Dated.rests (h : s.Dated) (hr : s.Rests s') : s'.Dated := by
  rw [Dated, hr.queue, hr.wakeUpTick]
  exact h

/-- `list_insert_ordered`, with `cmp_sleeping_thread`. -/
theorem pairwise_orderedInsert {f : Nat → Int} {l : List Nat}
    (h : l.Pairwise fun a b ↦ f a ≤ f b) (t : Nat) :
    (l.orderedInsert (fun a b ↦ decide (f a < f b) = true) t).Pairwise fun a b ↦ f a ≤ f b := by
  induction l with
  | nil => exact pairwise_singleton _ t
  | cons b l ih =>
    obtain ⟨hb, hl⟩ := pairwise_cons.mp h
    rw [orderedInsert]
    split
    · next hlt =>
      have hlt : f t < f b := of_decide_eq_true hlt
      refine pairwise_cons.mpr ⟨fun c hc ↦ ?_, h⟩
      rcases mem_cons.mp hc with rfl | hc
      · exact Int.le_of_lt hlt
      · exact Int.le_of_lt (Int.lt_of_lt_of_le hlt (hb c hc))
    · next hle =>
      have hle : f b ≤ f t := Int.not_lt.mp fun hlt ↦ hle (decide_eq_true hlt)
      refine pairwise_cons.mpr ⟨fun c hc ↦ ?_, ih hl⟩
      rcases (mem_orderedInsert _).mp hc with rfl | hc
      · exact hle
      · exact hb c hc

/-- A thread goes to sleep. -/
theorem Dated.sleep {w : Int} (h : s.Dated) (hno : t ∉ s.queue .sleeping) :
    ({ s with wakeUpTick := update s.wakeUpTick t w }.insert .sleeping t).Dated := by
  have hold : (s.queue .sleeping).Pairwise fun a b ↦
      update s.wakeUpTick t w a ≤ update s.wakeUpTick t w b := by
    refine Pairwise.imp_of_mem (fun {a b} ha hb hab ↦ ?_) h
    have hat : a ≠ t := fun heq ↦ hno (heq ▸ ha)
    have hbt : b ≠ t := fun heq ↦ hno (heq ▸ hb)
    rwa [update_of_ne hat, update_of_ne hbt]
  rw [Dated, queue_insert, update_self]
  exact pairwise_orderedInsert hold t

/-- **`thread_wake_up` wakes the threads whose time has come, and no others.** -/
theorem sleeping_wakeUpLoop {now : Int} {l : List Nat} (h : s.Steady) (hl : s.queue .sleeping = l)
    (hd : s.Dated) (hrun : wakeUpLoop now l s = some s') :
    s'.wakeUpTick = s.wakeUpTick ∧ s'.ticks = s.ticks ∧ (s'.queue .sleeping).Sublist l ∧
    (∀ t, t ∈ s'.queue .sleeping ↔ t ∈ l ∧ now < s.wakeUpTick t) ∧
    (∀ t ∈ l, s.wakeUpTick t ≤ now → s'.Awake t) ∧ ∀ t, s.Awake t → s'.Awake t := by
  induction l generalizing s with
  | nil =>
    obtain rfl := some.inj hrun
    exact ⟨rfl, rfl, hl ▸ Sublist.refl _, by simp [hl], by simp, fun _ h ↦ h⟩
  | cons t rest ih =>
    have hcons := hd
    rw [Dated, hl, pairwise_cons] at hcons
    unfold wakeUpLoop at hrun
    split at hrun
    · next hlt =>
      obtain rfl := some.inj hrun
      refine ⟨rfl, rfl, hl ▸ Sublist.refl _, fun u ↦ ?_, fun u hu hle ↦ ?_, fun _ h ↦ h⟩
      · rw [hl]
        refine ⟨fun hu ↦ ⟨hu, ?_⟩, And.left⟩
        rcases mem_cons.mp hu with rfl | hu
        · exact hlt
        · exact Int.lt_of_lt_of_le hlt (hcons.1 u hu)
      · rcases mem_cons.mp hu with rfl | hu
        · omega
        · have := hcons.1 u hu
          omega
    · next hle =>
      obtain ⟨s₁, h1, hrun⟩ := bind_eq_some_iff.mp hrun
      have ht : t ∈ s.queue .sleeping := hl ▸ mem_cons_self
      have hrest : (s.remove .sleeping t).queue .sleeping = rest := by simp [hl]
      have hr := Rests.of_switches (.threadUnblock h1)
      have hs1 : s₁.Steady := ((h.asked_unblock ht (by rintro ⟨⟩)).perform none).of_eq h1
      have hd1 : s₁.Dated := by
        rw [Dated, hr.queue, hr.wakeUpTick, hrest]
        exact hcons.2
      obtain ⟨hw, hticks, hsub, hmem, hwake, hawake⟩ := ih hs1 (hr.queue.trans hrest) hd1 hrun
      have hw1 : s₁.wakeUpTick = s.wakeUpTick := hr.wakeUpTick
      refine ⟨hw.trans hw1, hticks.trans hr.ticks, hsub.cons t, fun u ↦ ?_, fun u hu hdue ↦ ?_,
        fun u (hu : (s.remove .sleeping t).Awake u) ↦ hawake u (hu.threadUnblock h1)⟩
      · rw [hmem, hw1, mem_cons]
        constructor
        · rintro ⟨hu, hlt⟩
          exact ⟨.inr hu, hlt⟩
        · rintro ⟨rfl | hu, hlt⟩
          · exact absurd hlt hle
          · exact ⟨hu, hlt⟩
      · rcases mem_cons.mp hu with rfl | hu
        · exact hawake u (Awake.of_threadUnblock h1)
        · exact hwake u hu (hw1 ▸ hdue)

/-- **The timer interrupt** wakes the threads whose time has come, and no others. -/
theorem sleeping_timerInterrupt (h : s.Steady) (hd : s.Dated)
    (htimer : s.timerInterrupt cfg pick = some s') :
    s'.Dated ∧ s'.wakeUpTick = s.wakeUpTick ∧ s'.ticks = s.ticks + 1 ∧
    (∀ t, t ∈ s'.queue .sleeping ↔ t ∈ s.queue .sleeping ∧ (s'.ticks : Int) < s.wakeUpTick t) ∧
    ∀ t ∈ s.queue .sleeping, s.wakeUpTick t ≤ s'.ticks → s'.Awake t := by
  obtain ⟨-, -, hqueue, -⟩ := ticked_frame cfg s
  obtain ⟨hw, hticks⟩ := wakeUpTick_ticked cfg s
  have hd' : (s.ticked cfg).Dated := by
    rw [Dated, hqueue, hw]
    exact hd
  obtain ⟨s₁, h1, hend⟩ := timerInterrupt_cases htimer
  obtain ⟨hw1, hticks1, hsub, hmem, hwake, -⟩ := sleeping_wakeUpLoop h.ticked rfl hd' h1
  rw [hqueue, hw, hticks] at hmem hwake
  rw [hw] at hw1
  rw [hticks] at hticks1
  have hd1 : s₁.Dated := by
    rw [Dated, hw1]
    exact hd.sublist (hqueue ▸ hsub)
  obtain ⟨hr, hawake⟩ : s₁.Rests s' ∧ ∀ t, s₁.Awake t → s'.Awake t := by
    rcases hend with ⟨-, hyield⟩ | ⟨-, rfl⟩
    · exact ⟨.of_switches (.threadYield hyield), fun t ht ↦ ht.threadYield hyield⟩
    · exact ⟨.refl _, fun _ ↦ id⟩
  have hnow : s'.ticks = s.ticks + 1 := hr.ticks.trans hticks1
  refine ⟨hd1.rests hr, hr.wakeUpTick.trans hw1, hnow, fun t ↦ ?_, fun t ht hdue ↦ ?_⟩
  · rw [hr.queue, hmem, hnow]
  · exact hawake t (hwake t ht (hnow ▸ hdue))

/-! ## Steps -/

/-- What one step does to the threads that sleep. -/
theorem sleeping_step {a : FreeAct} (h : s.Kept) (hd : s.Dated)
    (hstep : s.freeStep cfg a = some s') : s.Rests s' ∨
    (∃ w, s.Next (.sleep w) ∧ s'.ticks = s.ticks ∧
      s'.wakeUpTick = update s.wakeUpTick s.running w ∧ s'.Dated ∧
      ∀ t, t ∈ s'.queue .sleeping ↔ t = s.running ∨ t ∈ s.queue .sleeping) ∨
    ((∃ pick, a = .event .timer pick) ∧ s'.Dated ∧ s'.wakeUpTick = s.wakeUpTick ∧
      s'.ticks = s.ticks + 1 ∧
      (∀ t, t ∈ s'.queue .sleeping ↔ t ∈ s.queue .sleeping ∧ (s'.ticks : Int) < s.wakeUpTick t) ∧
      ∀ t ∈ s.queue .sleeping, s.wakeUpTick t ≤ s'.ticks → s'.Awake t) := by
  cases a with
  | preempt pick =>
    simp only [freeStep] at hstep
    split at hstep
    · exact .inl (some.inj hstep ▸ .refl s)
    · exact .inl (.of_switches (.threadYield hstep))
  | event e pick =>
    rcases react_cases hstep with rfl | ⟨c, -, -, -, rfl⟩ | ⟨f, -, hf, -, hperform⟩ |
      ⟨rfl, -, htimer⟩
    · exact .inl (.refl _)
    · exact .inl ⟨rfl, rfl, rfl⟩
    · have hr := Rests.of_switches (.perform hperform)
      by_cases hsleep : ∃ w, f = .sleep w
      · obtain ⟨w, rfl⟩ := hsleep
        have hpop : s.pop.Dated := hd
        have hafter : (s.after cfg (.sleep w)).Dated := hpop.sleep (h.steady.not_mem .sleeping)
        refine .inr (.inl ⟨w, hf, hr.ticks, hr.wakeUpTick, hafter.rests hr, fun t ↦ ?_⟩)
        rw [hr.queue, after, effect, queue_insert, update_self, mem_orderedInsert]
        rfl
      · have hpop : s.Rests s.pop := ⟨rfl, rfl, rfl⟩
        have heffect : s.pop.Rests (s.after cfg f) := .effect fun w hw ↦ hsleep ⟨w, hw⟩
        exact .inl (hpop.trans (heffect.trans hr))
    · exact .inr (.inr ⟨⟨pick, rfl⟩, sleeping_timerInterrupt h.steady hd htimer⟩)

theorem Dated.step {a : FreeAct} (h : s.Kept) (hd : s.Dated)
    (hstep : s.freeStep cfg a = some s') : s'.Dated := by
  rcases sleeping_step h hd hstep with hr | ⟨w, -, -, -, hd', -⟩ | ⟨-, hd', -⟩
  · exact hd.rests hr
  · exact hd'
  · exact hd'

/-- The time does not run backwards. -/
theorem ticks_le_of_run {as : List FreeAct} (h : s.Kept) (hd : s.Dated)
    (hparked : Run.Meets (freeStep cfg) UnblocksParked s as)
    (hrun : Run.run (freeStep cfg) s as = some s') : s.ticks ≤ s'.ticks := by
  refine (Run.invariant (I := fun s₁ ↦ (s₁.Kept ∧ s₁.Dated) ∧ s.ticks ≤ s₁.ticks)
    (fun s₁ a s2 h1 hu hstep ↦ ?_) ⟨⟨h, hd⟩, Nat.le_refl _⟩ hparked hrun).2
  obtain ⟨⟨h1, hd1⟩, hle⟩ := h1
  refine ⟨⟨h1.step hu hstep, hd1.step h1 hstep⟩, ?_⟩
  rcases sleeping_step h1 hd1 hstep with hr | ⟨w, -, hticks, -⟩ | ⟨-, -, -, hticks, -⟩
  · exact hr.ticks ▸ hle
  · exact hticks ▸ hle
  · omega

/-- A thread sleeps on, with the same time, or it is woken by a timer interrupt that is due. -/
theorem Dated.step_cases {a : FreeAct} (h : s.Kept) (hd : s.Dated) (ht : t ∈ s.queue .sleeping)
    (hstep : s.freeStep cfg a = some s') :
    (t ∈ s'.queue .sleeping ∧ s'.wakeUpTick t = s.wakeUpTick t ∧
      (s'.ticks = s.ticks ∨ (s'.ticks = s.ticks + 1 ∧ (s'.ticks : Int) < s.wakeUpTick t))) ∨
    (t ∉ s'.queue .sleeping ∧ (∃ pick, a = .event .timer pick) ∧ s'.ticks = s.ticks + 1 ∧
      s.wakeUpTick t ≤ s'.ticks ∧ s'.Awake t) := by
  rcases sleeping_step h hd hstep with hr | ⟨w, -, hticks, hw, -, hmem⟩ |
    ⟨htimer, -, hw, hticks, hmem, hwake⟩
  · exact .inl ⟨hr.queue ▸ ht, congrFun hr.wakeUpTick t, .inl hr.ticks⟩
  · have hne : t ≠ s.running := fun heq ↦ h.steady.not_mem _ (heq ▸ ht)
    refine .inl ⟨(hmem t).mpr (.inr ht), ?_, .inl hticks⟩
    rw [hw, update_of_ne hne]
  · by_cases hdue : s.wakeUpTick t ≤ s'.ticks
    · refine .inr ⟨fun hin ↦ ?_, htimer, hticks, hdue, hwake t ht hdue⟩
      exact absurd ((hmem t).mp hin).2 (Int.not_lt.mpr hdue)
    · have hlt := Int.not_le.mp hdue
      exact .inl ⟨(hmem t).mpr ⟨ht, hlt⟩, congrFun hw t, .inr ⟨hticks, hlt⟩⟩

/-! ## Runs -/

/-- **A thread is woken by the first timer interrupt that is due**, and until then it is asleep. -/
theorem woken_of_run {as : List FreeAct} (h : s.Kept) (hd : s.Dated) (ht : t ∈ s.queue .sleeping)
    (hparked : Run.Meets (freeStep cfg) UnblocksParked s as)
    (hrun : Run.run (freeStep cfg) s as = some s') :
    ((s'.ticks = s.ticks ∨ (s'.ticks : Int) < s.wakeUpTick t) →
      t ∈ s'.queue .sleeping ∧ s'.wakeUpTick t = s.wakeUpTick t) ∧
    (s.ticks < s'.ticks → s.wakeUpTick t ≤ s'.ticks →
      ∃ pre pick post s₁ s2, as = pre ++ .event .timer pick :: post ∧
        Run.run (freeStep cfg) s pre = some s₁ ∧ s₁.freeStep cfg (.event .timer pick) = some s2 ∧
        Run.run (freeStep cfg) s2 post = some s' ∧
        t ∈ s₁.queue .sleeping ∧ (s₁.ticks = s.ticks ∨ (s₁.ticks : Int) < s.wakeUpTick t) ∧
        s2.ticks = s₁.ticks + 1 ∧ s.wakeUpTick t ≤ s2.ticks ∧
        t ∉ s2.queue .sleeping ∧ s2.Awake t) := by
  induction as generalizing s with
  | nil =>
    obtain rfl := some.inj hrun
    exact ⟨fun _ ↦ ⟨ht, rfl⟩, fun hlt ↦ absurd hlt (Nat.lt_irrefl _)⟩
  | cons a as ih =>
    obtain ⟨s₁, hstep, hrest⟩ := Run.run_cons.mp hrun
    have hk1 := h.step hparked.1 hstep
    have hd1 := hd.step h hstep
    have hparked1 := hparked.2 s₁ hstep
    have hle := ticks_le_of_run hk1 hd1 hparked1 hrest
    rcases hd.step_cases h ht hstep with ⟨ht1, hw, hticks⟩ |
      ⟨hno, ⟨pick, rfl⟩, hticks, hdue, hawake⟩
    · obtain ⟨hasleep, hwoken⟩ := ih hk1 hd1 ht1 hparked1 hrest
      rw [hw] at hasleep hwoken
      refine ⟨fun hearly ↦ hasleep (by omega), fun hlt hdue ↦ ?_⟩
      have hlt1 : s₁.ticks < s'.ticks := by omega
      obtain ⟨pre, pick, post, m, m', rfl, hpre, htimer, hpost, hm, hbefore, hafter⟩ :=
        hwoken hlt1 hdue
      have hbefore' : m.ticks = s.ticks ∨ (m.ticks : Int) < s.wakeUpTick t := by
        clear hwoken
        omega
      exact ⟨a :: pre, pick, post, m, m', rfl, Run.run_cons.mpr ⟨s₁, hstep, hpre⟩, htimer, hpost,
        hm, hbefore', hafter⟩
    · refine ⟨fun hearly ↦ absurd hearly (by omega), fun _ _ ↦ ?_⟩
      exact ⟨[], pick, as, s, s₁, rfl, rfl, hstep, hrest, ht, .inl rfl, hticks, hdue, hno,
        hawake⟩

/-- **Sleeping threads wake on time.**  Whatever the threads do, as long as they call
`thread_unblock` only for a thread that has called `thread_block`, and whichever thread the
scheduler chooses: `sleeping_list` is ordered, and a thread is in it once.  A thread that has called
`timer_sleep` gets into it with the time that was read then, plus the number of ticks.  From any
time that a thread is in it, it stays there, and is blocked, until the first timer interrupt at
which its time has come, and that one makes it ready. -/
theorem wakes_on_time {value : Nat → Nat} {as : List FreeAct}
    (hparked : Run.Meets (freeStep cfg) UnblocksParked (boot value) as)
    (hrun : Run.run (freeStep cfg) (boot value) as = some s) : s.Dated ∧ (s.queue .sleeping).Nodup ∧
    (∀ ticks pick, s.code s.running = [] → s.running ≠ idleThread →
      s.freeStep cfg (.event (s.timerSleep ticks) pick) =
        some (s.push s.running [.sleep (s.ticks + ticks)])) ∧
    (∀ w pick s', (s.code s.running).head? = some (.sleep w) →
      s.freeStep cfg (.event .go pick) = some s' →
      s.running ∈ s'.queue .sleeping ∧ s'.wakeUpTick s.running = w ∧ s'.ticks = s.ticks) ∧
    ∀ t ∈ s.queue .sleeping, ∀ as' s', Run.Meets (freeStep cfg) UnblocksParked s as' →
      Run.run (freeStep cfg) s as' = some s' →
      ((s'.ticks = s.ticks ∨ (s'.ticks : Int) < s.wakeUpTick t) →
        t ∈ s'.queue .sleeping ∧ s'.status t = .blocked ∧ s'.wakeUpTick t = s.wakeUpTick t) ∧
      (s.ticks < s'.ticks → s.wakeUpTick t ≤ s'.ticks →
        ∃ pre pick post s₁ s₂, as' = pre ++ .event .timer pick :: post ∧
          Run.run (freeStep cfg) s pre = some s₁ ∧ s₁.freeStep cfg (.event .timer pick) = some s₂ ∧
          Run.run (freeStep cfg) s₂ post = some s' ∧
          t ∈ s₁.queue .sleeping ∧ (s₁.ticks = s.ticks ∨ (s₁.ticks : Int) < s.wakeUpTick t) ∧
          s₂.ticks = s₁.ticks + 1 ∧ s.wakeUpTick t ≤ s₂.ticks ∧
          t ∉ s₂.queue .sleeping ∧ s₂.Awake t) := by
  have hboot : (boot value).Dated := Pairwise.nil
  obtain ⟨hk, hd⟩ := Run.invariant (I := fun s₁ ↦ s₁.Kept ∧ s₁.Dated)
    (fun _ _ _ h hu hstep ↦ ⟨h.1.step hu hstep, h.2.step h.1 hstep⟩) ⟨kept_boot value, hboot⟩
    hparked hrun
  refine ⟨hd, hk.steady.nodup _, fun ticks pick hcode hidle ↦ ?_, fun w pick s' hf hstep ↦ ?_,
    fun t ht as' s' hparked' hrun' ↦ ?_⟩
  · simp only [freeStep, timerSleep, react]
    rw [if_pos ⟨hcode, fun heq ↦ absurd heq hidle⟩]
    rfl
  · obtain ⟨-, hperform⟩ := freeStep_go hf hstep
    have hr := Rests.of_switches (.perform hperform)
    refine ⟨?_, ?_, hr.ticks⟩
    · rw [hr.queue, after, effect, queue_insert, update_self]
      exact (mem_orderedInsert _).mpr (.inl rfl)
    · rw [hr.wakeUpTick]
      exact update_self ..
  · obtain ⟨hasleep, hwoken⟩ := woken_of_run hk hd ht hparked' hrun'
    refine ⟨fun hearly ↦ ?_, hwoken⟩
    obtain ⟨ht', hw⟩ := hasleep hearly
    exact ⟨ht', ((hk.of_run hparked' hrun').steady.place _ t ht').1, hw⟩

/-- The main thread starts, and sleeps for two ticks; it is interrupted after it has read the
time. -/
def doze : List FreeAct :=
  [FreeAct.event .go none, FreeAct.event (.call .block) none, FreeAct.event .go none,
    FreeAct.event .go none, FreeAct.event (.call (.sleep 2)) none, FreeAct.event .timer none,
    FreeAct.event .go none]

/-- The next timer interrupt wakes the main thread. -/
theorem wakes_on_time_doze :
    ∃ s s', Run.run (freeStep ⟨true, false, false, id⟩) (boot fun _ ↦ 0) doze = some s ∧
      s.queue .sleeping = [initialThread] ∧
      Run.run (freeStep ⟨true, false, false, id⟩) s [FreeAct.event .timer none] = some s' ∧
      ∃ s₁ s₂ : Sched, initialThread ∈ s₁.queue .sleeping ∧ s₁.ticks < 2 ∧ 2 ≤ s₂.ticks ∧
        s₂.Awake initialThread := by
  have heval : (Run.run (freeStep ⟨true, false, false, id⟩) (boot fun _ ↦ 0) doze).map
      (fun s ↦ (s.queue .sleeping, s.wakeUpTick initialThread, s.ticks)) =
      some ([initialThread], 2, 1) := by decide +kernel
  have heval' : (Run.run (freeStep ⟨true, false, false, id⟩) (boot fun _ ↦ 0)
      (doze ++ [FreeAct.event .timer none])).map (fun s ↦ s.ticks) = some 2 := by decide +kernel
  obtain ⟨s, hrun, heval⟩ := map_eq_some_iff.mp heval
  obtain ⟨s', hrun', hticks'⟩ := map_eq_some_iff.mp heval'
  obtain ⟨m, hm, hlast⟩ := Run.run_append.mp hrun'
  obtain rfl : m = s := some.inj (hm.symm.trans hrun)
  simp only [Prod.mk.injEq] at heval
  obtain ⟨hsleeping, hw, hticks⟩ := heval
  have ht : initialThread ∈ m.queue .sleeping := hsleeping ▸ mem_singleton_self _
  obtain ⟨-, pick, -, s₁, s₂, -, -, -, -, h₁, hbefore, -, hdue, -, hawake⟩ :=
    ((wakes_on_time (by decide +kernel) hrun).2.2.2.2 initialThread ht _ s'
      (by exact ⟨trivial, fun _ _ ↦ trivial⟩) hlast).2 (by omega) (by omega)
  exact ⟨m, s', hrun, hsleeping, hlast, s₁, s₂, h₁, by omega, by omega, hawake⟩

end Sched

end Pintos
