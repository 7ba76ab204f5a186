import Pintos.Threads.Places
import Pintos.Threads.Frames

/-!
# Thread states and the lists

Every frame keeps the threads placed, up to what it asks of the scheduler (`Sched.Steady.exec`), so
that status and lists agree between any two steps.
-/

set_option autoImplicit false

namespace Pintos

open Function List Option

/-- The thread that a frame is still to unblock for the first time. -/
def Frame.embryo : Frame → Option Nat
  | .allocateTid t _ | .launch t => some t
  | _ => none

/-- What the idle thread does. -/
def Frame.idle : Frame → Bool
  | .yield | .block | .up _ => true
  | _ => false

/-- The thread that a frame unblocks because its thread has called `thread_unblock`. -/
def Frame.unblocks : Frame → Option Nat
  | .unblock t => some t
  | _ => none

theorem ThreadCall.embryo_code (c : ThreadCall) : c.code.filterMap Frame.embryo = [] := by
  cases c <;> first | rfl | (simp only [ThreadCall.code]; split <;> rfl)

variable {f : Frame}

namespace Sched

variable {cfg : Config} {s s' s₁ : Sched} {q q' : Queue} {t u cur : Nat} {run : Option Nat}

/-! ## Frames -/

/-- If a thread calls `thread_unblock` itself, the other one has called `thread_block` itself: it
does not wait for a semaphore or for the timer, and it is not the idle thread, or a new one. -/
def UnblocksParked (s : Sched) : FreeAct → Prop
  | .event .go _ => ∀ t ∈ (s.code s.running).head?.bind Frame.unblocks, t ∈ s.queue .parked
  | _ => True

instance (s : Sched) (a : FreeAct) : Decidable (s.UnblocksParked a) := by
  unfold UnblocksParked
  split <;> infer_instance

/-- A new thread is unblocked once, by the thread that has created it; and the idle thread does not
do anything but its loop. -/
structure Coded (s : Sched) : Prop where
  embryo : ∀ t, ∀ n ∈ (s.code t).filterMap Frame.embryo, n ∈ s.queue .embryo ∧ s.parent n = some t
  once : ∀ t, ((s.code t).filterMap Frame.embryo).Nodup
  idle : ∀ f ∈ s.code idleThread, f.idle = true

/-- A frame is replaced by others. -/
theorem Coded.replace (h : s.Coded) (hf : (s.code cur).head? = some f)
    (new : List Frame) (hcode : s₁.code = update s.code cur (new ++ (s.code cur).tail))
    (hqueue : ∀ n ∈ s.queue .embryo, n ∈ s₁.queue .embryo) (hparent : s₁.parent = s.parent)
    (hnew : new.filterMap Frame.embryo = f.embryo.toList)
    (hidle : f.idle = true → ∀ g ∈ new, g.idle = true) : s₁.Coded := by
  have hcons : s.code cur = f :: (s.code cur).tail := (cons_head?_tail hf).symm
  have hpending : ∀ t, (s₁.code t).filterMap Frame.embryo = (s.code t).filterMap Frame.embryo := by
    intro t
    by_cases ht : t = cur
    · subst ht
      rw [hcode, update_self, filterMap_append, hnew]
      conv_rhs => rw [hcons]
      cases hemb : f.embryo <;> simp [hemb]
    · rw [hcode, update_of_ne ht]
  refine ⟨fun t n hn ↦ ?_, fun t ↦ hpending t ▸ h.once t, fun g hg ↦ ?_⟩
  · rw [hpending] at hn
    exact ⟨hqueue n (h.embryo t n hn).1, hparent ▸ (h.embryo t n hn).2⟩
  · by_cases ht : idleThread = cur
    · subst ht
      rw [hcode, update_self] at hg
      rcases mem_append.mp hg with hg | hg
      · exact hidle (h.idle f (hcons ▸ mem_cons_self)) g hg
      · exact h.idle g (mem_of_mem_tail hg)
    · rw [hcode, update_of_ne ht] at hg
      exact h.idle g hg

theorem code_push_pop (s : Sched) (new : List Frame) : (s.pop.push s.running new).code =
    update s.code s.running (new ++ (s.code s.running).tail) := by
  simp [push, pop]

/-- A frame that the idle thread does not have is another thread's. -/
theorem Coded.running_ne_idle (h : s.Coded) (hf : s.Next f) (hidle : f.idle = false) :
    s.running ≠ idleThread := by
  intro heq
  have hmem : f ∈ s.code idleThread := heq ▸ mem_of_mem_head? hf
  rw [h.idle f hmem] at hidle
  cases hidle

section

variable {f : Frame} {request : Request}

/-- A frame that leaves the lists alone. -/
theorem Steady.stay (h : s.Steady) (hc : s.Coded) (hf : s.Next f) (new : List Frame)
    (hcode : s₁.code = update s.code s.running (new ++ (s.code s.running).tail))
    (hstatus : s₁.status = s.status) (hqueue : s₁.queue = s.queue) (hnext : s₁.next = s.next)
    (hrunning : s₁.running = s.running) (hparent : s₁.parent = s.parent)
    (hnew : new.filterMap Frame.embryo = f.embryo.toList)
    (hidle : f.idle = true → ∀ g ∈ new, g.idle = true) : s₁.Asked .stay ∧ s₁.Coded := by
  refine ⟨?_, hc.replace hf new hcode (by rw [hqueue]; exact fun _ hn ↦ hn) hparent hnew hidle⟩
  rw [Asked, Steady, hrunning]
  exact h.congr hstatus hqueue hnext

theorem Steady.semaDown {σ : SemaId} (h : s.Steady) (hc : s.Coded)
    (hf : s.Next f) (hidle : f.idle = false) (hembryo : f.embryo = none) :
    (s.pop.semaDown s.running σ).2.Asked (s.pop.semaDown s.running σ).1 ∧
      (s.pop.semaDown s.running σ).2.Coded := by
  have hpush : (s.pop.push s.running [.redown σ]).Steady := h.congr rfl rfl rfl
  have hnot : f.idle = true → False := by simp [hidle]
  unfold Sched.semaDown
  split
  · refine ⟨hpush.asked_block (hc.running_ne_idle hf hidle) rfl, ?_⟩
    refine hc.replace hf _ (s.code_push_pop _) (fun _ hn ↦ mem_insert.mpr (.inl hn)) rfl ?_
      fun hcon ↦ (hnot hcon).elim
    rw [hembryo]
    rfl
  · refine h.stay hc hf [] rfl rfl rfl rfl rfl rfl ?_ fun hcon ↦ (hnot hcon).elim
    rw [hembryo]
    rfl

/-- `sema_up`, and what comes after it. -/
theorem Steady.semaUp {σ : SemaId} (h : s.Steady) (hc : s.Coded) (new : List Frame)
    (hf : s.Next (.up σ)) (hnew : new = [] ∨ new = [.yield]) :
    ((s.pop.semaUp σ).2.push s.running new).Asked (s.pop.semaUp σ).1 ∧
      ((s.pop.semaUp σ).2.push s.running new).Coded := by
  have hembryo : new.filterMap Frame.embryo = (Frame.up σ).embryo.toList := by
    rcases hnew with rfl | rfl <;> rfl
  have hidle : ∀ g ∈ new, g.idle = true := by
    rcases hnew with rfl | rfl <;> simp [Frame.idle]
  have hpush : (s.pop.push s.running new).Steady := h.congr rfl rfl rfl
  unfold Sched.semaUp
  split
  · exact ⟨h.congr rfl rfl rfl, hc.replace hf _ (s.code_push_pop _) (fun _ hn ↦ hn) rfl hembryo
      fun _ ↦ hidle⟩
  · next t rest heq =>
    have ht : t ∈ s.queue (.waiters σ) := heq ▸ mem_cons_self
    obtain ⟨hsteady, hno, hne, hblocked⟩ := hpush.asked_unblock ht nofun
    refine ⟨⟨hsteady.congr rfl rfl rfl, hno, hne, hblocked⟩, ?_⟩
    refine hc.replace hf _ (s.code_push_pop _) (fun n hn ↦ ?_) rfl hembryo fun _ ↦ hidle
    have hmem : n ∈ (s.pop.remove (.waiters σ) t).queue .embryo := mem_remove_of_ne nofun hn
    exact hmem

/-- A new thread. -/
theorem Steady.initThread {priority : Int} {entry : Entry} {exec : Bool} (h : s.Steady)
    (hc : s.Coded) (hf : s.Next (.initThread priority entry exec)) :
    ((s.pop.initThread priority entry).push s.running
        [.acquire .tid, .allocateTid s.next exec]).Steady ∧
      ((s.pop.initThread priority entry).push s.running
        [.acquire .tid, .allocateTid s.next exec]).Coded := by
  have hgone : s.status s.next = .gone := h.fresh _ (Nat.le_refl _)
  have hrun : s.running ≠ s.next := by
    intro heq
    have := (h.run _).mpr rfl
    rw [heq, hgone] at this
    cases this
  have hidle : s.next ≠ idleThread := fun heq ↦ h.idle.1 (heq ▸ hgone)
  have hno : ∀ q, s.next ∉ s.queue q := by
    intro q hmem
    have hplace := (h.place q _ hmem).1
    rw [hgone] at hplace
    cases q <;> cases hplace
  have hself : ∀ u, u = s.next → ((s.pop.initThread priority entry).push s.running
      [.acquire .tid, .allocateTid s.next exec]).status u = .blocked :=
    fun u hu ↦ by subst hu; exact update_self ..
  have hother : ∀ u, u ≠ s.next → ((s.pop.initThread priority entry).push s.running
      [.acquire .tid, .allocateTid s.next exec]).status u = s.status u :=
    fun u hu ↦ update_of_ne hu ..
  constructor
  · refine h.relocate s.next (some .embryo) hother (fun q u hu ↦ ?_)
      (fun q ↦ ?_) (fun q ↦ nodup_insert (h.nodup q) (hno _)) (fun u ↦ ?_) ?_ ?_
      (fun heq ↦ absurd heq hidle) fun u hu ↦ ?_
    · exact mem_insert.trans (or_iff_left fun hcon ↦ hu hcon.2)
    · refine mem_insert.trans ?_
      simp [Sched.pop, hno q, eq_comm]
    · by_cases hu : u = s.next
      · rw [hself u hu]
        exact iff_of_false (by rintro ⟨⟩) fun heq ↦ hrun ((some.inj heq).trans hu)
      · rw [hother u hu]
        exact h.run u
    · rintro _ ⟨⟩
      exact ⟨hself _ rfl, hidle⟩
    · rw [hself _ rfl]
      rintro ⟨⟩
    · have hlt : s.next + 1 ≤ u := hu
      rw [hother u (by omega)]
      exact h.fresh u (by omega)
  · have hcode : ∀ u, ((s.pop.initThread priority entry).push s.running
        [.acquire .tid, .allocateTid s.next exec]).code u =
        if u = s.running then .acquire .tid :: .allocateTid s.next exec :: (s.code s.running).tail
        else if u = s.next then entry.code else s.code u := by
      intro u
      by_cases hu : u = s.running
      · simp [hu, Sched.initThread, hrun, Sched.pop]
      · by_cases hu' : u = s.next <;> simp [hu, hu', Sched.initThread, Sched.pop, Ne.symm hrun]
    have hpending : (s.code s.running).filterMap Frame.embryo =
        (s.code s.running).tail.filterMap Frame.embryo := by
      conv_lhs => rw [← cons_head?_tail hf]
      rfl
    have hne : ∀ {u n}, n ∈ (s.code u).filterMap Frame.embryo → n ≠ s.next := by
      rintro u n hn rfl
      exact hno _ (hc.embryo u _ hn).1
    have hentry : entry.code.filterMap Frame.embryo = [] := by cases entry <;> rfl
    have hold : ∀ {u n}, n ∈ (s.code u).filterMap Frame.embryo →
        n ∈ (s.pop.initThread priority entry).queue .embryo ∧
          (s.pop.initThread priority entry).parent n = some u := by
      intro u n hn
      obtain ⟨hmem, hparent⟩ := hc.embryo u n hn
      refine ⟨?_, (update_of_ne (hne hn) ..).trans hparent⟩
      exact mem_insert (s := s.pop) (q := .embryo) (t := s.next) |>.mpr (.inl hmem)
    refine ⟨fun u n hn ↦ ?_, fun u ↦ ?_, fun g hg ↦ ?_⟩
    · rw [hcode] at hn
      split at hn
      · next hu =>
        subst hu
        rcases mem_cons.mp hn with rfl | hn
        · refine ⟨?_, update_self ..⟩
          exact mem_insert (s := s.pop) (q := .embryo) (t := s.next) |>.mpr (.inr ⟨rfl, rfl⟩)
        · exact hold (hpending ▸ hn)
      · split at hn
        · rw [hentry] at hn
          cases hn
        · exact hold hn
    · rw [hcode]
      split
      · refine nodup_cons.mpr ⟨fun hmem ↦ hne (u := s.running) (hpending ▸ hmem) rfl, ?_⟩
        exact hpending ▸ hc.once s.running
      · split
        · rw [hentry]
          exact nodup_nil
        · exact hc.once u
    · rw [hcode, if_neg (Ne.symm (hc.running_ne_idle hf rfl)), if_neg (Ne.symm hidle)] at hg
      exact hc.idle g hg

/-- A new thread is unblocked. -/
theorem Steady.launch (h : s.Steady) (hc : s.Coded)
    (hf : s.Next (.launch t)) :
    (s.pop.remove .embryo t).Asked (.unblock t) ∧ (s.pop.remove .embryo t).Coded := by
  have hcons : s.code s.running = .launch t :: (s.code s.running).tail :=
    (cons_head?_tail hf).symm
  have hpending : (s.code s.running).filterMap Frame.embryo =
      t :: (s.code s.running).tail.filterMap Frame.embryo := by
    conv_lhs => rw [hcons]
    rfl
  have ht := hc.embryo s.running t (hpending ▸ mem_cons_self)
  have honce := hc.once s.running
  rw [hpending, nodup_cons] at honce
  have hpop : s.pop.Steady := h.congr rfl rfl rfl
  refine ⟨hpop.asked_unblock ht.1 nofun, fun u n hn ↦ ?_, fun u ↦ ?_, fun g hg ↦ ?_⟩
  · -- What is left to be unblocked is another thread.
    have hold : n ∈ (s.code u).filterMap Frame.embryo ∧ n ≠ t := by
      by_cases hu : u = s.running
      · subst hu
        simp only [Sched.remove, Sched.pop, update_self] at hn
        exact ⟨hpending ▸ mem_cons_of_mem _ hn, fun heq ↦ honce.1 (heq ▸ hn)⟩
      · simp only [Sched.remove, Sched.pop, update_of_ne hu] at hn
        refine ⟨hn, ?_⟩
        rintro rfl
        exact hu (some.inj ((hc.embryo u n hn).2.symm.trans ht.2))
    obtain ⟨hmem, hparent⟩ := hc.embryo u n hold.1
    exact ⟨(mem_remove (q := .embryo) (h.nodup _)).mpr ⟨hmem, fun hcon ↦ hold.2 hcon.2⟩, hparent⟩
  · by_cases hu : u = s.running
    · subst hu
      simpa only [Sched.remove, Sched.pop, update_self] using honce.2
    · simpa only [Sched.remove, Sched.pop, update_of_ne hu] using hc.once u
  · by_cases hu : idleThread = s.running
    · rw [hu] at hg
      simp only [Sched.remove, Sched.pop, update_self] at hg
      exact hc.idle g (hu ▸ mem_of_mem_tail hg)
    · simp only [Sched.remove, Sched.pop, update_of_ne hu] at hg
      exact hc.idle g hg

end

/-- **A frame keeps the places**, up to what it asks of the scheduler. -/
theorem Steady.effect {pick : Option Nat} (h : s.Steady) (hc : s.Coded)
    (hf : s.Next f) (hu : s.UnblocksParked (.event .go pick)) :
    (s.after cfg f).Asked (s.pop.effect cfg s.running f).1 ∧ (s.after cfg f).Coded := by
  have hpop : s.pop.Steady := h.congr rfl rfl rfl
  have hne : f.idle = false → s.running ≠ idleThread := hc.running_ne_idle hf
  cases f with
  | yield => exact ⟨hpop, hc.replace hf [] rfl (fun _ hn ↦ hn) rfl rfl (by simp)⟩
  | block =>
    simp only [after, Sched.effect]
    split
    · exact ⟨hpop.stop .blocked (by simp) (by simp) (by simp),
        hc.replace hf [] rfl (fun _ hn ↦ hn) rfl rfl (by simp)⟩
    · next hidle => exact ⟨hpop.asked_block hidle rfl, hc.replace hf [] rfl
        (fun _ hn ↦ mem_insert.mpr (.inl hn)) rfl rfl (by simp)⟩
  | unblock t =>
    have ht : t ∈ s.queue .parked := hu t (by simp [hf, Frame.unblocks])
    exact ⟨hpop.asked_unblock ht (by rintro ⟨⟩), hc.replace hf [] rfl
      (fun n hn ↦ mem_remove_of_ne (s := s.pop) (q := .parked) (by simp) hn) rfl rfl (by simp)⟩
  | sleep tick =>
    have hset : Steady { s.pop with
      wakeUpTick := update s.pop.wakeUpTick s.running tick } := h.congr rfl rfl rfl
    exact ⟨hset.asked_block (hne rfl) rfl, hc.replace hf [] rfl
      (fun _ hn ↦ mem_insert.mpr (.inl hn)) rfl rfl (by rintro ⟨⟩)⟩
  | down σ | redown σ => exact h.semaDown hc hf rfl rfl
  | up σ =>
    exact h.semaUp hc (if cfg.userprog then [] else [.yield]) hf (by split <;> simp)
  | initThread priority entry exec => exact h.initThread hc hf
  | launch t => exact h.launch hc hf
  | die =>
    exact ⟨⟨h.congr rfl rfl rfl, hne rfl⟩, hc.replace hf [] rfl (fun _ hn ↦ hn) rfl rfl (by simp)⟩
  | acquire _ | release _ | condWait _ =>
    exact h.stay hc hf _ (s.code_push_pop _) rfl rfl rfl rfl rfl rfl (by rintro ⟨⟩)
  | allocateTid t exec =>
    refine h.stay hc hf _ (Sched.code_push_pop _ _) rfl rfl rfl rfl rfl ?_ (by rintro ⟨⟩)
    split <;> rfl
  | startProcess success =>
    refine h.stay hc hf _ (s.code_push_pop _) rfl rfl rfl rfl rfl ?_ (by rintro ⟨⟩)
    split <;> rfl
  | tryDown _ =>
    simp only [after, Sched.effect]
    split <;> exact h.stay hc hf [] rfl rfl rfl rfl rfl rfl rfl (by rintro ⟨⟩)
  | tryAcquire _ | condSignal _ | condBroadcast _ | execGetChild _ | waitGetChild _ | exitLoop =>
    simp only [after, Sched.effect]
    split <;>
      first
      | exact h.stay hc hf [] rfl rfl rfl rfl rfl rfl rfl (by rintro ⟨⟩)
      | exact h.stay hc hf _ (s.code_push_pop _) rfl rfl rfl rfl rfl rfl (by rintro ⟨⟩)
  | setPriority _ | setNice _ | holder _ | addChild _ | removeChild _ | execRead _
  | readStatus _ => exact h.stay hc hf [] rfl rfl rfl rfl rfl rfl rfl (by rintro ⟨⟩)

theorem Coded.moves (h : s.Coded) (hm : s.Moves s') : s'.Coded := by
  have hqueue := hm.queue .embryo nofun nofun
  refine ⟨fun t n hn ↦ ?_, fun t ↦ ?_, fun f hf ↦ ?_⟩
  · rw [hm.data] at hn
    rw [hm.data, hqueue]
    exact h.embryo t n hn
  · rw [hm.data]
    exact h.once t
  · rw [hm.data] at hf
    exact h.idle f hf

/-! ## Steps -/

theorem Coded.call {c : ThreadCall} (h : s.Coded) (hnil : s.code s.running = [])
    (hidle : s.running = idleThread → c = .block) : (s.push s.running c.code).Coded := by
  have hcode : ∀ t, (s.push s.running c.code).code t =
      if t = s.running then c.code else s.code t := by
    intro t
    split
    · next ht => simp [ht, hnil]
    · next ht => simp [ht]
  refine ⟨fun t n hn ↦ ?_, fun t ↦ ?_, fun f hf ↦ ?_⟩
  · rw [hcode] at hn
    split at hn
    · rw [c.embryo_code] at hn
      cases hn
    · exact h.embryo t n hn
  · rw [hcode]
    split
    · rw [c.embryo_code]
      exact nodup_nil
    · exact h.once t
  · rw [hcode] at hf
    split at hf
    · next heq =>
      rw [hidle heq.symm] at hf
      obtain rfl := mem_singleton.mp hf
      rfl
    · exact h.idle f hf

/-- What one event does. -/
theorem react_cases {pick : Option Nat} {e : Event} (h : s.react cfg pick e = some s') : s' = s ∨
    (∃ c, s.code s.running = [] ∧ (s.running = idleThread → c = .block) ∧ e = .call c ∧
      s' = s.push s.running c.code) ∨
    (∃ f, e = .go ∧ s.Next f ∧ s.safe cfg s.running f = true ∧
      (s.after cfg f).perform pick (s.pop.effect cfg s.running f).1 = some s') ∨
    e = .timer ∧ s.intrOff = false ∧ s.timerInterrupt cfg pick = some s' := by
  cases e with
  | call c =>
    simp only [react] at h
    split at h
    · next hc => exact .inr (.inl ⟨c, hc.1, hc.2, rfl, (some.inj h).symm⟩)
    · exact .inl (some.inj h).symm
  | go =>
    simp only [react] at h
    split at h
    · exact .inl (some.inj h).symm
    · next f rest hcode =>
      simp only [bind_eq_some, assert_eq_some] at h
      obtain ⟨-, -, ⟨request, s₁⟩, hexec, hperform⟩ := h
      obtain ⟨hsafe, heffect⟩ := (exec_eq_some ..).mp hexec
      exact .inr (.inr (.inl ⟨f, rfl, congrArg head? hcode, hsafe, by rwa [after, heffect]⟩))
  | timer =>
    simp only [react] at h
    split at h
    · exact .inl (some.inj h).symm
    · next hoff => exact .inr (.inr (.inr ⟨rfl, by simpa using hoff, h⟩))

/-- What one step does. -/
theorem freeStep_cases {a : FreeAct} (h : s.freeStep cfg a = some s') : s' = s ∨
    (∃ c pick, s.code s.running = [] ∧ (s.running = idleThread → c = .block) ∧
      a = .event (.call c) pick ∧ s' = s.push s.running c.code) ∨
    (∃ f pick, s.Next f ∧ s.safe cfg s.running f = true ∧ a = .event .go pick ∧
      (s.after cfg f).perform pick (s.pop.effect cfg s.running f).1 = some s') ∨
    s.Moves s' ∧ s.Spares s' ∧ (s.Steady → s'.Steady) := by
  cases a with
  | event e pick =>
    rcases react_cases h with h | ⟨c, h1, h2, rfl, h3⟩ | ⟨f, rfl, h1, h2, h3⟩ | ⟨rfl, -, h⟩
    · exact .inl h
    · exact .inr (.inl ⟨c, pick, h1, h2, rfl, h3⟩)
    · exact .inr (.inr (.inl ⟨f, pick, h1, h2, rfl, h3⟩))
    · exact .inr (.inr (.inr ⟨.timerInterrupt h, .timerInterrupt h,
        fun hs ↦ (hs.timerInterrupt pick).of_eq h⟩))
  | preempt pick =>
    simp only [freeStep] at h
    split at h
    · exact .inl (some.inj h).symm
    · exact .inr (.inr (.inr ⟨.of_switches (.threadYield h), .threadYield h,
        fun hs ↦ (hs.threadYield pick).of_eq h⟩))

/-- The running thread goes on. -/
theorem freeStep_go {pick : Option Nat} (hf : s.Next f)
    (h : s.freeStep cfg (.event .go pick) = some s') : s.safe cfg s.running f = true ∧
      (s.after cfg f).perform pick (s.pop.effect cfg s.running f).1 = some s' := by
  have hcode : s.code s.running = f :: (s.code s.running).tail := (cons_head?_tail hf).symm
  rw [freeStep, react, hcode] at h
  simp only [bind_eq_some, assert_eq_some] at h
  obtain ⟨-, -, ⟨request, s₁⟩, hexec, hperform⟩ := h
  obtain ⟨hsafe, heffect⟩ := (exec_eq_some ..).mp hexec
  exact ⟨hsafe, by rwa [after, heffect]⟩

/-- A frame that reaches only what is there is executed. -/
theorem Steady.react_go (hs : s.Steady) (hf : s.Next f) (hsafe : s.safe cfg s.running f = true)
    (pick : Option Nat) : s.react cfg pick .go =
      (s.after cfg f).perform pick (s.pop.effect cfg s.running f).1 := by
  have hcode : s.code s.running = f :: (s.code s.running).tail := (cons_head?_tail hf).symm
  have hexec : s.pop.exec cfg s.running f = some (s.pop.effect cfg s.running f) :=
    (exec_eq_some ..).mpr ⟨hsafe, rfl⟩
  rw [react, hcode]
  simp only [assert, if_pos ((hs.run _).mpr rfl), some_bind, hexec, after]

/-- What holds between two steps. -/
structure Kept (s : Sched) : Prop where
  steady : s.Steady
  coded : s.Coded

theorem Kept.step {a : FreeAct} (h : s.Kept) (hu : s.UnblocksParked a)
    (hstep : s.freeStep cfg a = some s') : s'.Kept := by
  rcases freeStep_cases hstep with rfl | ⟨c, pick, hnil, hidle, -, rfl⟩ |
    ⟨f, pick, hf, -, rfl, hperform⟩ | ⟨hm, -, hs⟩
  · exact h
  · exact ⟨h.steady.congr rfl rfl rfl, h.coded.call hnil hidle⟩
  · obtain ⟨hasked, hcoded⟩ := h.steady.effect h.coded hf hu
    exact ⟨(hasked.perform pick).of_eq hperform, hcoded.moves (.perform hperform)⟩
  · exact ⟨hs h.steady, h.coded.moves hm⟩

/-- **The invariant rule for threads.**  What the scheduler cannot change, what a call does not
break and what a frame keeps holds in every state of a run. -/
theorem Kept.invariant {I : Sched → Prop} {C : Sched → FreeAct → Prop}
    (hparked : ∀ {s a}, C s a → s.UnblocksParked a) (hmoves : ∀ {s s'}, I s → s.Moves s' → I s')
    (hcall : ∀ {s c pick}, s.Kept → I s → C s (.event (.call c) pick) → s.code s.running = [] →
      I (s.push s.running c.code)) (heffect : ∀ {s f pick}, s.Kept → I s → C s (.event .go pick) →
      s.Next f → s.safe cfg s.running f = true → I (s.after cfg f))
    {as : List FreeAct} (hs : s.Kept) (hI : I s) (hmeets : Run.Meets (freeStep cfg) C s as)
    (hrun : Run.run (freeStep cfg) s as = some s') : s'.Kept ∧ I s' := by
  refine Run.invariant (I := fun s ↦ s.Kept ∧ I s) (fun s a s' h hC hstep ↦ ?_) ⟨hs, hI⟩ hmeets hrun
  refine ⟨h.1.step (hparked hC) hstep, ?_⟩
  rcases freeStep_cases hstep with rfl | ⟨c, pick, hnil, -, rfl, rfl⟩ |
    ⟨f, pick, hf, hsafe, rfl, hperform⟩ | ⟨hm, -⟩
  · exact h.2
  · exact hcall h.1 h.2 hC hnil
  · exact hmoves (heffect h.1 h.2 hC hf hsafe) (.perform hperform)
  · exact hmoves h.2 hm

theorem kept_boot (value : Nat → Nat) : (boot value).Kept := by
  have hqueue : ∀ q t, t ∈ (boot value).queue q ↔ q = .waiters .startIdle ∧ t = initialThread := by
    intro q t
    simp only [boot]
    split <;> simp_all
  refine ⟨⟨fun t ↦ ?_, fun q t ht ↦ ?_, fun t ht _ ↦ ?_, fun q ↦ ?_, fun q q' t h h' ↦ ?_,
    fun t ht ↦ ?_, ?_⟩, ⟨fun t n hn ↦ ?_, fun t ↦ ?_, fun f hf ↦ ?_⟩⟩
  · simp only [boot]
    grind -linarith
  · obtain ⟨rfl, rfl⟩ := (hqueue q t).mp ht
    exact ⟨rfl, nofun⟩
  · simp only [boot] at ht
    grind -linarith
  · simp only [boot]
    split <;> simp
  · exact ((hqueue q t).mp h).1.trans ((hqueue q' t).mp h').1.symm
  · have hlt : 2 ≤ t := ht
    simp only [boot]
    grind -linarith
  · exact ⟨nofun, nofun⟩
  · simp only [boot] at hn
    grind -linarith [Frame.embryo]
  · simp only [boot]
    grind -linarith [Frame.embryo]
  · simp only [boot] at hf
    grind -linarith [Frame.idle]

theorem Kept.of_run {as : List FreeAct} (h : s.Kept)
    (hparked : Run.Meets (freeStep cfg) UnblocksParked s as)
    (hrun : Run.run (freeStep cfg) s as = some s') : s'.Kept :=
  Run.invariant (fun _ _ _ h hu hs ↦ h.step hu hs) h hparked hrun

/-- **Status and lists agree.**  Whatever the threads do, as long as they call `thread_unblock` only
for a thread that has called `thread_block`, and whichever thread the scheduler chooses: one thread
is running; a thread other than the idle thread is ready exactly if it is in `ready_list`, and then
it is there once; no thread is in two lists, and one that sleeps or waits is blocked; the idle
thread is not in `ready_list`.  The assertions of `thread_current`, `thread_unblock` and `schedule`
hold, in the timer interrupt and wherever a thread gets to them. -/
theorem queues_agree {value : Nat → Nat} {as : List FreeAct}
    (hparked : Run.Meets (freeStep cfg) UnblocksParked (boot value) as)
    (hrun : Run.run (freeStep cfg) (boot value) as = some s) :
    (∀ t, s.status t = .running ↔ t = s.running) ∧
    (∀ t, t ≠ idleThread → (s.status t = .ready ↔ (s.queue .ready).count t = 1)) ∧
    (∀ t, (s.queue .ready).count t ≤ 1) ∧ (∀ q q' t, t ∈ s.queue q → t ∈ s.queue q' → q = q') ∧
    (∀ t, t ∈ s.queue .sleeping → s.status t = .blocked) ∧
    (∀ σ t, t ∈ s.queue (.waiters σ) → s.status t = .blocked) ∧ idleThread ∉ s.queue .ready ∧
    (∀ pick, (s.timerInterrupt cfg pick).isSome ∧ (s.threadYield pick).isSome) ∧
    ∀ f request s₁ pick, (s.code s.running).head? = some f → s.UnblocksParked (.event .go pick) →
      s.pop.exec cfg s.running f = some (request, s₁) → (s₁.perform pick request).isSome := by
  obtain ⟨h, hc⟩ := (kept_boot value).of_run hparked hrun
  refine ⟨fun t ↦ ?_, fun t ht ↦ ?_, fun t ↦ ?_, h.apart, fun t ht ↦ (h.place _ t ht).1,
    fun σ t ht ↦ (h.place _ t ht).1, fun hmem ↦ (h.place _ _ hmem).2 rfl,
    fun pick ↦ ⟨(h.timerInterrupt pick).isSome, (h.threadYield pick).isSome⟩,
    fun f request s₁ pick hf hu hexec ↦ ?_⟩
  · rw [h.run, some.injEq, eq_comm]
  · refine ⟨fun hr ↦ count_eq_one_of_mem (h.nodup _) (h.ready t hr ht), fun hcount ↦ ?_⟩
    exact (h.place _ t (count_pos_iff.mp (hcount ▸ Nat.one_pos))).1
  · exact nodup_iff_count_le_one.mp (h.nodup .ready) t
  · have hasked : (s.after cfg f).Asked _ := (h.effect hc hf hu).1
    rw [after, ((exec_eq_some ..).mp hexec).2] at hasked
    exact (hasked.perform pick).isSome

/-- The main thread starts, and creates another thread. -/
def spawn : List FreeAct :=
  FreeAct.event .go none :: FreeAct.event (.call .block) none :: FreeAct.event .go none ::
    FreeAct.event .go none :: FreeAct.event (.call (.create true 31 .thread)) none ::
    List.replicate 10 (FreeAct.event .go none)

/-- The second thread does `c`, which blocks it, and the main thread unblocks it. -/
def wake (c : ThreadCall) : List FreeAct :=
  spawn ++ [FreeAct.event (.call c) none, FreeAct.event .go none,
    FreeAct.event (.call (.unblock 2)) none, FreeAct.event .go none]

/-- The second thread has blocked itself and has been unblocked. -/
theorem queues_agree_unblocked :
    ∃ s, Run.run (freeStep ⟨true, false, false, id⟩) (boot fun _ ↦ 0) (wake .block) = some s ∧
      s.running = initialThread ∧ s.queue .ready = [2] ∧ s.status 2 = .ready ∧
      (s.queue .ready).count 2 = 1 := by
  refine Run.exists_of_view (fun s ↦ (s.running, s.queue .ready, s.status 2))
    (initialThread, [2], .ready) (by decide +kernel) fun s hrun heval ↦ ?_
  simp only [Prod.mk.injEq] at heval
  exact ⟨heval.1, heval.2.1, heval.2.2,
    ((queues_agree (by decide +kernel) hrun).2.1 2 (by simp)).mp heval.2.2⟩

/-- If the second thread waits for a semaphore instead, it is in two lists, and the assertion of
`thread_unblock` fails in `sema_up`. -/
theorem unblocked_waiter_in_two_lists :
    ∃ s, Run.run (freeStep ⟨true, false, false, id⟩) (boot fun _ ↦ 0) (wake (.semaDown 0)) =
        some s ∧
      2 ∈ s.queue .ready ∧ 2 ∈ s.queue (.waiters (.sema 0)) ∧ s.status 2 = .ready ∧
      Run.run (freeStep ⟨true, false, false, id⟩) s
        [FreeAct.event (.call (.semaUp 0)) none, FreeAct.event .go none] = none := by
  refine Run.exists_of_view (fun s ↦ (s.queue .ready, s.queue (.waiters (.sema 0)), s.status 2,
      (Run.run (freeStep ⟨true, false, false, id⟩) s
        [FreeAct.event (.call (.semaUp 0)) none, FreeAct.event .go none]).isNone))
    ([2], [2], .ready, true) (by decide +kernel) fun s _ heval ↦ ?_
  simp only [Prod.mk.injEq, isNone_iff_eq_none] at heval
  obtain ⟨hready, hwaiters, hstatus, hnone⟩ := heval
  exact ⟨by simp [hready], by simp [hwaiters], hstatus, hnone⟩

end Sched

end Pintos
