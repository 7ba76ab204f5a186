import Pintos.Threads.Scheduler

/-!
# Where the threads are

`elem` of a `struct thread` is used for `ready_list`, for `sleeping_list` and for the waiters of
every semaphore.  `Sched.Placed` says that this is no conflict: a thread is in at most one list, and
in the one its status says.  The scheduler finds the threads placed and leaves them placed
(`Sched.Asked.perform`, `Sched.Steady.timerInterrupt`), and does not touch anything else
(`Sched.Moves`).
-/

set_option autoImplicit false

namespace Pintos

open Function List Option

/-- The status of the threads in a list. -/
def Queue.status : Queue → ThreadStatus
  | .ready => .ready
  | .sleeping | .waiters _ | .parked | .embryo => .blocked

theorem Queue.status_of_ne {q : Queue} (h : q ≠ .ready) : q.status = .blocked := by
  cases q <;> first | rfl | exact absurd rfl h

variable {pick run' : Option Nat} {request : Request} {l : List Nat} {now : Int}

namespace Sched

variable {cfg : Config} {s s' s₁ : Sched} {q q' : Queue} {t u cur : Nat} {run : Option Nat}

/-! ## Lists -/

theorem mem_remove_of_ne (h : q' ≠ q) (hu : u ∈ s.queue q') : u ∈ (s.remove q t).queue q' := by
  rwa [queue_remove, update_of_ne h]

theorem mem_insert : u ∈ (s.insert q t).queue q' ↔ u ∈ s.queue q' ∨ q' = q ∧ u = t := by
  by_cases h : q' = q
  · subst h
    simp only [insert, update_self, mem_orderedInsert, true_and]
    exact or_comm
  · simp [insert, h]

theorem nodup_insert (h : (s.queue q').Nodup) (ht : t ∉ s.queue q) :
    ((s.insert q t).queue q').Nodup := by
  by_cases hq : q' = q
  · subst hq
    simp only [insert, update_self]
    exact (perm_orderedInsert _ t _).nodup_iff.mpr (nodup_cons.mpr ⟨ht, h⟩)
  · simpa only [insert, update_of_ne hq] using h

theorem mem_remove (h : (s.queue q).Nodup) :
    u ∈ (s.remove q t).queue q' ↔ u ∈ s.queue q' ∧ ¬ (q' = q ∧ u = t) := by
  by_cases hq : q' = q
  · subst hq
    simp only [remove, update_self, h.mem_erase_iff, true_and]
    exact and_comm
  · simp [remove, hq]

theorem nodup_remove (h : (s.queue q').Nodup) : ((s.remove q t).queue q').Nodup := by
  by_cases hq : q' = q
  · subst hq
    simpa only [remove, update_self] using h.erase t
  · simpa only [remove, update_of_ne hq] using h

/-! ## Places -/

/-- Every thread is in the list that its status says, and in no other one; `run` is the thread that
is running, if there is one. -/
structure Placed (s : Sched) (run : Option Nat) : Prop where
  run : ∀ t, s.status t = .running ↔ run = some t
  place : ∀ q t, t ∈ s.queue q → s.status t = q.status ∧ t ≠ idleThread
  ready : ∀ t, s.status t = .ready → t ≠ idleThread → t ∈ s.queue .ready
  nodup : ∀ q, (s.queue q).Nodup
  apart : ∀ q q' t, t ∈ s.queue q → t ∈ s.queue q' → q = q'
  fresh : ∀ t, s.next ≤ t → s.status t = .gone
  idle : s.status idleThread ≠ .gone ∧ s.status idleThread ≠ .dying

namespace Placed

theorem congr (h : s.Placed run) (hstatus : s'.status = s.status) (hqueue : s'.queue = s.queue)
    (hnext : s'.next = s.next) : s'.Placed run := by
  obtain ⟨h1, h2, h3, h4, h5, h6, h7⟩ := h
  constructor <;> simpa only [hstatus, hqueue, hnext]

/-- The running thread is in no list. -/
theorem not_mem (h : s.Placed (some cur)) (q : Queue) : cur ∉ s.queue q := by
  intro hmem
  have hrun := (h.run cur).mpr rfl
  have hplace := (h.place q cur hmem).1
  rw [hrun] at hplace
  cases q <;> cases hplace

section

variable (h : s.Placed run)

include h

/-- The next thread to be made is in no list yet. -/
theorem next_not_mem (q : Queue) : s.next ∉ s.queue q := by
  intro hmem
  have hplace := (h.place q _ hmem).1
  rw [h.fresh _ (Nat.le_refl _)] at hplace
  cases q <;> cases hplace

/-- One thread changes its status and its list to `place`. -/
theorem relocate (t : Nat) (place : Option Queue) (hstatus : ∀ u, u ≠ t → s'.status u = s.status u)
    (hqueue : ∀ q u, u ≠ t → (u ∈ s'.queue q ↔ u ∈ s.queue q))
    (hplace : ∀ q, t ∈ s'.queue q ↔ place = some q) (hnodup : ∀ q, (s'.queue q).Nodup)
    (hrun : ∀ u, s'.status u = .running ↔ run' = some u)
    (hin : ∀ q, place = some q → s'.status t = q.status ∧ t ≠ idleThread)
    (hready : s'.status t = .ready → t ≠ idleThread → place = some .ready)
    (hidle : t = idleThread → s'.status t ≠ .gone ∧ s'.status t ≠ .dying)
    (hfresh : ∀ u, s'.next ≤ u → s'.status u = .gone) : s'.Placed run' := by
  refine ⟨hrun, fun q u hu ↦ ?_, fun u hu hne ↦ ?_, hnodup, fun q1 q2 u h1 h2 ↦ ?_, hfresh, ?_⟩
  · by_cases hut : u = t
    · subst hut
      exact hin q ((hplace q).mp hu)
    · rw [hstatus u hut]
      exact h.place q u ((hqueue q u hut).mp hu)
  · by_cases hut : u = t
    · subst hut
      exact (hplace _).mpr (hready hu hne)
    · rw [hstatus u hut] at hu
      exact (hqueue _ u hut).mpr (h.ready u hu hne)
  · by_cases hut : u = t
    · subst hut
      exact some.inj (((hplace q1).mp h1).symm.trans ((hplace q2).mp h2))
    · exact h.apart q1 q2 u ((hqueue q1 u hut).mp h1) ((hqueue q2 u hut).mp h2)
  · by_cases hut : idleThread = t
    · exact hut ▸ hidle hut.symm
    · rw [hstatus _ hut]
      exact h.idle

/-- A thread that is blocked leaves its list. -/
theorem remove (hq : q ≠ .ready) : (s.remove q t).Placed run := by
  have hmem : ∀ {u q'}, u ∈ (s.remove q t).queue q' → u ∈ s.queue q' :=
    fun hu ↦ ((mem_remove (h.nodup q)).mp hu).1
  refine ⟨h.run, fun q' u hu ↦ h.place q' u (hmem hu), fun u hu hidle ↦ ?_,
    fun q' ↦ nodup_remove (h.nodup q'), fun q1 q2 u h1 h2 ↦ h.apart q1 q2 u (hmem h1) (hmem h2),
    h.fresh, h.idle⟩
  exact (mem_remove (h.nodup q)).mpr ⟨h.ready u hu hidle, fun hcon ↦ hq hcon.1.symm⟩

/-- A thread that has left its list is in no other one. -/
theorem not_mem_remove (ht : t ∈ s.queue q) (q' : Queue) :
    t ∉ (s.remove q t).queue q' := by
  intro hmem
  obtain ⟨hmem, hne⟩ := (mem_remove (h.nodup q)).mp hmem
  exact hne ⟨h.apart _ _ _ hmem ht, rfl⟩

/-- A thread that is in no list goes to one. -/
theorem insert (hno : ∀ q, t ∉ s.queue q) (hidle : t ≠ idleThread) (halive : s.status t ≠ .gone)
    (hrun : ∀ u, run' = some u ↔ run = some u ∧ u ≠ t) :
    ((s.insert q t).setStatus t q.status).Placed run' := by
  have hne : q.status ≠ .running := by cases q <;> exact nofun
  have hself : ((s.insert q t).setStatus t q.status).status t = q.status := update_self ..
  have hother : ∀ u, u ≠ t → ((s.insert q t).setStatus t q.status).status u = s.status u :=
    fun u hu ↦ update_of_ne hu ..
  refine h.relocate t (some q) hother (fun q' u hu ↦ ?_) (fun q' ↦ ?_)
    (fun q' ↦ nodup_insert (h.nodup q') (hno q)) (fun u ↦ ?_) ?_ (fun hr _ ↦ ?_)
    (fun heq ↦ absurd heq hidle) (fun u hu ↦ ?_)
  · exact mem_insert.trans (or_iff_left fun hcon ↦ hu hcon.2)
  · refine mem_insert.trans ?_
    simp [hno q', eq_comm]
  · by_cases hu : u = t
    · subst hu
      simp [hself, hne, hrun]
    · rw [hother u hu, h.run u, hrun, and_iff_left hu]
  · rintro _ ⟨⟩
    exact ⟨hself, hidle⟩
  · rw [hself] at hr
    cases q <;> first | rfl | cases hr
  · have hgone := h.fresh u hu
    rw [hother u fun heq ↦ halive (heq ▸ hgone), hgone]

/-- A thread that is in no list gets a status that belongs to none. -/
theorem setStatus (status : ThreadStatus) (hno : ∀ q, t ∉ s.queue q) (halive : s.status t ≠ .gone)
    (hidle : t = idleThread → status ≠ .gone ∧ status ≠ .dying)
    (hready : status = .ready → t = idleThread)
    (hrun : ∀ u, run' = some u ↔ if u = t then status = .running else run = some u) :
    (s.setStatus t status).Placed run' := by
  have hself : (s.setStatus t status).status t = status := update_self ..
  have hother : ∀ u, u ≠ t → (s.setStatus t status).status u = s.status u :=
    fun u hu ↦ update_of_ne hu ..
  refine h.relocate t none hother (fun q u _ ↦ Iff.rfl) (fun q ↦ ?_) h.nodup (fun u ↦ ?_)
    nofun (fun hr hne ↦ absurd (hready (hself ▸ hr)) hne) (fun heq ↦ by rw [hself]; exact hidle heq)
    (fun u hu ↦ ?_)
  · exact iff_of_false (hno q) nofun
  · by_cases hu : u = t
    · subst hu
      rw [hself, hrun, if_pos rfl]
    · rw [hother u hu, h.run u, hrun, if_neg hu]
  · have hgone := h.fresh u hu
    rw [hother u fun heq ↦ halive (heq ▸ hgone), hgone]

end

/-- The threads after `next_thread_to_run`: the next one is not in a list any more, and nobody
runs. -/
theorem takeNext (h : s.Placed none) (hnext : t ∈ s.queue .ready) :
    ((s.remove .ready t).setStatus t .running).Placed (some t) := by
  have hplace := h.place _ _ hnext
  have hother : ∀ u, u ≠ t →
      ((s.remove .ready t).setStatus t .running).status u = s.status u :=
    fun u hu ↦ update_of_ne hu ..
  have hself : ((s.remove .ready t).setStatus t .running).status t = .running :=
    update_self ..
  refine h.relocate t none hother (fun q u hu ↦ ?_) (fun q ↦ ?_)
    (fun q ↦ nodup_remove (h.nodup q)) (fun u ↦ ?_) nofun ?_ (fun heq ↦ absurd heq hplace.2)
    (fun u hu ↦ ?_)
  · exact (mem_remove (h.nodup _)).trans (and_iff_left fun hcon ↦ hu hcon.2)
  · exact iff_of_false (h.not_mem_remove hnext q) nofun
  · by_cases hu : u = t
    · simp [hu, hself]
    · rw [hother u hu, h.run u]
      simp [Ne.symm hu]
  · rw [hself]
    nofun
  · have hgone := h.fresh u hu
    rw [hother u, hgone]
    rintro rfl
    rw [hgone] at hplace
    cases hplace.1

end Placed

/-- The running thread gets another status, and nobody runs. -/
theorem Placed.stop (h : s.Placed (some cur)) (status : ThreadStatus)
    (hidle : cur = idleThread → status ≠ .gone ∧ status ≠ .dying)
    (hready : status = .ready → cur = idleThread) (hstop : status ≠ .running) :
    (s.setStatus cur status).Placed none := by
  refine h.setStatus status h.not_mem ?_ hidle hready fun u ↦ iff_of_false nofun ?_
  · rw [(h.run _).mpr rfl]
    nofun
  · split
    · exact hstop
    · next hu => exact fun heq ↦ hu (some.inj heq).symm

/-! ## The scheduler -/

/-- The threads are placed, and one of them is running. -/
def Steady (s : Sched) : Prop := s.Placed (some s.running)

theorem Steady.running_lt (h : s.Steady) : s.running < s.next := by
  by_contra hle
  have hrun := (h.run s.running).mpr rfl
  rw [h.fresh _ (Nat.le_of_not_lt hle)] at hrun
  cases hrun

theorem threadUnblock_eq (h : s.status t = .blocked) :
    s.threadUnblock t = some ((s.insert .ready t).setStatus t .ready) := by
  simp only [threadUnblock, assert, if_pos h]
  rfl

theorem Placed.threadUnblock (h : s.Placed run) (hno : ∀ q, t ∉ s.queue q) (hidle : t ≠ idleThread)
    (hblocked : s.status t = .blocked) (hrun : run ≠ some t) :
    Returns (s.threadUnblock t) fun s' ↦ s'.Placed run ∧ s'.running = s.running := by
  refine ⟨_, threadUnblock_eq hblocked, ?_, rfl⟩
  refine h.insert hno hidle (by rw [hblocked]; nofun) fun u ↦ ⟨fun hu ↦ ⟨hu, ?_⟩, And.left⟩
  rintro rfl
  exact hrun hu

theorem eq_of_schedule (h : s.schedule pick = some s') :
    s' = ((s.nextThreadToRun pick).2.switchTo (s.nextThreadToRun pick).1).threadScheduleTail
      s.running := by
  simp only [Sched.schedule, bind_eq_some, assert_eq_some] at h
  obtain ⟨-, -, -, -, h⟩ := h
  exact (some.inj h).symm

theorem eq_of_threadUnblock (h : s.threadUnblock t = some s') :
    s' = (s.insert .ready t).setStatus t .ready := by
  simp only [threadUnblock, bind_eq_some, assert_eq_some] at h
  obtain ⟨-, -, h⟩ := h
  exact (some.inj h).symm

/-- The next thread is one that is ready, or the idle thread if there is none. -/
theorem nextThreadToRun_cases (s : Sched) (pick : Option Nat) :
    (∃ t ∈ s.queue .ready, s.nextThreadToRun pick = (t, s.remove .ready t)) ∨
      s.queue .ready = [] ∧ s.nextThreadToRun pick = (idleThread, s) := by
  have hnext : (∃ t ∈ s.queue .ready, nextThreadToRun.next s = (t, s.remove .ready t)) ∨
      s.queue .ready = [] ∧ nextThreadToRun.next s = (idleThread, s) := by
    unfold nextThreadToRun.next
    split
    · next h => exact .inr ⟨h, rfl⟩
    · next t rest h => exact .inl ⟨t, h ▸ mem_cons_self, rfl⟩
  unfold nextThreadToRun
  split
  · split
    · next t h => exact .inl ⟨t, h, rfl⟩
    · exact hnext
  · exact hnext

/-- After the switch the dying thread is freed. -/
theorem Steady.threadScheduleTail (h : s.Steady) (prev : Nat) :
    (s.threadScheduleTail prev).Steady := by
  unfold Sched.threadScheduleTail
  split
  · next hprev =>
    obtain ⟨hne, hdying, -⟩ := hprev
    refine h.setStatus .gone (fun q hmem ↦ ?_) (by rw [hdying]; nofun) ?_ nofun fun u ↦ ?_
    · have hplace := (h.place q prev hmem).1
      rw [hdying] at hplace
      cases q <;> cases hplace
    · rintro rfl
      exact absurd hdying h.idle.2
    · split
      · next hu => simp [Sched.setStatus, hu, Ne.symm hne]
      · rfl
  · exact h

theorem Placed.switchTo {next : Nat} (h : (s.setStatus next .running).Placed (some next)) :
    (s.switchTo next).Steady :=
  h.congr rfl rfl rfl

theorem Placed.schedule (h : s.Placed none) (pick : Option Nat) :
    Returns (s.schedule pick) Steady := by
  have hcur : s.status s.running ≠ .running := by simp [h.run]
  rcases s.nextThreadToRun_cases pick with ⟨t, ht, heq⟩ | ⟨hnil, heq⟩
  · have halive : s.status t ≠ .gone := by
      rw [(h.place _ t ht).1]
      rintro ⟨⟩
    refine ⟨((s.remove .ready t).switchTo t).threadScheduleTail s.running, ?_, ?_⟩
    · simp only [Sched.schedule, heq, assert, Sched.remove, if_pos hcur, if_pos halive]
      rfl
    · exact (h.takeNext ht).switchTo.threadScheduleTail _
  · refine ⟨(s.switchTo idleThread).threadScheduleTail s.running, ?_,
      Steady.threadScheduleTail (Placed.switchTo ?_) _⟩
    · simp only [Sched.schedule, heq, assert, if_pos hcur, if_pos h.idle.1]
      rfl
    · have hno : ∀ q, idleThread ∉ s.queue q := fun q hmem ↦ (h.place q _ hmem).2 rfl
      refine h.setStatus .running hno h.idle.1 (by simp) (by simp) fun u ↦ ?_
      split
      · next hu => simp [hu]
      · next hu => simp [Ne.symm hu]

theorem Steady.threadYield (h : s.Steady) (pick : Option Nat) :
    Returns (s.threadYield pick) Steady := by
  unfold Sched.threadYield
  have halive : s.status s.running ≠ .gone := by
    rw [(h.run _).mpr rfl]
    nofun
  dsimp only
  split
  · next hidle =>
    exact (h.stop .ready (fun _ ↦ ⟨nofun, nofun⟩) (fun _ ↦ hidle) nofun).schedule pick
  · next hidle =>
    refine (h.insert (q := .ready) h.not_mem hidle halive fun u ↦ ?_).schedule pick
    simp_all [eq_comm]

/-- The threads are placed as soon as the scheduler has done what it is asked to. -/
def Asked (s : Sched) : Request → Prop
  | .stay | .yield => s.Steady
  | .unblock t => s.Steady ∧ (∀ q, t ∉ s.queue q) ∧ t ≠ idleThread ∧ s.status t = .blocked
  | .block => (s.setStatus s.running .blocked).Placed none
  | .exit => s.Steady ∧ s.running ≠ idleThread

theorem Asked.perform (h : s.Asked request) (pick : Option Nat) :
    Returns (s.perform pick request) Steady := by
  cases request with
  | stay => exact .pure h
  | unblock t =>
    obtain ⟨h, hno, hidle, hblocked⟩ := h
    have hrun : some s.running ≠ some t := by
      rintro ⟨⟩
      exact nomatch ((h.run _).mpr rfl).symm.trans hblocked
    refine (h.threadUnblock hno hidle hblocked hrun).mono fun s' hs' ↦ ?_
    rw [Steady, hs'.2]
    exact hs'.1
  | yield => exact h.threadYield pick
  | block => exact h.schedule pick
  | exit =>
    obtain ⟨h, hidle⟩ := h
    exact (h.stop .dying (fun heq ↦ absurd heq hidle) nofun nofun).schedule pick

/-- A thread leaves the list it is blocked in, to be unblocked. -/
theorem Steady.asked_unblock (h : s.Steady) (ht : t ∈ s.queue q) (hq : q ≠ .ready) :
    (s.remove q t).Asked (.unblock t) := by
  obtain ⟨hstatus, hidle⟩ := h.place q t ht
  exact ⟨h.remove hq, h.not_mem_remove ht, hidle, hstatus.trans (Queue.status_of_ne hq)⟩

/-- The running thread enters a list, to block. -/
theorem Steady.asked_block (h : s.Steady) (hidle : s.running ≠ idleThread)
    (hq : q.status = .blocked) : (s.insert q s.running).Asked .block := by
  have halive : s.status s.running ≠ .gone := by
    rw [(h.run _).mpr rfl]
    nofun
  have hinsert : ((s.insert q s.running).setStatus s.running q.status).Placed none :=
    h.insert h.not_mem hidle halive fun u ↦ by simp_all [eq_comm]
  rw [hq] at hinsert
  exact hinsert

/-! ## What the scheduler leaves alone -/

/-- Only `ready_list`, the status of the threads and which one runs have changed. -/
def Switches (s s' : Sched) : Prop :=
  ∃ status ready running threadTicks stamp clock, s' =
    { s with status, queue := update s.queue .ready ready, running, threadTicks, stamp, clock }

namespace Switches

theorem refl (s : Sched) : s.Switches s :=
  ⟨s.status, s.queue .ready, s.running, s.threadTicks, s.stamp, s.clock, by rw [update_eq_self]⟩

theorem trans (h : s.Switches s₁) (h' : s₁.Switches s') : s.Switches s' := by
  obtain ⟨_, _, _, _, _, _, rfl⟩ := h
  obtain ⟨status, ready, running, threadTicks, stamp, clock, rfl⟩ := h'
  exact ⟨status, ready, running, threadTicks, stamp, clock, by rw [update_idem]⟩

theorem insert_ready (s : Sched) (t : Nat) : s.Switches (s.insert .ready t) :=
  ⟨s.status, _, s.running, s.threadTicks, _, _, rfl⟩

theorem setStatus (s : Sched) (t : Nat) (status : ThreadStatus) :
    s.Switches (s.setStatus t status) :=
  ⟨_, s.queue .ready, s.running, s.threadTicks, s.stamp, s.clock, by rw [update_eq_self]; rfl⟩

theorem schedule (h : s.schedule pick = some s') : s.Switches s' := by
  obtain rfl := eq_of_schedule h
  have hswitch : s.Switches
      ((s.nextThreadToRun pick).2.switchTo (s.nextThreadToRun pick).1) := by
    rcases s.nextThreadToRun_cases pick with ⟨t, -, heq⟩ | ⟨-, heq⟩ <;> rw [heq]
    · exact ⟨_, _, t, 0, _, _, rfl⟩
    · exact ⟨_, s.queue .ready, idleThread, 0, s.stamp, s.clock, by rw [update_eq_self]; rfl⟩
  unfold threadScheduleTail
  split
  · exact hswitch.trans (setStatus ..)
  · exact hswitch

theorem threadUnblock (h : s.threadUnblock t = some s') : s.Switches s' := by
  obtain rfl := eq_of_threadUnblock h
  exact (insert_ready s t).trans (setStatus ..)

theorem threadYield (h : s.threadYield pick = some s') : s.Switches s' := by
  refine trans ?_ (schedule h)
  split
  · exact setStatus ..
  · exact (insert_ready s _).trans (setStatus ..)

theorem perform (h : s.perform pick request = some s') : s.Switches s' := by
  cases request with
  | stay => exact some.inj h ▸ refl s
  | unblock t => exact threadUnblock h
  | yield => exact threadYield h
  | block | exit => exact (setStatus ..).trans (schedule h)

end Switches

/-- Only the status of the threads, `ready_list`, `sleeping_list` and what belongs to the timer have
changed. -/
structure Moves (s s' : Sched) : Prop where
  data : s'.toData = s.toData
  queue : ∀ q, q ≠ .ready → q ≠ .sleeping → s'.queue q = s.queue q

namespace Moves

theorem refl (s : Sched) : s.Moves s := ⟨rfl, fun _ _ _ ↦ rfl⟩

theorem trans (h : s.Moves s₁) (h' : s₁.Moves s') : s.Moves s' :=
  ⟨h'.data.trans h.data, fun q hr hs ↦ (h'.queue q hr hs).trans (h.queue q hr hs)⟩

theorem of_status (hdata : s'.toData = s.toData) (hqueue : s'.queue = s.queue) : s.Moves s' :=
  ⟨hdata, fun q _ _ ↦ congrFun hqueue q⟩

theorem of_switches (h : s.Switches s') : s.Moves s' := by
  obtain ⟨_, _, _, _, _, _, rfl⟩ := h
  exact ⟨rfl, fun q hr _ ↦ update_of_ne hr ..⟩

theorem perform (h : s.perform pick request = some s') : s.Moves s' := of_switches (.perform h)

theorem wakeUpLoop (h : Sched.wakeUpLoop now l s = some s') : s.Moves s' := by
  induction l generalizing s with
  | nil => exact some.inj h ▸ refl s
  | cons t rest ih =>
    unfold Sched.wakeUpLoop at h
    split at h
    · exact some.inj h ▸ refl s
    · obtain ⟨s₁, h1, h⟩ := bind_eq_some_iff.mp h
      have hremove : s.Moves (s.remove .sleeping t) := ⟨rfl, fun q _ hs ↦ update_of_ne hs ..⟩
      exact (hremove.trans (of_switches (.threadUnblock h1))).trans (ih h)

end Moves

/-! ## The timer -/

/-- The state after `ticks++` and `thread_tick`. -/
def ticked (cfg : Config) (s : Sched) : Sched := (threadTick cfg { s with ticks := s.ticks + 1 }).2

/-- The time slice of the running thread is over with the next tick. -/
def expires (s : Sched) : Bool := timeSlice ≤ s.threadTicks + 1

/-- `thread_tick` changes numbers only. -/
theorem ticked_frame (cfg : Config) (s : Sched) :
    (s.ticked cfg).toData = s.toData ∧ (s.ticked cfg).status = s.status ∧
      (s.ticked cfg).queue = s.queue ∧ (s.ticked cfg).running = s.running := by
  have hmlfqs : ∀ s : Sched, s.mlfqsTick.toData = s.toData ∧ s.mlfqsTick.status = s.status ∧
      s.mlfqsTick.queue = s.queue ∧ s.mlfqsTick.running = s.running := by
    intro s
    unfold mlfqsTick
    dsimp only
    split <;> split <;> split <;> exact ⟨rfl, rfl, rfl, rfl⟩
  have haging : ∀ s : Sched, s.threadAging.toData = s.toData ∧ s.threadAging.status = s.status ∧
      s.threadAging.queue = s.queue ∧ s.threadAging.running = s.running := by
    intro s
    unfold threadAging
    split <;> exact ⟨rfl, rfl, rfl, rfl⟩
  unfold ticked threadTick
  dsimp only
  split <;> split
  · obtain ⟨h1, h2, h3, h4⟩ := hmlfqs { s with ticks := s.ticks + 1 }
    obtain ⟨h1', h2', h3', h4'⟩ := haging { mlfqsTick { s with ticks := s.ticks + 1 } with
      threadTicks := (mlfqsTick { s with ticks := s.ticks + 1 }).threadTicks + 1 }
    exact ⟨h1'.trans h1, h2'.trans h2, h3'.trans h3, h4'.trans h4⟩
  · exact haging { s with ticks := s.ticks + 1, threadTicks := s.threadTicks + 1 }
  · exact hmlfqs { s with ticks := s.ticks + 1 }
  · exact ⟨rfl, rfl, rfl, rfl⟩

/-- `thread_tick` does not change when a thread is to be woken. -/
theorem wakeUpTick_ticked (cfg : Config) (s : Sched) :
    (s.ticked cfg).wakeUpTick = s.wakeUpTick ∧ (s.ticked cfg).ticks = s.ticks + 1 := by
  have hmlfqs : ∀ s : Sched,
      s.mlfqsTick.wakeUpTick = s.wakeUpTick ∧ s.mlfqsTick.ticks = s.ticks := by
    intro s
    unfold mlfqsTick
    dsimp only
    split <;> split <;> split <;> exact ⟨rfl, rfl⟩
  have haging : ∀ s : Sched,
      s.threadAging.wakeUpTick = s.wakeUpTick ∧ s.threadAging.ticks = s.ticks := by
    intro s
    unfold threadAging
    split <;> exact ⟨rfl, rfl⟩
  unfold ticked threadTick
  dsimp only
  split <;> split
  · rw [(haging _).1, (haging _).2]
    exact hmlfqs _
  · exact haging _
  · exact hmlfqs _
  · exact ⟨rfl, rfl⟩

theorem threadTick_eq (cfg : Config) (s : Sched) :
    threadTick cfg { s with ticks := s.ticks + 1 } = (s.expires, s.ticked cfg) := by
  have hmlfqs : ∀ s : Sched, s.mlfqsTick.threadTicks = s.threadTicks := by
    intro s
    unfold mlfqsTick
    dsimp only
    split <;> split <;> split <;> rfl
  refine Prod.ext ?_ rfl
  simp only [threadTick, expires]
  split
  · rw [hmlfqs]
  · rfl

theorem Steady.ticked (h : s.Steady) : (s.ticked cfg).Steady := by
  obtain ⟨hdata, hstatus, hqueue, hrunning⟩ := ticked_frame cfg s
  rw [Steady, hrunning]
  exact h.congr hstatus hqueue (congrArg Data.next hdata)

/-- What the timer interrupt does after `thread_tick`. -/
theorem timerInterrupt_cases (h : s.timerInterrupt cfg pick = some s') :
    ∃ s₁, (s.ticked cfg).threadWakeUp (s.ticked cfg).ticks = some s₁ ∧
      (s.expires = true ∧ s₁.threadYield pick = some s' ∨ s.expires = false ∧ s₁ = s') := by
  simp only [Sched.timerInterrupt, bind_eq_some, assert_eq_some, threadTick_eq] at h
  obtain ⟨-, -, s₁, h1, h⟩ := h
  refine ⟨s₁, h1, ?_⟩
  split at h
  · next hyield => exact .inl ⟨hyield, h⟩
  · next hyield => exact .inr ⟨by simpa using hyield, some.inj h⟩

theorem Steady.wakeUpLoop (h : s.Steady) (hl : s.queue .sleeping = l) :
    Returns (Sched.wakeUpLoop now l s) fun s' ↦ s'.Steady ∧ s'.running = s.running := by
  induction l generalizing s with
  | nil => exact .pure ⟨h, rfl⟩
  | cons t rest ih =>
    unfold Sched.wakeUpLoop
    split
    · exact .pure ⟨h, rfl⟩
    · have ht : t ∈ s.queue .sleeping := hl ▸ mem_cons_self
      obtain ⟨hs, hno, hidle, hblocked⟩ := h.asked_unblock ht nofun
      have hrun : some s.running ≠ some t := by
        rintro ⟨⟩
        exact h.not_mem _ ht
      obtain ⟨s₁, heq, h1, hrun1⟩ := hs.threadUnblock hno hidle hblocked hrun
      have hrest : s₁.queue .sleeping = rest := by
        rw [threadUnblock_eq hblocked, some.injEq] at heq
        rw [← heq]
        simp [setStatus, hl]
      have hs1 : s₁.Steady := by
        rw [Steady, hrun1]
        exact h1
      rw [heq]
      refine (ih hs1 hrest).mono fun s' hs' ↦ ⟨hs'.1, hs'.2.trans hrun1⟩

theorem Steady.timerInterrupt (h : s.Steady) (pick : Option Nat) :
    Returns (s.timerInterrupt cfg pick) Steady := by
  have hrun : s.status s.running = .running := (h.run _).mpr rfl
  simp only [Sched.timerInterrupt, assert, if_pos hrun, some_bind, threadTick_eq]
  refine Returns.bind (h.ticked.wakeUpLoop rfl) fun s' hs' ↦ ?_
  split
  · exact hs'.1.threadYield pick
  · exact .pure hs'.1

theorem Moves.timerInterrupt (h : s.timerInterrupt cfg pick = some s') : s.Moves s' := by
  obtain ⟨hdata, -, hqueue, -⟩ := ticked_frame cfg s
  obtain ⟨s₁, h1, h⟩ := timerInterrupt_cases h
  have hmoves : s.Moves s₁ := (of_status hdata hqueue).trans (wakeUpLoop h1)
  rcases h with ⟨-, h⟩ | ⟨-, rfl⟩
  · exact hmoves.trans (of_switches (.threadYield h))
  · exact hmoves

/-! ## Who dies -/

/-- A thread is dying, or has been freed, or has not been made yet. -/
def Dead (s : Sched) (t : Nat) : Prop := s.status t = .gone ∨ s.status t = .dying

/-- No thread has died. -/
def Spares (s s' : Sched) : Prop := ∀ t, s'.Dead t → s.Dead t

namespace Spares

theorem refl (s : Sched) : s.Spares s := fun _ h ↦ h

theorem trans (h : s.Spares s₁) (h' : s₁.Spares s') : s.Spares s' := fun t ht ↦ h t (h' t ht)

theorem of_status (h : s'.status = s.status) : s.Spares s' := fun t ht ↦ by
  rw [Dead, h] at ht
  exact ht

theorem setStatus (status : ThreadStatus) (h : status ≠ .gone ∧ status ≠ .dying) :
    s.Spares (s.setStatus t status) := by
  intro u hu
  by_cases heq : u = t
  · subst heq
    simp [Dead, Sched.setStatus, h] at hu
  · simpa [Dead, Sched.setStatus, heq] using hu

theorem threadScheduleTail (s : Sched) (prev : Nat) : s.Spares (s.threadScheduleTail prev) := by
  unfold Sched.threadScheduleTail
  split
  · next hprev =>
    intro u hu
    by_cases heq : u = prev
    · exact .inr (heq ▸ hprev.2.1)
    · simpa [Dead, Sched.setStatus, heq] using hu
  · exact refl s

theorem schedule (h : s.schedule pick = some s') : s.Spares s' := by
  obtain rfl := eq_of_schedule h
  refine trans ?_ (threadScheduleTail _ _)
  rcases s.nextThreadToRun_cases pick with ⟨t, -, heq⟩ | ⟨-, heq⟩ <;> rw [heq]
  · exact (setStatus (s := s) (t := t) .running ⟨by rintro ⟨⟩, by rintro ⟨⟩⟩).trans (of_status rfl)
  · exact (setStatus (s := s) (t := idleThread) .running (by simp)).trans (of_status rfl)

theorem threadUnblock (h : s.threadUnblock t = some s') : s.Spares s' := by
  obtain rfl := eq_of_threadUnblock h
  exact (of_status rfl).trans (setStatus .ready ⟨by rintro ⟨⟩, by rintro ⟨⟩⟩)

theorem threadYield (h : s.threadYield pick = some s') : s.Spares s' := by
  refine trans ?_ (schedule h)
  split
  · exact setStatus .ready ⟨nofun, nofun⟩
  · exact (of_status rfl).trans (setStatus .ready ⟨nofun, nofun⟩)

/-- Only a thread that asks for it dies. -/
theorem perform (h : s.perform pick request = some s')
    (hrequest : request ≠ .exit) : s.Spares s' := by
  cases request with
  | stay => exact some.inj h ▸ refl s
  | unblock t => exact threadUnblock h
  | yield => exact threadYield h
  | block => exact (setStatus .blocked ⟨nofun, nofun⟩).trans (schedule h)
  | exit => exact absurd rfl hrequest

theorem perform_exit (h : s.perform pick .exit = some s') (hne : t ≠ s.running)
    (ht : s'.Dead t) : s.Dead t := by
  have hdead := schedule h t ht
  simpa [Dead, Sched.setStatus, hne] using hdead

theorem wakeUpLoop (h : Sched.wakeUpLoop now l s = some s') : s.Spares s' := by
  induction l generalizing s with
  | nil => exact some.inj h ▸ refl s
  | cons t rest ih =>
    unfold Sched.wakeUpLoop at h
    split at h
    · exact some.inj h ▸ refl s
    · obtain ⟨s₁, h1, h⟩ := bind_eq_some_iff.mp h
      exact ((of_status rfl).trans (threadUnblock h1)).trans (ih h)

theorem timerInterrupt (h : s.timerInterrupt cfg pick = some s') : s.Spares s' := by
  obtain ⟨-, hstatus, -, -⟩ := ticked_frame cfg s
  obtain ⟨s₁, h1, h⟩ := timerInterrupt_cases h
  have hspares : s.Spares s₁ := (of_status hstatus).trans (wakeUpLoop h1)
  rcases h with ⟨-, h⟩ | ⟨-, rfl⟩
  · exact hspares.trans (threadYield h)
  · exact hspares

end Spares

end Sched

end Pintos
