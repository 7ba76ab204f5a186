import Pintos.Logic.CountBelow
import Pintos.Threads.Queues

/-!
# Semaphores

What `sema_down` and `sema_up` keep, whichever threads run in between: nothing that is raised is
lost, and a semaphore that threads wait for is raised only as far as there are threads on their way
to lower it.
-/

set_option autoImplicit false

namespace Pintos

open Function List Option

/-! ## The shape of the frames

Some frames are only ever the next one of a thread: they are put there by the frame before them.  So
what a thread goes on with after a frame does not begin with one of these. -/

/-- Frames that are only the next one of a thread. -/
def Frame.top : Frame → Bool
  | .redown _ | .up (.lock _) | .up (.waiter _) | .down (.lock _) => true
  | _ => false

/-- The lock that a frame takes the semaphore of. -/
def Frame.takes : Frame → Option LockId
  | .down (.lock l) | .redown (.lock l) => some l
  | _ => none

/-- The lock that a frame sets the holder of. -/
def Frame.marks : Frame → Option LockId
  | .holder l => some l
  | _ => none

/-- `lock_try_acquire` and `sema_try_down` are not called by the functions themselves. -/
def Frame.plain : Frame → Bool
  | .tryAcquire .tid => false
  | .tryDown (.sema _) => true
  | .tryDown _ => false
  | _ => true

/-- Frames that nothing comes after. -/
def Frame.last : Frame → Bool
  | .tryAcquire _ | .initThread _ _ _ | .allocateTid _ _ | .execGetChild _ | .waitGetChild _
  | .startProcess _ | .exitLoop | .die => true
  | _ => false

/-- What the frames of a thread look like. -/
def Shaped : List Frame → Prop
  | [] => True
  | f :: rest => rest.head?.bind Frame.marks = f.takes ∧ (∀ g ∈ rest.head?, g.top = false) ∧
      f.plain = true ∧ (f.last = true → rest = []) ∧ Shaped rest

theorem Entry.shaped_code (entry : Entry) : Shaped entry.code := by
  cases entry <;> simp [Entry.code, Shaped, Frame.takes, Frame.last, Frame.plain]

theorem ThreadCall.shaped_code (c : ThreadCall) : Shaped c.code := by
  cases c with
  | create memory _ _ | exec memory _ =>
    cases memory <;> simp [ThreadCall.code, Shaped, Frame.takes, Frame.last, Frame.plain]
  | _ => simp [ThreadCall.code, Shaped, Frame.takes, Frame.last, Frame.plain, Frame.marks,
    Frame.top]

variable {c : ThreadCall}

theorem ThreadCall.head_code {g : Frame} (h : c.code.head? = some g) :
    g.top = false ∧ g.marks = none := by
  cases c with
  | create memory _ _ | exec memory _ =>
    cases memory
    · cases h
    · cases h
      exact ⟨rfl, rfl⟩
  | _ => cases h; exact ⟨rfl, rfl⟩

namespace Sched

variable {cfg : Config} {s s' : Sched} {f : Frame} {σ : SemaId}

theorem shaped_expansion {cur : Nat} {rest : List Frame} (h : Shaped (f :: rest)) :
    Shaped (s.expansion cfg cur f ++ rest) := by
  obtain ⟨hmarks, htop, hplain, hlast, hrest⟩ := h
  cases f with
  | down σ | redown σ =>
    simp only [expansion]
    split
    · refine ⟨hmarks.trans ?_, htop, rfl, by rintro ⟨⟩, hrest⟩
      cases σ <;> rfl
    · exact hrest
  | tryAcquire l =>
    obtain rfl := hlast rfl
    simp only [expansion]
    split <;> simp [Shaped, Frame.takes, Frame.last, Frame.plain]
  | condWait _ | acquire _ | release _ | initThread _ _ _ =>
    simp_all [expansion, Shaped, Frame.takes, Frame.last, Frame.plain, Frame.marks, Frame.top]
  | _ =>
    simp only [expansion]
    repeat' split
    all_goals simp_all [Shaped, Frame.takes, Frame.last, Frame.plain, Frame.marks, Frame.top]

/-- The frames of the threads. -/
structure Formed (s : Sched) : Prop where
  shaped : ∀ t, Shaped (s.code t)
  fresh : ∀ t, s.next ≤ t → s.code t = []

namespace Formed

theorem moves (h : s.Formed) (hm : s.Moves s') : s'.Formed := by
  constructor <;> rw [hm.data]
  · exact h.shaped
  · exact h.fresh

theorem next (h : s.Formed) (hf : s.Next f) :
    ∃ rest, s.code s.running = f :: rest ∧ Shaped (f :: rest) :=
  ⟨_, (cons_head?_tail hf).symm, cons_head?_tail hf ▸ h.shaped s.running⟩

theorem call (h : s.Formed) (hs : s.Steady) (hnil : s.code s.running = []) :
    (s.push s.running c.code).Formed := by
  refine ⟨fun t ↦ ?_, fun t ht ↦ ?_⟩
  · by_cases heq : t = s.running
    · rw [code_push, heq, update_self, hnil, append_nil]
      exact c.shaped_code
    · rw [code_push, update_of_ne heq]
      exact h.shaped t
  · have hlt := hs.running_lt
    have hle : s.next ≤ t := ht
    rw [code_push, update_of_ne (by omega)]
    exact h.fresh t hle

theorem effect (h : s.Formed) (hs : s.Steady) (hf : s.Next f) : (s.after cfg f).Formed := by
  have hlt := hs.running_lt
  refine ⟨fun t ↦ ?_, fun t ht ↦ ?_⟩
  · by_cases heq : t = s.running
    · subst heq
      rw [code_after_self cfg hlt.ne]
      apply shaped_expansion
      rw [cons_head?_tail hf]
      exact h.shaped _
    · rw [code_after_of_ne cfg hlt.ne heq]
      split
      · cases f with
        | initThread _ entry _ => exact entry.shaped_code
        | _ => exact h.shaped t
      · exact h.shaped t
  · rw [next_after] at ht
    have hle : s.next + f.born.toList.length ≤ t := ht
    rw [code_after_of_ne cfg hlt.ne (by omega)]
    split
    · next heq =>
      have hborn : f.born = none := by
        cases hb : f.born with
        | none => rfl
        | some code =>
          simp only [hb, toList_some, length_singleton] at hle
          omega
      rw [hborn]
      exact h.fresh t (by omega)
    · exact h.fresh t (by omega)

/-- What the thread goes on with after a frame. -/
theorem shaped_tail (h : s.Formed) (hf : s.Next f) :
    (s.code s.running).tail.head?.bind Frame.marks = f.takes ∧
      ∀ g ∈ (s.code s.running).tail.head?, g.top = false := by
  have hshaped := h.shaped s.running
  rw [← cons_head?_tail hf] at hshaped
  exact ⟨hshaped.1, hshaped.2.1⟩

/-- The next frame of another thread is the same, up to the first frame of a new thread. -/
theorem head_after {t : Nat} {g : Frame} (h : s.Formed) (hs : s.Steady) (ht : t ≠ s.running)
    (hg : ∀ success, g ≠ .startProcess success) :
    ((s.after cfg f).code t).head? = some g ↔ (s.code t).head? = some g := by
  rw [code_after_of_ne cfg hs.running_lt.ne ht]
  split
  · next heq =>
    rw [h.fresh t heq.ge]
    cases f with
    | initThread _ entry _ => cases entry <;> simp [Frame.born, Entry.code, Ne.symm (hg _)]
    | _ => rfl
  · rfl

end Formed

/-! ## Raising and lowering -/

/-- The threads that `sema_up` has unblocked and that have not looked at the value again. -/
def onTheWay (s : Sched) (σ : SemaId) (t : Nat) : Bool :=
  (s.code t).head? = some (.redown σ) && t ∉ s.queue (.waiters σ)

/-- The value can be raised without an overflow if the step raises it. -/
def Roomy (σ : SemaId) (s : Sched) : FreeAct → Prop
  | .event .go _ => (s.code s.running).head? = some (.up σ) → s.value σ + 1 < 2 ^ 32
  | _ => True

instance (a : FreeAct) : Decidable (Roomy σ s a) := by
  rcases a with ⟨_ | _ | _, _⟩ | _ <;> unfold Roomy <;> infer_instance

/-- A semaphore that began with the value `init`. -/
structure Balanced (init : Nat) (σ : SemaId) (s : Sched) : Prop where
  formed : s.Formed
  wait : ∀ t ∈ s.queue (.waiters σ), (s.code t).head? = some (.redown σ)
  sum : s.downs σ + s.value σ = init + s.ups σ
  flight : s.queue (.waiters σ) ≠ [] → s.value σ ≤ countBelow s.next (s.onTheWay σ)

namespace Balanced

variable {init : Nat}

section

variable (h : s.Balanced init σ)

include h

theorem moves (hm : s.Moves s') : s'.Balanced init σ := by
  have hqueue := hm.queue (.waiters σ) nofun nofun
  refine ⟨h.formed.moves hm, fun t ht ↦ ?_, ?_, fun hne ↦ ?_⟩
  · rw [hqueue] at ht
    rw [hm.data]
    exact h.wait t ht
  · rw [hm.data]
    exact h.sum
  · rw [hqueue] at hne
    have hway : s'.onTheWay σ = s.onTheWay σ := by
      funext t
      rw [onTheWay, onTheWay, hm.data, hqueue]
    rw [hway, hm.data]
    exact h.flight hne

theorem call (hs : s.Steady)
    (hnil : s.code s.running = []) : (s.push s.running c.code).Balanced init σ := by
  have hhead : c.code.head? ≠ some (.redown σ) := fun hcon ↦ nomatch (c.head_code hcon).1
  have hway : (s.push s.running c.code).onTheWay σ = s.onTheWay σ := by
    funext t
    by_cases ht : t = s.running
    · subst ht
      simp [onTheWay, hnil, hhead]
    · simp only [onTheWay, code_push, update_of_ne ht]
      rfl
  refine ⟨h.formed.call hs hnil, fun t ht ↦ ?_, h.sum, fun hne ↦ hway ▸ h.flight hne⟩
  have hne : t ≠ s.running := fun heq ↦ hs.not_mem _ (heq ▸ ht)
  rw [code_push, update_of_ne hne]
  exact h.wait t ht

theorem wait_after (hs : s.Steady)
    (hf : s.Next f) : ∀ t ∈ (s.after cfg f).queue (.waiters σ),
      ((s.after cfg f).code t).head? = some (.redown σ) := by
  have hold : ∀ t ∈ s.queue (.waiters σ),
      ((s.after cfg f).code t).head? = some (.redown σ) := by
    intro t ht
    have hne : t ≠ s.running := fun heq ↦ hs.not_mem _ (heq ▸ ht)
    exact (h.formed.head_after (g := .redown σ) hs hne nofun).mpr (h.wait t ht)
  intro t ht
  by_cases hraises : f.raises = some σ
  · rw [waiters_after_of_raises cfg hraises] at ht
    exact hold t (mem_of_mem_tail ht)
  by_cases hawaits : f.awaits = some σ ∧ s.value σ = 0
  · rw [waiters_after_of_awaits cfg hawaits.1 hawaits.2, mem_orderedInsert] at ht
    rcases ht with rfl | ht
    · rw [code_after_self cfg hs.running_lt.ne]
      cases f with
      | down τ | redown τ =>
        obtain rfl : τ = σ := some.inj hawaits.1
        simp [expansion, hawaits.2]
      | _ => cases hawaits.1
    · exact hold t ht
  · rw [waiters_after_of_ne cfg (fun hcon hzero ↦ hawaits ⟨hcon, hzero⟩) hraises] at ht
    exact hold t ht

theorem sum_after (hroom : f.raises = some σ → s.value σ + 1 < 2 ^ 32) :
    (s.after cfg f).downs σ + (s.after cfg f).value σ = init + (s.after cfg f).ups σ := by
  have hsum := h.sum
  have hvalue := s.value_after cfg f σ
  have hups := s.ups_after cfg f σ
  have hdowns := s.downs_after cfg f σ
  by_cases hraises : f.raises = some σ
  · have hlowers := (Frame.lowers_of_raises hraises).1
    have := hroom hraises
    simp only [hraises, hlowers, reduceCtorEq, false_and, if_true, if_false] at hvalue hups hdowns
    omega
  · simp only [hraises, if_false] at hvalue hups
    grind -linarith

/-- The threads on their way, if the list of those that wait does not change. -/
theorem le_count_after (hs : s.Steady)
    (hsame : (s.after cfg f).queue (.waiters σ) = s.queue (.waiters σ)) :
    countBelow s.next (s.onTheWay σ) ≤ countBelow (s.after cfg f).next
        ((s.after cfg f).onTheWay σ) + (s.onTheWay σ s.running).toNat := by
  have hcount := countBelow_update_of_le (m := (s.after cfg f).next)
    (p := (s.after cfg f).onTheWay σ) (q := s.onTheWay σ) hs.running_lt
    (by rw [next_after]; exact Nat.le_add_right ..) (fun t ht ↦ ?_) fun t ht ↦ ?_
  · omega
  · simp [onTheWay, h.formed.fresh t ht]
  · simp only [onTheWay, hsame, h.formed.head_after (g := .redown σ) hs ht nofun]

theorem count_after_of_raises {t : Nat} {rest : List Nat} (hs : s.Steady)
    (hf : s.Next (.up σ)) (hqueue : s.queue (.waiters σ) = t :: rest) :
    countBelow (s.after cfg (.up σ)).next ((s.after cfg (.up σ)).onTheWay σ) =
      countBelow s.next (s.onTheWay σ) + 1 := by
  have hmem : t ∈ s.queue (.waiters σ) := hqueue ▸ mem_cons_self
  have hnodup := hs.nodup (.waiters σ)
  rw [hqueue, nodup_cons] at hnodup
  have hqueue' : (s.after cfg (.up σ)).queue (.waiters σ) = rest := by
    rw [waiters_after_of_raises cfg rfl]
    exact congrArg List.tail hqueue
  have hlt : t < s.next := by
    by_contra hle
    have hwait := h.wait t hmem
    rw [h.formed.fresh t (Nat.le_of_not_lt hle)] at hwait
    cases hwait
  have hne : t ≠ s.running := fun heq ↦ hs.not_mem _ (heq ▸ hmem)
  -- The running thread goes on with something else.
  have hself : (s.after cfg (.up σ)).onTheWay σ s.running = false := by
    have hnot : (s.code s.running).tail.head? ≠ some (.redown σ) := by
      intro hg
      cases (h.formed.shaped_tail hf).2 _ hg
    rw [onTheWay, code_after_self cfg hs.running_lt.ne]
    simp only [expansion]
    split
    · rw [nil_append, decide_eq_false hnot, Bool.false_and]
    · simp
  have hcount := countBelow_update_of_le (m := (s.after cfg (.up σ)).next)
    (p := (s.after cfg (.up σ)).onTheWay σ) (q := s.onTheWay σ) hlt
    (by rw [next_after]; exact Nat.le_add_right ..) (fun u hu ↦ ?_) fun u hu ↦ ?_
  · have hbefore : s.onTheWay σ t = false := by simp [onTheWay, hmem]
    have hafter : (s.after cfg (.up σ)).onTheWay σ t = true := by
      simp only [onTheWay, hqueue', h.formed.head_after (g := .redown σ) hs hne (by simp)]
      simp [h.wait t hmem, hnodup.1]
    rw [hbefore, hafter] at hcount
    exact hcount
  · simp [onTheWay, h.formed.fresh u hu]
  · by_cases hrun : u = s.running
    · subst hrun
      rw [hself]
      simp [onTheWay, hf]
    · simp only [onTheWay, hqueue', hqueue, h.formed.head_after (g := .redown σ) hs hrun (by simp)]
      simp [hu]

theorem effect (pick : Option Nat) (hs : s.Steady)
    (hroom : Roomy σ s (.event .go pick)) (hf : s.Next f) : (s.after cfg f).Balanced init σ := by
  have hroom' : f.raises = some σ → s.value σ + 1 < 2 ^ 32 := by
    intro hraises
    cases f with
    | up τ =>
      obtain rfl : τ = σ := some.inj hraises
      exact hroom hf
    | _ => cases hraises
  refine ⟨h.formed.effect hs hf, h.wait_after hs hf, h.sum_after hroom', fun hne ↦ ?_⟩
  have hvalue := s.value_after cfg f σ
  by_cases hraises : f.raises = some σ
  · cases f with
    | up τ =>
      obtain rfl : τ = σ := some.inj hraises
      rw [waiters_after_of_raises cfg rfl] at hne
      rcases hqueue : s.queue (.waiters τ) with - | ⟨t, rest⟩
      · exact absurd (congrArg List.tail hqueue) hne
      · have hflight := h.flight (by simp [hqueue])
        rw [h.count_after_of_raises hs hf hqueue]
        simp only [Frame.lowers, Frame.raises, reduceCtorEq, if_true, if_false] at hvalue
        omega
    | _ => cases hraises
  by_cases hawaits : f.awaits = some σ ∧ s.value σ = 0
  · rw [hvalue, if_pos (Frame.lowers_of_awaits hawaits.1), hawaits.2]
    exact Nat.zero_le _
  · have hsame : (s.after cfg f).queue (.waiters σ) = s.queue (.waiters σ) :=
      waiters_after_of_ne cfg (fun hcon hzero ↦ hawaits ⟨hcon, hzero⟩) hraises
    have hflight := h.flight (hsame ▸ hne)
    have hcount := h.le_count_after hs hsame
    rw [hvalue]
    split
    · have := (s.onTheWay σ s.running).toNat_le
      omega
    · next hlowers =>
      have hnot : s.onTheWay σ s.running = false := by
        simp only [onTheWay, hf, Bool.and_eq_false_imp, decide_eq_true_eq, some.injEq]
        rintro rfl
        exact absurd rfl hlowers
      rw [hnot] at hcount
      simpa [hraises] using hflight.trans hcount

theorem exists_onTheWay (hne : s.queue (.waiters σ) ≠ []) (hpos : 0 < s.value σ) :
    ∃ t, s.onTheWay σ t = true := by
  by_contra hnone
  have hzero : countBelow s.next (s.onTheWay σ) = 0 :=
    countBelow_eq_zero.mpr fun t _ ↦ by simpa using fun hcon ↦ hnone ⟨t, hcon⟩
  have := h.flight hne
  omega

end

end Balanced

theorem balanced_boot (value : Nat → Nat) (σ : SemaId) :
    (boot value).Balanced ((boot value).value σ) σ := by
  refine ⟨⟨fun t ↦ ?_, fun t ht ↦ ?_⟩, fun t ht ↦ ?_, Nat.add_comm .., fun hne ↦ ?_⟩
  · simp only [boot]
    split
    · simp [Shaped, Frame.takes, Frame.last, Frame.plain]
    · split <;> simp [Shaped, Frame.takes, Frame.last, Frame.plain]
  · have hlt : 2 ≤ t := ht
    simp only [boot]
    grind -linarith
  · simp only [boot] at ht ⊢
    grind -linarith
  · simp only [boot] at hne ⊢
    grind -linarith

/-- **Semaphores neither lose nor invent wake-ups.**  For any threads that raise and lower a
semaphore in any order, as long as its value does not overflow and `thread_unblock` is called only
for a thread that has called `thread_block`: the lowerings that are completed and
the value add up to the first value and the raisings; and while threads wait, the value is not
greater than the number of those that have been unblocked and have not tested it again. -/
theorem wakeups_kept {value : Nat → Nat} {as : List FreeAct} (σ : SemaId)
    (hmeets : Run.Meets (freeStep cfg) (fun s a ↦ s.UnblocksParked a ∧ Roomy σ s a) (boot value) as)
    (hrun : Run.run (freeStep cfg) (boot value) as = some s) :
    s.downs σ + s.value σ = (boot value).value σ + s.ups σ ∧
    (s.queue (.waiters σ) ≠ [] → s.value σ ≤ countBelow s.next (s.onTheWay σ)) ∧
    (s.queue (.waiters σ) ≠ [] → 0 < s.value σ → ∃ t, s.onTheWay σ t = true) := by
  obtain ⟨-, h⟩ := (kept_boot value).invariant (I := Balanced ((boot value).value σ) σ)
    And.left Balanced.moves (fun hk h _ hnil ↦ h.call hk.steady hnil)
    (fun hk h hC hf _ ↦ h.effect _ hk.steady hC.2 hf) (balanced_boot value σ) hmeets hrun
  exact ⟨h.sum, h.flight, h.exists_onTheWay⟩

/-- The second thread waits for a semaphore, and the main thread raises it: the second thread is on
its way, and the value is one. -/
theorem wakeups_kept_waiter : ∃ s, Run.run (freeStep ⟨true, false, false, id⟩) (boot fun _ ↦ 0)
      (spawn ++ [FreeAct.event (.call (.semaDown 0)) none, FreeAct.event .go none,
        FreeAct.event (.call (.semaUp 0)) none, FreeAct.event .go none]) = some s ∧
    s.running = initialThread ∧ s.value (.sema 0) = 1 ∧ s.onTheWay (.sema 0) 2 = true ∧
    s.downs (.sema 0) + s.value (.sema 0) = (boot fun _ ↦ 0).value (.sema 0) + s.ups (.sema 0) := by
  refine Run.exists_of_view (fun s ↦ (s.running, s.value (.sema 0), s.onTheWay (.sema 0) 2))
    (initialThread, 1, true) (by decide +kernel) fun s hrun heval ↦ ?_
  simp only [Prod.mk.injEq] at heval
  exact ⟨heval.1, heval.2.1, heval.2.2, (wakeups_kept (.sema 0) (by decide +kernel) hrun).1⟩

/-- The value is as large as it can be, and the main thread raises it. -/
theorem wakeup_lost : ∃ s, Run.run (freeStep ⟨true, false, false, id⟩) (boot fun _ ↦ 2 ^ 32 - 1)
      [.event .go none, .event (.call .block) none, .event .go none, .event .go none,
        .event (.call (.semaUp 0)) none, .event .go none] = some s ∧
    s.downs (.sema 0) + s.value (.sema 0) ≠
      (boot fun _ ↦ 2 ^ 32 - 1).value (.sema 0) + s.ups (.sema 0) := by
  refine Run.exists_of_view (fun s ↦ (s.downs (.sema 0), s.value (.sema 0), s.ups (.sema 0)))
    (0, 0, 1) (by decide +kernel) fun s _ heval ↦ ?_
  simp only [Prod.mk.injEq] at heval
  rw [heval.1, heval.2.1, heval.2.2]
  decide

end Sched

end Pintos
