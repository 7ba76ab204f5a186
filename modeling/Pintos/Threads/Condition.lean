import Pintos.Threads.Lock

/-!
# Condition variables

A call of `cond_wait` sleeps on a semaphore of its own, which whoever signals the call raises once.
The semaphore remembers this if the call has not got to it yet.  The calls are signalled in the
order in which they were made, and not in that of the priorities (`Sched.cond_signal_highest_iff`).
-/

set_option autoImplicit false

namespace Pintos

open List Option

/-- A frame lowers the semaphore of a call of `cond_wait`. -/
def Frame.passes (call : Nat) : Frame → Bool
  | .down (.waiter n) | .redown (.waiter n) => n = call
  | _ => false

theorem Frame.lowers_iff_passes {f : Frame} {call : Nat} (h : f.plain = true) :
    f.lowers = some (.waiter call) ↔ f.passes call = true := by
  cases f with
  | down σ | redown σ => cases σ <;> simp [Frame.lowers, Frame.passes]
  | tryDown σ =>
    cases σ with
    | sema _ => exact iff_of_false (by rintro ⟨⟩) (by rintro ⟨⟩)
    | _ => cases h
  | _ => exact iff_of_false (by rintro ⟨⟩) (by rintro ⟨⟩)

namespace Sched

variable {cfg : Config} {s s' : Sched} {f : Frame} {c call t : Nat}

/-! ## The calls -/

/-- The calls of `cond_wait` that wait, and those that have been signalled. -/
structure Called (s : Sched) : Prop where
  on : ∀ c call, call ∈ s.signalled c ++ s.cond c → call < s.nextCall ∧ s.callOn call = c
  nodup : ∀ c, (s.signalled c ++ s.cond c).Nodup

theorem Called.after (h : s.Called) : (s.after cfg f).Called := by
  have hnew : ∀ c, s.nextCall ∉ s.signalled c ++ s.cond c := fun c hmem ↦
    Nat.lt_irrefl _ (h.on c _ hmem).1
  have hperm : ∀ c, ((s.after cfg f).signalled c ++ (s.after cfg f).cond c).Perm
      (s.signalled c ++ s.cond c ++ if f.waits = some c then [s.nextCall] else []) := by
    intro c
    rw [signalled_after, cond_after]
    by_cases hwait : f = .condWait c
    · subst hwait
      simp [Frame.waits]
    by_cases hsignal : f = .condSignal c
    · subst hsignal
      rcases hcond : s.cond c with - | ⟨call, rest⟩
      · simp [Frame.waits]
      · simp [Frame.waits, perm_middle.symm]
    · have hne : f.waits ≠ some c := by
        intro hcon
        cases f with
        | condWait d => exact hwait (by rw [some.inj hcon])
        | _ => cases hcon
      simp [hwait, hsignal, hne]
  refine ⟨fun c call hmem ↦ ?_, fun c ↦ ?_⟩
  · rw [(hperm c).mem_iff, mem_append] at hmem
    rw [nextCall_after, callOn_after]
    rcases hmem with hmem | hmem
    · have hon := h.on c call hmem
      exact ⟨by omega, by rw [if_neg (by omega)]; exact hon.2⟩
    · split at hmem
      · next hwaits =>
        rw [mem_singleton.mp hmem, if_pos rfl, hwaits]
        exact ⟨Nat.lt_succ_self _, rfl⟩
      · cases hmem
  · rw [(hperm c).nodup_iff]
    split
    · rw [nodup_append_comm]
      exact nodup_cons.mpr ⟨hnew c, h.nodup c⟩
    · simpa using h.nodup c

theorem Called.moves (h : s.Called) (hm : s.Moves s') : s'.Called := by
  constructor <;> rw [hm.data]
  · exact h.on
  · exact h.nodup

/-! ## The semaphore of a call -/

/-- How many frames pass the semaphore of a call, after a frame of the running thread. -/
theorem countP_expansion (cfg : Config) (s : Sched) (call cur : Nat) (f : Frame) :
    (s.expansion cfg cur f).countP (Frame.passes call) +
        (if f.passes call = true ∧ s.value (.waiter call) ≠ 0 then 1 else 0) =
      (if f.passes call = true then 1 else 0) +
        if f.waits.isSome ∧ call = s.nextCall then 1 else 0 := by
  cases f with
  | down σ | redown σ =>
    simp only [expansion, Frame.waits, isSome_none, Bool.false_eq_true, false_and, if_false]
    cases σ with
    | waiter n =>
      by_cases hn : n = call
      · subst hn
        split <;> simp_all [Frame.passes]
      · split <;> simp [Frame.passes, hn]
    | _ => split <;> simp [Frame.passes]
  | condWait c =>
    by_cases hcall : call = s.nextCall
    · simp [expansion, Frame.passes, Frame.waits, hcall]
    · simp [expansion, Frame.passes, Frame.waits, hcall, Ne.symm hcall]
  | _ =>
    simp only [expansion]
    repeat' split
    all_goals simp [Frame.passes, Frame.waits] at *

/-- What is kept about a call of `cond_wait`. -/
structure Signalling (call : Nat) (s : Sched) : Prop where
  balanced : s.Balanced 0 (.waiter call)
  once : s.downs (.waiter call) ≤ 1
  passes : ∀ t, (s.code t).countP (Frame.passes call) =
    if t = s.caller call ∧ call < s.nextCall then 1 - s.downs (.waiter call) else 0
  raised : s.ups (.waiter call) + s.heads (.up (.waiter call)) =
    if call ∈ s.signalled (s.callOn call) then 1 else 0

/-- Only who has signalled a call goes on to raise its semaphore. -/
theorem head_after_up_waiter (cfg : Config) (call : Nat) (h : s.Formed) (hs : s.Steady)
    (hf : s.Next f) : ((s.after cfg f).code s.running).head? = some (.up (.waiter call)) ↔
      ∃ c, f = .condSignal c ∧ (s.cond c).head? = some call := by
  obtain ⟨rest, hcode, hshaped⟩ := h.next hf
  have hrest : rest.head? ≠ some (.up (.waiter call)) := fun hr ↦ by cases hshaped.2.1 _ hr
  rw [code_after_self cfg hs.running_lt.ne, hcode, tail_cons]
  cases f with
  | condSignal c =>
    simp only [expansion]
    split
    · next hcond => simp [hrest, hcond]
    · next hcond => simp [hcond]
  | _ =>
    refine iff_of_false ?_ (by simp)
    simp only [expansion]
    repeat' split
    all_goals simp [hrest]

namespace Signalling

section

variable (h : s.Signalling call)

include h

theorem moves (hm : s.Moves s') : s'.Signalling call := by
  refine ⟨h.balanced.moves hm, ?_, ?_, ?_⟩
  · rw [hm.data]
    exact h.once
  · rw [hm.data]
    exact h.passes
  · rw [heads, hm.data]
    exact h.raised

theorem push {c : ThreadCall} (hs : s.Steady)
    (hnil : s.code s.running = []) : (s.push s.running c.code).Signalling call := by
  refine ⟨h.balanced.call hs hnil, h.once, fun t ↦ ?_, ?_⟩
  · have hnone : c.code.countP (Frame.passes call) = 0 := by
      cases c with
      | create memory _ _ | exec memory _ => cases memory <;> rfl
      | _ => rfl
    refine Eq.trans ?_ (h.passes t)
    rw [code_push]
    by_cases ht : t = s.running
    · rw [ht, Function.update_self, countP_append, hnone, Nat.zero_add]
    · rw [Function.update_of_ne ht]
  · rw [heads_call (.inl rfl) hnil]
    exact h.raised

/-- Nothing has been done to the semaphore of a call that has not been signalled. -/
theorem unraised (hcall : call ∉ s.signalled (s.callOn call)) :
    s.ups (.waiter call) = 0 ∧ s.value (.waiter call) = 0 ∧ s.downs (.waiter call) = 0 := by
  have hraised := h.raised
  have hsum := h.balanced.sum
  rw [if_neg hcall] at hraised
  omega

theorem value_of_up (hs : s.Steady)
    (hf : s.Next (.up (.waiter call))) : s.value (.waiter call) = 0 := by
  have hpos : 0 < s.heads (.up (.waiter call)) := heads_pos hs hf
  have hraised := h.raised
  have hsum := h.balanced.sum
  split at hraised <;> omega

section

variable (hf : s.Next f)

include hf

/-- The running thread passes the semaphore of a call: it is the one that made the call, and it has
not passed it before. -/
theorem caller_of_passes (hpasses : f.passes call = true) :
    s.running = s.caller call ∧ call < s.nextCall ∧ s.downs (.waiter call) = 0 := by
  have hcount := h.passes s.running
  rw [← cons_head?_tail hf, countP_cons, if_pos hpasses] at hcount
  split at hcount <;> omega

theorem plain_head : f.plain = true := by
  obtain ⟨_, -, hshaped⟩ := h.balanced.formed.next hf
  exact hshaped.2.2.1

theorem downs_waiter_after : (s.after cfg f).downs (.waiter call) = s.downs (.waiter call) +
      if f.passes call = true ∧ s.value (.waiter call) ≠ 0 then 1 else 0 := by
  rw [downs_after]
  simp only [Frame.lowers_iff_passes (h.plain_head hf)]
  split <;> rfl

theorem once_after : (s.after cfg f).downs (.waiter call) ≤ 1 := by
  rw [h.downs_waiter_after hf]
  split
  · next hpasses => rw [(h.caller_of_passes hf hpasses.1).2.2]
  · exact h.once

end

end

theorem count_after_self (cfg : Config) (call : Nat) (hs : s.Steady)
    (hf : s.Next f) : ((s.after cfg f).code s.running).countP (Frame.passes call) +
        (if f.passes call = true ∧ s.value (.waiter call) ≠ 0 then 1 else 0) =
      (s.code s.running).countP (Frame.passes call) +
        if f.waits.isSome ∧ call = s.nextCall then 1 else 0 := by
  have hexp := countP_expansion cfg s call s.running f
  have hcons : (s.code s.running).countP (Frame.passes call) =
      (s.code s.running).tail.countP (Frame.passes call) +
        if f.passes call = true then 1 else 0 := by
    conv_lhs => rw [← cons_head?_tail hf, countP_cons]
  rw [code_after_self cfg hs.running_lt.ne, countP_append]
  omega

section

variable (h : s.Signalling call)

include h

theorem count_after_of_ne (cfg : Config) (f : Frame) (hs : s.Steady)
    (ht : t ≠ s.running) : ((s.after cfg f).code t).countP (Frame.passes call) =
      (s.code t).countP (Frame.passes call) := by
  rw [code_after_of_ne cfg hs.running_lt.ne ht]
  split
  · next hnext =>
    rw [h.balanced.formed.fresh t hnext.ge]
    cases f with
    | initThread _ entry _ => cases entry <;> rfl
    | _ => rfl
  · rfl

theorem passes_after (hc : s.Called) (hs : s.Steady)
    (hf : s.Next f) (t : Nat) : ((s.after cfg f).code t).countP (Frame.passes call) =
      if t = (s.after cfg f).caller call ∧ call < (s.after cfg f).nextCall
      then 1 - (s.after cfg f).downs (.waiter call) else 0 := by
  have hself := count_after_self cfg call hs hf
  have hother := h.count_after_of_ne cfg f hs (t := t)
  have hold := h.passes t
  have hpasses := h.caller_of_passes hf
  rw [caller_after, nextCall_after, h.downs_waiter_after hf]
  by_cases hnew : f.waits.isSome ∧ call = s.nextCall
  · -- The call begins.
    have hzero : s.downs (.waiter call) = 0 :=
      (h.unraised fun hmem ↦ Nat.lt_irrefl s.nextCall
        (hnew.2 ▸ (hc.on _ _ (mem_append_left _ hmem)).1)).2.2
    obtain ⟨c, hwaits⟩ := isSome_iff_exists.mp hnew.1
    rw [if_pos hnew, hwaits, toList_some, length_singleton]
    grind -linarith
  · have hlt : call < s.nextCall + f.waits.toList.length ↔ call < s.nextCall := by
      cases hwaits : f.waits with
      | none => simp
      | some c =>
        have : call ≠ s.nextCall := fun hcon ↦ hnew ⟨by rw [hwaits]; rfl, hcon⟩
        simp only [toList_some, length_singleton]
        omega
    rw [if_neg hnew] at hself ⊢
    simp only [hlt]
    grind -linarith

theorem raised_after (hc : s.Called) (hs : s.Steady) (hf : s.Next f) :
    (s.after cfg f).ups (.waiter call) + (s.after cfg f).heads (.up (.waiter call)) =
      if call ∈ (s.after cfg f).signalled ((s.after cfg f).callOn call) then 1 else 0 := by
  have hraised := h.raised
  have hheads := heads_after cfg (g := .up (.waiter call)) h.balanced.formed hs hf nofun
  have hups : (s.after cfg f).ups (.waiter call) =
      s.ups (.waiter call) + (decide (f = .up (.waiter call))).toNat := by
    rw [ups_after]
    cases f with
    | up σ => by_cases hσ : σ = .waiter call <;> simp [Frame.raises, hσ]
    | _ => rfl
  have hiff := head_after_up_waiter cfg call h.balanced.formed hs hf
  by_cases hsignal : ∃ c, f = .condSignal c ∧ (s.cond c).head? = some call
  · -- The call is signalled now, and it has not been before.
    rw [decide_eq_true (hiff.mpr hsignal)] at hheads
    obtain ⟨c, rfl, hhead⟩ := hsignal
    have hmem : call ∈ s.cond c := mem_of_mem_head? hhead
    obtain ⟨hlt, hon⟩ := hc.on c call (mem_append_right _ hmem)
    have hnot : call ∉ s.signalled c := fun hcon ↦
      (nodup_append.mp (hc.nodup c)).2.2 call hcon call hmem rfl
    rw [hon, if_neg hnot] at hraised
    have hnow : call ∈ (s.after cfg (.condSignal c)).signalled
        ((s.after cfg (.condSignal c)).callOn call) := by
      rw [callOn_after, if_neg (Nat.ne_of_lt hlt), hon, signalled_after, if_pos rfl, hhead]
      exact mem_cons_self
    rw [if_pos hnow]
    simp only [reduceCtorEq, decide_false, Bool.toNat_false, Bool.toNat_true] at hheads hups
    omega
  · rw [decide_eq_false (mt hiff.mp hsignal), Bool.toNat_false] at hheads
    have hsame : call ∈ (s.after cfg f).signalled ((s.after cfg f).callOn call) ↔
        call ∈ s.signalled (s.callOn call) := by
      have hiff : ∀ d, call ∈ (s.after cfg f).signalled d ↔ call ∈ s.signalled d := by
        intro d
        rw [signalled_after]
        split
        · next hd =>
          have hhead : (s.cond d).head? ≠ some call := fun hcon ↦ hsignal ⟨d, hd, hcon⟩
          simp [hhead]
        · rfl
      rw [hiff, callOn_after]
      split
      · next heq =>
        have hnew : ∀ d, call ∉ s.signalled d := fun d hmem ↦
          Nat.ne_of_lt (hc.on d call (mem_append_left _ hmem)).1 heq
        exact iff_of_false (hnew _) (hnew _)
      · rfl
    simp only [hsame]
    omega

theorem after (hc : s.Called) (hs : s.Steady)
    (hf : s.Next f) : (s.after cfg f).Signalling call := by
  refine ⟨h.balanced.effect none hs (fun hup ↦ ?_) hf, h.once_after hf,
    h.passes_after hc hs hf, h.raised_after hc hs hf⟩
  rw [h.value_of_up hs hup]
  decide

/-- A thread that waits on the semaphore of a call has made the call. -/
theorem caller_of_redown
    (hf : (s.code t).head? = some (.redown (.waiter call))) : t = s.caller call := by
  have hcount := h.passes t
  rw [← cons_head?_tail hf, countP_cons, if_pos (by simp [Frame.passes])] at hcount
  split at hcount
  · next hcaller => exact hcaller.1
  · omega

/-- Once the semaphore of a call has been raised, nobody sleeps on it. -/
theorem waiters_nil (hpos : 0 < s.value (.waiter call)) :
    s.queue (.waiters (.waiter call)) = [] := by
  by_contra hne
  obtain ⟨u, hu⟩ := exists_mem_of_ne_nil _ hne
  have hzero : countBelow s.next (s.onTheWay (.waiter call)) = 0 := by
    refine countBelow_eq_zero.mpr fun t _ ↦ Bool.eq_false_iff.mpr fun hway ↦ ?_
    simp only [onTheWay, Bool.and_eq_true, decide_eq_true_eq] at hway
    have heq : t = u := (h.caller_of_redown hway.1).trans
      (h.caller_of_redown (h.balanced.wait u hu)).symm
    exact hway.2 (heq ▸ hu)
  have := h.balanced.flight hne
  omega

end

end Signalling

/-- What is kept about all condition variables and their locks. -/
structure Conditioned (cfg : Config) (s : Sched) : Prop where
  called : s.Called
  signalling : ∀ call, s.Signalling call
  locked : ∀ l, s.Locked cfg l

namespace Conditioned

theorem moves (h : s.Conditioned cfg) (hm : s.Moves s') : s'.Conditioned cfg :=
  ⟨h.called.moves hm, fun call ↦ (h.signalling call).moves hm, fun l ↦ (h.locked l).moves hm⟩

theorem push {c : ThreadCall} {pick : Option Nat} (h : s.Conditioned cfg) (hs : s.Steady)
    (hdisc : Disciplined cfg s (.event (.call c) pick)) (hnil : s.code s.running = []) :
    (s.push s.running c.code).Conditioned cfg :=
  ⟨⟨h.called.on, h.called.nodup⟩, fun call ↦ (h.signalling call).push hs hnil,
    fun l ↦ (h.locked l).call hs hdisc hnil⟩

theorem after (h : s.Conditioned cfg) (hs : s.Steady) (hf : s.Next f)
    (hsafe : s.safe cfg s.running f = true) : (s.after cfg f).Conditioned cfg :=
  ⟨h.called.after, fun call ↦ (h.signalling call).after h.called hs hf,
    fun l ↦ (h.locked l).after hs hf hsafe⟩

end Conditioned

theorem conditioned_boot (cfg : Config) (value : Nat → Nat) : (boot value).Conditioned cfg := by
  refine ⟨⟨by intros; contradiction, fun _ ↦ nodup_nil⟩,
    fun call ↦ ⟨balanced_boot value (.waiter call),
    Nat.zero_le _, fun t ↦ ?_, ?_⟩, locked_boot cfg value⟩
  · rw [if_neg fun hcon ↦ Nat.not_lt_zero _ hcon.2]
    simp only [boot]
    repeat' split
    all_goals rfl
  · have hheads : (boot value).heads (.up (.waiter call)) = 0 := by
      refine countBelow_eq_zero.mpr fun t _ ↦ ?_
      simp only [boot]
      grind -linarith
    rw [hheads, if_neg (by rintro ⟨⟩)]
    rfl

/-! ## Broadcasting -/

/-- A thread is in the loop of `cond_broadcast`. -/
def Broadcasting (t c : Nat) (s : Sched) : Prop := .condBroadcast c ∈ s.code t

instance : Decidable (Broadcasting t c s) := inferInstanceAs (Decidable (_ ∈ s.code t))

/-- A step of thread `t` itself. -/
def Own (t : Nat) (s : Sched) : FreeAct → Prop
  | .event .go _ => s.running = t
  | _ => False

instance (a : FreeAct) : Decidable (Own t s a) := by
  rcases a with ⟨_ | _ | _, _⟩ | _ <;> unfold Own <;> infer_instance

/-- What a thread may be doing in the loop, while a number of calls wait. -/
inductive Round (c waiting : Nat) : List Frame → Prop
  | test : Round c waiting [.condBroadcast c]
  | signal (h : 0 < waiting) : Round c waiting [.condSignal c, .condBroadcast c]
  | up (call : Nat) : Round c waiting [.up (.waiter call), .condBroadcast c]
  | yield : Round c waiting [.yield, .condBroadcast c]
  | done (h : waiting = 0) : Round c waiting []

/-- How many steps the thread takes at most. -/
def stepsLeft (waiting : Nat) : List Frame → Nat
  | [.condBroadcast _] => 4 * waiting + 1
  | [.condSignal _, _] => 4 * waiting
  | [.up _, _] => 4 * waiting + 3
  | [.yield, _] => 4 * waiting + 2
  | _ => 0

/-- Of the calls that waited, thread `t` has signalled the first ones. -/
structure Looping (cfg : Config) (t c : Nat) (waiting before : List Nat) (s : Sched) : Prop where
  conditioned : s.Conditioned cfg
  round : Round c (s.cond c).length (s.code t)
  signalled : ∃ done, waiting = done ++ s.cond c ∧ s.signalled c = done.reverse ++ before

namespace Looping

variable {waiting before : List Nat}

theorem moves (h : s.Looping cfg t c waiting before) (hm : s.Moves s') :
    s'.Looping cfg t c waiting before := by
  refine ⟨h.conditioned.moves hm, ?_, ?_⟩ <;> rw [hm.data]
  · exact h.round
  · exact h.signalled

/-- The thread has the lock. -/
theorem has (h : s.Looping cfg t c waiting before) (ht : s.Broadcasting t c) :
    s.has (.lock (cfg.lockOf c)) t = true := by
  obtain ⟨b, hafter, -⟩ := (h.conditioned.locked (.lock (cfg.lockOf c))).lawful t
  have hround := h.round
  generalize s.has (.lock (cfg.lockOf c)) t = held at hafter ⊢
  generalize hcode : s.code t = code at hafter hround
  cases hround with
  | test | signal _ | up _ | yield =>
    cases held
    · simp [lockStep, Frame.onLock] at hafter
    · rfl
  | done _ =>
    rw [Broadcasting, hcode] at ht
    cases ht

/-- A step of another thread. -/
theorem other (h : s.Looping cfg t c waiting before) (hs : s.Steady) (ht : s.Broadcasting t c)
    (hne : t ≠ s.running) (hf : s.Next f) (hsafe : s.safe cfg s.running f = true) :
    (s.after cfg f).Looping cfg t c waiting before ∧ (s.after cfg f).code t = s.code t ∧
      (s.after cfg f).cond c = s.cond c := by
  have hlock := h.conditioned.locked (.lock (cfg.lockOf c))
  -- It does not have the lock.
  have hlacks : ∀ p, f.onLock cfg (.lock (cfg.lockOf c)) = some p → p.1 = false := by
    intro p hp
    have hhas := hlock.has_of_head hf hp
    cases hfst : p.1 with
    | false => rfl
    | true =>
      rw [hfst] at hhas
      exact absurd (some.inj (((hlock.owner _).mp (h.has ht)).symm.trans
        ((hlock.owner _).mp hhas))) hne
  have hwait : f ≠ .condWait c := by
    rintro rfl
    cases hlacks (true, true) (if_pos rfl)
  have hsignal : f ≠ .condSignal c := by
    rintro rfl
    cases hlacks (true, true) (if_pos rfl)
  have hcode : (s.after cfg f).code t = s.code t := by
    rw [code_after_of_ne cfg hs.running_lt.ne hne]
    refine ite_eq_right_iff.mpr fun hnext ↦ ?_
    rw [Broadcasting, hlock.formed.fresh t hnext.ge] at ht
    cases ht
  have hcond : (s.after cfg f).cond c = s.cond c := by
    rw [cond_after, if_neg hwait, if_neg hsignal]
  refine ⟨⟨h.conditioned.after hs hf hsafe, ?_, ?_⟩, hcode, hcond⟩
  · rw [hcode, hcond]
    exact h.round
  · rw [hcond, signalled_after, if_neg hsignal]
    exact h.signalled

/-- A step of the thread itself. -/
theorem own (h : s.Looping cfg s.running c waiting before) (hs : s.Steady)
    (hf : s.Next f) (hsafe : s.safe cfg s.running f = true) :
    (s.after cfg f).Looping cfg s.running c waiting before ∧
      stepsLeft ((s.after cfg f).cond c).length ((s.after cfg f).code s.running) <
        stepsLeft (s.cond c).length (s.code s.running) := by
  have hround := h.round
  have hcode := code_after_self (s := s) (f := f) cfg hs.running_lt.ne
  have hconditioned := h.conditioned.after hs hf hsafe
  have hcond : f ≠ .condWait c → f ≠ .condSignal c → (s.after cfg f).cond c = s.cond c := by
    intro hwait hsignal
    rw [cond_after, if_neg hwait, if_neg hsignal]
  have hkeep : f ≠ .condWait c → f ≠ .condSignal c → ∃ done,
      waiting = done ++ (s.after cfg f).cond c ∧
        (s.after cfg f).signalled c = done.reverse ++ before := by
    intro hwait hsignal
    rw [hcond hwait hsignal, signalled_after, if_neg hsignal]
    exact h.signalled
  unfold Next at hf
  generalize hold : s.code s.running = code at hround hf hcode
  cases hround with
  | test =>
    obtain rfl := some.inj hf
    have hcond := hcond (by rintro ⟨⟩) (by rintro ⟨⟩)
    simp only [expansion, tail_cons, append_nil] at hcode
    split at hcode
    · next hnil =>
      refine ⟨⟨hconditioned, ?_, hkeep (by rintro ⟨⟩) (by rintro ⟨⟩)⟩, ?_⟩
      · rw [hcode, hcond, hnil]
        exact .done rfl
      · rw [hcode]
        exact Nat.succ_pos _
    · next hnil =>
      refine ⟨⟨hconditioned, ?_, hkeep (by rintro ⟨⟩) (by rintro ⟨⟩)⟩, ?_⟩
      · rw [hcode, hcond]
        exact .signal (length_pos_iff.mpr hnil)
      · rw [hcode, hcond]
        exact Nat.lt_succ_self _
  | signal hpos =>
    obtain rfl := some.inj hf
    obtain ⟨call, rest, hlist⟩ := exists_cons_of_length_pos hpos
    have hcond : (s.after cfg (.condSignal c)).cond c = rest := by
      rw [cond_after, if_neg (by rintro ⟨⟩), if_pos rfl, hlist, tail_cons]
    simp only [expansion, hlist, tail_cons, singleton_append] at hcode
    refine ⟨⟨hconditioned, ?_, ?_⟩, ?_⟩
    · rw [hcode]
      exact .up call
    · obtain ⟨done, hwaiting, hsignalled⟩ := h.signalled
      refine ⟨done ++ [call], ?_, ?_⟩
      · rw [hcond, hwaiting, hlist, append_assoc, singleton_append]
      · rw [signalled_after, if_pos rfl, hlist, hsignalled, reverse_append]
        rfl
    · rw [hcode, hcond, hlist, length_cons]
      simp only [stepsLeft]
      omega
  | up call =>
    obtain rfl := some.inj hf
    have hcond := hcond (by rintro ⟨⟩) (by rintro ⟨⟩)
    simp only [expansion, tail_cons] at hcode
    split at hcode
    · refine ⟨⟨hconditioned, ?_, hkeep (by rintro ⟨⟩) (by rintro ⟨⟩)⟩, ?_⟩
      · rw [hcode]
        exact .test
      · rw [hcode, hcond]
        simp only [nil_append, stepsLeft]
        omega
    · refine ⟨⟨hconditioned, ?_, hkeep (by rintro ⟨⟩) (by rintro ⟨⟩)⟩, ?_⟩
      · rw [hcode]
        exact .yield
      · rw [hcode, hcond]
        simp only [singleton_append, stepsLeft]
        omega
  | yield =>
    obtain rfl := some.inj hf
    have hcond := hcond (by rintro ⟨⟩) (by rintro ⟨⟩)
    simp only [expansion, tail_cons, nil_append] at hcode
    refine ⟨⟨hconditioned, ?_, hkeep (by rintro ⟨⟩) (by rintro ⟨⟩)⟩, ?_⟩
    · rw [hcode]
      exact .test
    · rw [hcode, hcond]
      exact Nat.lt_succ_self _
  | done _ => cases hf

/-- One step. -/
theorem step {a : FreeAct} (h : s.Looping cfg t c waiting before) (hk : s.Kept)
    (ht : s.Broadcasting t c) (hdisc : Disciplined cfg s a) (hstep : s.freeStep cfg a = some s') :
    s'.Looping cfg t c waiting before ∧
      (if Own t s a then 1 else 0) + stepsLeft (s'.cond c).length (s'.code t) ≤
        stepsLeft (s.cond c).length (s.code t) := by
  by_cases hown : Own t s a
  · cases a with
    | event e pick =>
      cases e with
      | go =>
        obtain rfl : s.running = t := hown
        obtain ⟨f, hf⟩ : ∃ f, s.Next f := by
          cases hcode : s.code s.running with
          | nil =>
            rw [Broadcasting, hcode] at ht
            cases ht
          | cons f _ => exact ⟨f, congrArg head? hcode⟩
        obtain ⟨hsafe, hperform⟩ := freeStep_go hf hstep
        have hm := Moves.perform hperform
        obtain ⟨hloop, hlt⟩ := h.own hk.steady hf hsafe
        refine ⟨hloop.moves hm, ?_⟩
        have hown : Own s.running s (.event .go pick) := rfl
        rw [if_pos hown, hm.data]
        omega
      | call _ | timer => cases hown
    | preempt _ => cases hown
  · rw [if_neg hown, Nat.zero_add]
    rcases freeStep_cases hstep with rfl | ⟨call, pick, hnil, -, rfl, rfl⟩ |
      ⟨f, pick, hf, hsafe, rfl, hperform⟩ | ⟨hm, -⟩
    · exact ⟨h, Nat.le_refl _⟩
    · have hne : t ≠ s.running := by
        rintro rfl
        rw [Broadcasting, hnil] at ht
        cases ht
      have hcode : (s.push s.running call.code).code t = s.code t := Function.update_of_ne hne ..
      refine ⟨⟨h.conditioned.push hk.steady hdisc hnil, ?_, h.signalled⟩, ?_⟩
      · rw [hcode]
        exact h.round
      · rw [hcode]
        exact Nat.le_refl _
    · have hm := Moves.perform hperform
      obtain ⟨hloop, hcode, hcond⟩ := h.other hk.steady ht (fun heq ↦ hown heq.symm) hf hsafe
      refine ⟨hloop.moves hm, ?_⟩
      rw [hm.data, hcode, hcond]
    · refine ⟨h.moves hm, ?_⟩
      rw [hm.data]

/-- No assertion stops the thread. -/
theorem safe (h : s.Looping cfg t c waiting before) (ht : s.Broadcasting t c)
    (hf : (s.code t).head? = some f) : s.safe cfg t f = true := by
  have hround := h.round
  have hholder := ((h.conditioned.locked _).owner t).mp (h.has ht)
  generalize s.code t = code at hround hf
  cases hround with
  | signal _ =>
    obtain rfl := some.inj hf
    simpa [Sched.safe] using hholder
  | test | up _ | yield =>
    obtain rfl := some.inj hf
    rfl
  | done _ => cases hf

theorem of_run {bs : List FreeAct} (h : s.Looping cfg t c waiting before) (hk : s.Kept)
    (hmeets : Run.Meets (freeStep cfg) (fun s a ↦ Disciplined cfg s a ∧ s.Broadcasting t c) s bs)
    (hrun : Run.run (freeStep cfg) s bs = some s') : s'.Looping cfg t c waiting before ∧
      Run.count (freeStep cfg) (Own t) s bs ≤ stepsLeft (s.cond c).length (s.code t) := by
  have hstep : ∀ s a s', s.Kept ∧ s.Looping cfg t c waiting before →
      Disciplined cfg s a ∧ s.Broadcasting t c → s.freeStep cfg a = some s' →
      (s'.Kept ∧ s'.Looping cfg t c waiting before) ∧
        (if Own t s a then 1 else 0) + stepsLeft (s'.cond c).length (s'.code t) ≤
          stepsLeft (s.cond c).length (s.code t) := by
    rintro s a s' ⟨hk, h⟩ ⟨hdisc, ht⟩ hstep
    obtain ⟨hloop, hle⟩ := h.step hk ht hdisc hstep
    exact ⟨⟨hk.step hdisc.unblocksParked hstep, hloop⟩, hle⟩
  refine ⟨(Run.invariant (fun s a s' hI hC hs ↦ (hstep s a s' hI hC hs).1) ⟨hk, h⟩ hmeets hrun).2,
    ?_⟩
  exact Nat.le_of_add_right_le (Run.count_add_le hstep ⟨hk, h⟩ hmeets hrun)

end Looping

/-- **Condition variables neither lose nor duplicate signals.**  For any threads that use them with
their locks, whatever runs in between:
* `cond_signal` signals the first call that waits, if there is one, and no call is signalled twice;
* the semaphore of a call that has been signalled has been passed by it, or has the value one, or is
  about to be raised: in the second case nobody sleeps on it, and the thread that made the call has
  still to pass it;
* a call passes its semaphore once at most, and only if it has been signalled;
* `cond_broadcast` ends after a bounded number of steps of its own, without a failed assertion, and
  signals exactly the calls that waited when it started. -/
theorem signals_kept {value : Nat → Nat} {as : List FreeAct}
    (hdisc : Run.Meets (freeStep cfg) (Disciplined cfg) (boot value) as)
    (hrun : Run.run (freeStep cfg) (boot value) as = some s) :
    (∀ c call pick s', (s.code s.running).head? = some (.condSignal c) →
      (s.cond c).head? = some call → s.freeStep cfg (.event .go pick) = some s' →
      s'.signalled c = call :: s.signalled c ∧ s'.cond c = (s.cond c).tail) ∧
    (∀ c, (s.signalled c ++ s.cond c).Nodup) ∧ (∀ c call, call ∈ s.signalled c →
      s.downs (.waiter call) + s.value (.waiter call) + s.heads (.up (.waiter call)) = 1 ∧
      (0 < s.value (.waiter call) → s.queue (.waiters (.waiter call)) = [] ∧
        ∃ f ∈ s.code (s.caller call), f.passes call = true)) ∧ (∀ call, s.downs (.waiter call) ≤ 1 ∧
      (s.downs (.waiter call) = 1 → call ∈ s.signalled (s.callOn call))) ∧
    ∀ t c bs s', s.code t = [.condBroadcast c] →
      Run.Meets (freeStep cfg) (fun s a ↦ Disciplined cfg s a ∧ s.Broadcasting t c) s bs →
      Run.run (freeStep cfg) s bs = some s' →
      Run.count (freeStep cfg) (Own t) s bs ≤ 4 * (s.cond c).length + 1 ∧
      (s'.Broadcasting t c → ∀ f, (s'.code t).head? = some f → s'.safe cfg t f = true) ∧
      (∃ done, s.cond c = done ++ s'.cond c ∧ s'.signalled c = done.reverse ++ s.signalled c) ∧
      (¬ s'.Broadcasting t c → s'.signalled c = (s.cond c).reverse ++ s.signalled c) := by
  obtain ⟨hk, h⟩ := (kept_boot value).invariant (I := Conditioned cfg)
    Disciplined.unblocksParked Conditioned.moves
    (fun hk h hC hnil ↦ h.push hk.steady hC hnil)
    (fun hk h _ hf hsafe ↦ h.after hk.steady hf hsafe) (conditioned_boot cfg value) hdisc hrun
  refine ⟨fun c call pick s' hf hhead hstep ↦ ?_, h.called.nodup, fun c call hmem ↦ ?_,
    fun call ↦ ⟨(h.signalling call).once, fun hone ↦ ?_⟩, fun t c bs s' hcode hmeets hbs ↦ ?_⟩
  · have hm := Moves.perform (freeStep_go hf hstep).2
    rw [hm.data, signalled_after, if_pos rfl, cond_after, if_neg nofun, if_pos rfl, hhead]
    exact ⟨rfl, rfl⟩
  · obtain ⟨hlt, hon⟩ := h.called.on c call (mem_append_left _ hmem)
    have hraised := (h.signalling call).raised
    have hsum := (h.signalling call).balanced.sum
    rw [hon, if_pos hmem] at hraised
    refine ⟨by omega, fun hpos ↦ ⟨(h.signalling call).waiters_nil hpos, ?_⟩⟩
    have hcount := (h.signalling call).passes (s.caller call)
    rw [if_pos ⟨rfl, hlt⟩] at hcount
    exact countP_pos_iff.mp (by omega)
  · by_contra hnot
    have := (h.signalling call).unraised hnot
    omega
  · have hstart : s.Looping cfg t c (s.cond c) (s.signalled c) :=
      ⟨h, by rw [hcode]; exact .test, [], rfl, rfl⟩
    obtain ⟨hloop, hcount⟩ := hstart.of_run hk hmeets hbs
    rw [hcode] at hcount
    refine ⟨hcount, fun ht f hf ↦ hloop.safe ht hf, hloop.signalled, fun hnot ↦ ?_⟩
    obtain ⟨done, hwaiting, hsignalled⟩ := hloop.signalled
    have hround := hloop.round
    have hnil : s'.cond c = [] := by
      rw [Broadcasting] at hnot
      generalize s'.code t = code at hround hnot
      cases hround with
      | done hzero => exact eq_nil_of_length_eq_zero hzero
      | test | signal _ | up _ | yield => simp at hnot
    rw [hnil, append_nil] at hwaiting
    rw [hwaiting, hsignalled]

/-- The second thread is preempted in `cond_wait`, before it gets to its semaphore, and the main
thread broadcasts. -/
theorem signals_kept_overtaken : ∃ s s', Run.run (freeStep ⟨true, false, false, id⟩)
      (boot fun _ ↦ 0) (spawn ++ FreeAct.event (.call (.lockAcquire 0)) none ::
        List.replicate 3 (FreeAct.event .go none) ++ FreeAct.event (.call (.condWait 0)) none ::
        List.replicate 3 (FreeAct.event .go none) ++ FreeAct.preempt none ::
        FreeAct.event (.call (.lockAcquire 0)) none :: List.replicate 3 (FreeAct.event .go none) ++
        [FreeAct.event (.call (.condBroadcast 0)) none]) = some s ∧
    Run.run (freeStep ⟨true, false, false, id⟩) s (List.replicate 4 (FreeAct.event .go none)) =
      some s' ∧ s.cond 0 = [0] ∧ s'.signalled 0 = (s.cond 0).reverse ++ s.signalled 0 := by
  refine Run.exists_of_view₂ (fun s s' ↦ (s.cond 0, s.code 0,
      decide (Run.Meets (freeStep ⟨true, false, false, id⟩)
        (fun s a ↦ Disciplined ⟨true, false, false, id⟩ s a ∧ s.Broadcasting 0 0) s
        (List.replicate 4 (FreeAct.event .go none))), decide (¬ s'.Broadcasting 0 0)))
    ([0], [.condBroadcast 0], true, true) (by decide +kernel) fun s s' hrun hbs heval ↦ ?_
  simp only [Prod.mk.injEq, decide_eq_true_eq] at heval
  obtain ⟨hcond, hcode, hmeets, hnot⟩ := heval
  exact ⟨hcond, ((signals_kept (by decide +kernel) hrun).2.2.2.2 0 0 _ s' hcode hmeets hbs).2.2.2
    hnot⟩

/-! ## Which call is signalled -/

/-- In the step from `s` to `s'`, `cond_signal` lets a call proceed: the call is taken off the list,
and its semaphore is raised next. -/
structure LetsProceed (s s' : Sched) (c call : Nat) : Prop where
  waits : call ∈ s.cond c
  cond : s'.cond c = (s.cond c).erase call
  signalled : s'.signalled c = call :: s.signalled c
  up : (s'.code s.running).head? = some (.up (.waiter call))

/-- No call that waits was made by a thread with a higher priority. -/
def Highest (s : Sched) (c call : Nat) : Prop :=
  ∀ other ∈ s.cond c, s.priority (s.caller other) ≤ s.priority (s.caller call)

/-- **`cond_signal` takes the first call**, whatever the priorities are. -/
theorem letsProceed_iff {first : Nat} {rest : List Nat} (pick : Option Nat)
    (hf : s.Next (.condSignal c)) (hcond : s.cond c = first :: rest)
    (hstep : s.freeStep cfg (.event .go pick) = some s') :
    s.LetsProceed s' c call ↔ call = first := by
  have hpop : s.pop.cond c = first :: rest := hcond
  have hs' : s' = s.after cfg (.condSignal c) := (some.inj (freeStep_go hf hstep).2).symm
  have hsignalled : s'.signalled c = first :: s.signalled c := by
    rw [hs', signalled_after, if_pos rfl, hcond]
    rfl
  constructor
  · intro h
    exact (List.cons.inj (h.signalled.symm.trans hsignalled)).1
  · rintro rfl
    refine ⟨hcond ▸ mem_cons_self, ?_, hsignalled, ?_⟩
    · rw [hs', cond_after, if_neg nofun, if_pos rfl, hcond, erase_cons_head, tail_cons]
    · rw [hs', after, effect]
      simp only [hpop, code_push, Function.update_self]
      rfl

/-- **`cond_signal` respects priorities** if and only if the first call on the list was made by a
thread whose priority is the highest of all that wait. -/
theorem cond_signal_highest_iff (pick : Option Nat)
    (hf : (s.code s.running).head? = some (.condSignal c)) (hwait : s.cond c ≠ [])
    (hstep : s.freeStep cfg (.event .go pick) = some s') :
    (∃ call, s.LetsProceed s' c call ∧ s.Highest c call) ↔
      ∀ call, (s.cond c).head? = some call → s.Highest c call := by
  obtain ⟨first, rest, hcond⟩ := exists_cons_of_ne_nil hwait
  simp only [letsProceed_iff pick hf hcond hstep, exists_eq_left, hcond, List.head?_cons,
    some_inj, forall_eq']

/-- A thread of priority `p` waits, then one of priority `q`, and the main thread signals. -/
def twoWait (p q : Fin 64) : List Event :=
  List.replicate 3 Event.go ++ Event.call (.create true p .thread) :: List.replicate 12 Event.go ++
    Event.call (.lockAcquire 0) :: List.replicate 3 Event.go ++ Event.call (.condWait 0) ::
    List.replicate 12 Event.go ++ Event.call (.create true q .thread) ::
    List.replicate 12 Event.go ++ Event.call (.lockAcquire 0) :: List.replicate 3 Event.go ++
    Event.call (.condWait 0) :: List.replicate 12 Event.go ++ Event.call (.lockAcquire 0) ::
    List.replicate 3 Event.go ++ [Event.call (.condSignal 0)]

/-- What there is to know of the state after `twoWait`. -/
def signalView (s : Sched) : Option Frame × List Nat × Int × Int × Bool :=
  ((s.code s.running).head?, s.cond 0, s.priority (s.caller 0), s.priority (s.caller 1),
    (s.step ⟨false, false, false, id⟩ .go).isSome)

theorem cond_signal_highest_iff_first : ∃ s s',
    Run.run (step ⟨false, false, false, id⟩) (boot fun _ ↦ 0) (twoWait 40 32) = some s ∧
    s.step ⟨false, false, false, id⟩ .go = some s' ∧ s.cond 0 = [0, 1] ∧
    ∃ call, s.LetsProceed s' 0 call ∧ s.Highest 0 call := by
  have heval : (Run.run (step ⟨false, false, false, id⟩) (boot fun _ ↦ 0) (twoWait 40 32)).map
      signalView = some (some (.condSignal 0), [0, 1], 40, 32, true) := by decide +kernel
  obtain ⟨s, hrun, heval⟩ := map_eq_some_iff.mp heval
  simp only [signalView, Prod.mk.injEq] at heval
  obtain ⟨hf, hcond, hp, hq, hstep⟩ := heval
  obtain ⟨s', hstep⟩ := isSome_iff_exists.mp hstep
  refine ⟨s, s', hrun, hstep, hcond, (cond_signal_highest_iff none hf ?_ hstep).mpr ?_⟩
  · rw [hcond]
    exact cons_ne_nil 0 [1]
  · rw [hcond]
    rintro _ ⟨⟩
    simp [Highest, hcond, hp, hq]

/-- The thread of priority 32 waits first, and is signalled, while one of priority 40 waits. -/
theorem cond_signal_takes_lower : ∃ s s',
    Run.run (step ⟨false, false, false, id⟩) (boot fun _ ↦ 0) (twoWait 32 40) = some s ∧
    s.step ⟨false, false, false, id⟩ .go = some s' ∧ s.cond 0 = [0, 1] ∧
    s.LetsProceed s' 0 0 ∧ s.priority (s.caller 0) = 32 ∧ s.priority (s.caller 1) = 40 ∧
    ¬ ∃ call, s.LetsProceed s' 0 call ∧ s.Highest 0 call := by
  have heval : (Run.run (step ⟨false, false, false, id⟩) (boot fun _ ↦ 0) (twoWait 32 40)).map
      signalView = some (some (.condSignal 0), [0, 1], 32, 40, true) := by decide +kernel
  obtain ⟨s, hrun, heval⟩ := map_eq_some_iff.mp heval
  simp only [signalView, Prod.mk.injEq] at heval
  obtain ⟨hf, hcond, hp, hq, hstep⟩ := heval
  obtain ⟨s', hstep⟩ := isSome_iff_exists.mp hstep
  have hproceed {call : Nat} : s.LetsProceed s' 0 call ↔ call = 0 :=
    letsProceed_iff none hf hcond hstep
  refine ⟨s, s', hrun, hstep, hcond, hproceed.mpr rfl, hp, hq, ?_⟩
  rintro ⟨call, hcall, hhighest⟩
  obtain rfl := hproceed.mp hcall
  have hle := hhighest 1 (by rw [hcond]; decide)
  omega

end Sched

end Pintos
