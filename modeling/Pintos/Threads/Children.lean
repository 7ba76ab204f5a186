import Pintos.Logic.Discipline
import Pintos.Threads.Semaphore

/-!
# Children

A thread reaches its children through `child_tlist`, and through the pointers it gets from there,
and no lock protects them.  What protects them is that a thread does not die before it has got past
its `sema_elim`, which only its parent raises, and only after it has taken the thread off its list.

A child goes through stages, as its parent sees it.  The frames of the parent say which stage the
child has to be in; `stageStep` follows them.
-/

set_option autoImplicit false

namespace Pintos

open List Option

/-! ## Stages -/

/-- What a thread is to another one. -/
inductive Stage where
  /-- Not its child. -/
  | foreign
  /-- Its child, and not in `child_tlist` yet. -/
  | unborn
  | listed
  /-- Taken off `child_tlist`, and `sema_elim` has not been raised. -/
  | removed
  /-- `sema_elim` has been raised. -/
  | released
  deriving DecidableEq

/-- The stages of a child whose parent is not in a function that is about it. -/
def Stage.settled : Stage → Bool
  | .foreign | .listed | .released => true
  | .unborn | .removed => false

/-- The child that a frame is about, and its stage before and after the frame. -/
def Frame.onChild : Frame → Option (Nat × Stage × Stage)
  | .allocateTid n _ | .addChild n => some (n, .unborn, .listed)
  | .launch n | .execRead n | .down (.load n) | .redown (.load n) | .down (.wait n)
  | .redown (.wait n) => some (n, .listed, .listed)
  | .removeChild n => some (n, .listed, .removed)
  | .readStatus n => some (n, .removed, .removed)
  | .up (.elim n) => some (n, .removed, .released)
  | _ => none

/-- The stage of thread `c` after a frame. -/
def stageStep (c : Nat) (stage : Stage) : Frame → Option Stage
  | .exitLoop =>
    match stage with
    | .listed | .released => some .released
    | .foreign => some .foreign
    | .unborn | .removed => none
  | f =>
    match f.onChild with
    | none => some stage
    | some (n, before, after) =>
      if n = c then if stage = before then some after else none else some stage

/-- The thread whose own semaphore a frame is about. -/
def Frame.onSelf : Frame → Option Nat
  | .up (.load n) | .up (.wait n) | .down (.elim n) | .redown (.elim n) => some n
  | _ => none

section

variable {c : Nat} {stage st : Stage} {f : Frame} {p : Nat × Stage × Stage}

theorem stageStep_of_none (h : f.onChild = none) (hexit : f ≠ .exitLoop) :
    stageStep c stage f = some stage := by
  cases f <;> first | exact absurd rfl hexit | simp only [stageStep, h]

theorem stageStep_of_some (h : f.onChild = some p) : stageStep c stage f =
      if p.1 = c then if stage = p.2.1 then some p.2.2 else none else some stage := by
  cases f with
  | exitLoop => cases h
  | _ => simp only [stageStep, h]

theorem stageStep_of_ne (h : f.onChild = some p) (hc : p.1 ≠ c) :
    stageStep c stage f = some stage := by
  rw [stageStep_of_some h, if_neg hc]

theorem stageStep_of_eq (h : f.onChild = some p) (hc : p.1 = c) :
    stageStep c stage f = if stage = p.2.1 then some p.2.2 else none := by
  rw [stageStep_of_some h, if_pos hc]

/-- A frame is not about a child that is not there. -/
theorem Frame.onChild_before (h : f.onChild = some p) : p.2.1 ≠ .foreign ∧ p.2.1 ≠ .released := by
  cases f with
  | down σ | redown σ | up σ => cases σ <;> cases h <;> exact ⟨nofun, nofun⟩
  | _ => cases h <;> exact ⟨nofun, nofun⟩

/-- From `foreign` and `released` there is no way back. -/
theorem stageStep_final (hstage : stage = .foreign ∨ stage = .released)
    (h : stageStep c stage f = some st) : st = stage ∧ ∀ p, f.onChild = some p → p.1 ≠ c := by
  cases hchild : f.onChild with
  | none =>
    refine ⟨?_, nofun⟩
    by_cases hexit : f = .exitLoop
    · subst hexit
      rcases hstage with rfl | rfl <;> exact (some.inj h).symm
    · rw [stageStep_of_none hchild hexit] at h
      exact (some.inj h).symm
  | some p =>
    have hne : p.1 ≠ c := by
      intro hc
      obtain ⟨hforeign, hreleased⟩ := Frame.onChild_before hchild
      rw [stageStep_of_eq hchild hc, if_neg] at h
      · cases h
      · rcases hstage with rfl | rfl
        · exact Ne.symm hforeign
        · exact Ne.symm hreleased
    rw [stageStep_of_ne hchild hne] at h
    exact ⟨(some.inj h).symm, fun p' hp' ↦ some.inj hp' ▸ hne⟩

theorem after_final {code : List Frame} (hstage : stage = .foreign ∨ stage = .released)
    (h : Discipline.after (stageStep c) stage code = some st) : st = stage := by
  induction code with
  | nil => exact (some.inj h).symm
  | cons f code ih =>
    rw [Discipline.after_cons, bind_eq_some_iff] at h
    obtain ⟨stage', hstep, hafter⟩ := h
    obtain rfl := (stageStep_final hstage hstep).1
    exact ih hafter

/-- A frame that is about a child says that the child is there. -/
theorem stage_of_mem {code : List Frame} (h : Discipline.after (stageStep c) stage code = some st)
    (hf : f ∈ code) (hp : f.onChild = some p) (hc : p.1 = c) :
    stage ≠ .foreign ∧ stage ≠ .released := by
  rw [← not_or]
  intro hstage
  induction code generalizing stage with
  | nil => cases hf
  | cons g code ih =>
    rw [Discipline.after_cons, bind_eq_some_iff] at h
    obtain ⟨stage', hstep, hafter⟩ := h
    obtain ⟨rfl, hne⟩ := stageStep_final hstage hstep
    rcases mem_cons.mp hf with rfl | hf
    · exact hne p hp hc
    · exact ih hafter hf hstage

end

/-- Frames that assert something about the holder of a lock. -/
def Frame.assertsLock : Frame → Bool
  | .acquire _ | .tryAcquire _ | .release _ | .condWait _ | .condSignal _ => true
  | _ => false

theorem ThreadCall.mem_code {call : ThreadCall} {g : Frame} (hg : g ∈ call.code) :
    g.onSelf = none ∧ g.onChild = none ∧ g ≠ .die ∧ (∀ tid, g ≠ .execGetChild tid) ∧
      (g = .exitLoop → call = .exit) := by
  cases call with
  | create memory _ _ | exec memory _ =>
    cases memory
    · cases hg
    · obtain rfl := mem_singleton.mp hg
      simp [Frame.onSelf, Frame.onChild]
  | setPriority _ =>
    simp only [ThreadCall.code, mem_cons, not_mem_nil, or_false] at hg
    rcases hg with rfl | rfl <;> simp [Frame.onSelf, Frame.onChild]
  | _ =>
    obtain rfl := mem_singleton.mp hg
    simp [Frame.onSelf, Frame.onChild]

theorem ThreadCall.staged_code {stage : Stage} (call : ThreadCall) (c : Nat)
    (h : stage.settled = true) :
    ∃ st, Discipline.after (stageStep c) stage call.code = some st ∧ st.settled = true := by
  cases call with
  | exit => cases stage <;> first | exact ⟨_, rfl, rfl⟩ | cases h
  | create memory _ _ | exec memory _ => cases memory <;> exact ⟨stage, rfl, h⟩
  | _ => exact ⟨stage, rfl, h⟩

namespace Sched

variable {cfg : Config} {s s' : Sched} {f : Frame} {t c : Nat}

/-- What thread `c` is to thread `t`. -/
def stage (s : Sched) (t c : Nat) : Stage :=
  if s.parent c ≠ some t then .foreign
  else if c ∈ s.childTlist t then .listed
  else if c ∉ s.removed then .unborn
  else if s.ups (.elim c) = 0 then .removed else .released

/-- What is kept about the children of all threads. -/
structure Family (s : Sched) : Prop where
  formed : s.Formed
  parent : ∀ c t, s.parent c = some t → c < s.next ∧ t < s.next
  child : ∀ t, ∀ c ∈ s.childTlist t, s.parent c = some t
  nodup : ∀ t, (s.childTlist t).Nodup
  listed : ∀ t, ∀ c ∈ s.childTlist t, c ∉ s.removed
  once : s.removed.Nodup
  known : ∀ c ∈ s.removed, c < s.next
  raised : ∀ c, s.ups (.elim c) ≠ 0 → c ∈ s.removed
  used : ∀ c, s.value (.elim c) ≠ 0 ∨ s.downs (.elim c) ≠ 0 → s.ups (.elim c) ≠ 0
  staged : ∀ t c, ∃ st, Discipline.after (stageStep c) (s.stage t c) (s.code t) = some st ∧
    st.settled = true
  self : ∀ t, ∀ f ∈ s.code t, ∀ n, f.onSelf = some n → n = t
  /-- Who is about to die has got past `sema_elim`, or has it before them. -/
  dies : ∀ t, .die ∈ s.code t → s.downs (.elim t) ≠ 0 ∨ .down (.elim t) ∈ s.code t ∨
    .redown (.elim t) ∈ s.code t
  /-- The child that `syscall_exec` looks for will be in the list. -/
  exec : ∀ t tid, .execGetChild tid ∈ s.code t → ∃ c, s.tid c = tid ∧
    Discipline.after (stageStep c) (s.stage t c) (s.code t) = some .listed

namespace Family

theorem head_stage {p : Nat × Stage × Stage} (h : s.Family) (hf : (s.code t).head? = some f)
    (hp : f.onChild = some p) : s.stage t p.1 = p.2.1 := by
  obtain ⟨st, hafter, -⟩ := h.staged t p.1
  rw [← cons_head?_tail hf, Discipline.after_cons, stageStep_of_eq hp rfl] at hafter
  by_contra hne
  rw [if_neg hne] at hafter
  cases hafter

theorem parent_of_stage (hne : s.stage t c ≠ .foreign) : s.parent c = some t := by
  by_contra hcon
  exact hne (if_pos hcon)

theorem removes_child (h : s.Family) (hf : s.Next f) (hc : s.removes s.running f = some c) :
    c ∈ s.childTlist s.running := by
  cases f with
  | removeChild n =>
    obtain rfl : n = c := some.inj hc
    have hstage := h.head_stage hf (p := (n, .listed, .removed)) rfl
    by_contra hnot
    simp only [stage, hnot, if_false] at hstage
    grind -linarith
  | exitLoop => exact mem_of_mem_head? hc
  | _ => cases hc

theorem raises_child (h : s.Family) (hf : s.Next f) (hc : f.raises = some (.elim c)) :
    s.stage s.running c = .removed := by
  cases f with
  | up σ =>
    obtain rfl : σ = .elim c := some.inj hc
    exact h.head_stage hf (p := (c, .removed, .released)) rfl
  | _ => cases hc

/-- A thread changes only what its own children are to it. -/
theorem stage_after_of_ne (h : s.Family) (hs : s.Steady) (hf : s.Next f) (ht : t ≠ s.running) :
    (s.after cfg f).stage t c = s.stage t c := by
  by_cases hparent : s.parent c = some t
  · obtain ⟨hclt, htlt⟩ := h.parent c t hparent
    have hne : s.parent c ≠ some s.running := by
      rw [hparent]
      exact fun hcon ↦ ht (some.inj hcon)
    have hremoves : s.removes s.running f ≠ some c := fun hcon ↦
      hne (h.child _ c (h.removes_child hf hcon))
    have hraises : f.raises ≠ some (.elim c) := by
      intro hcon
      refine hne (parent_of_stage ?_)
      rw [h.raises_child hf hcon]
      nofun
    have hremoved : c ∈ (s.after cfg f).removed ↔ c ∈ s.removed := by
      rw [removed_after, mem_append, mem_toList]
      simp [hremoves]
    have hsame : (s.after cfg f).parent c = s.parent c := by
      rw [parent_after, if_neg fun hcon ↦ hclt.ne hcon.2]
    have hlist : (s.after cfg f).childTlist t = s.childTlist t := by
      rw [childTlist_after_of_ne cfg hs.running_lt.ne ht, if_neg fun hcon ↦ htlt.ne hcon.1]
    have hups : (s.after cfg f).ups (.elim c) = s.ups (.elim c) := by
      rw [ups_after, if_neg hraises]
    simp only [stage, hsame, hlist, hups, hremoved]
  · have hparent' : (s.after cfg f).parent c ≠ some t := by
      rw [parent_after]
      split
      · exact fun hcon ↦ ht (some.inj hcon).symm
      · exact hparent
    rw [stage, stage, if_pos hparent, if_pos hparent']

/-- What the running thread makes of its children. -/
theorem stage_after (hs : s.Steady) (hnew : f.born.isSome → c ≠ s.next) :
    (s.after cfg f).stage s.running c = if s.parent c ≠ some s.running then .foreign
      else if c ∈ s.children s.running f then .listed
      else if s.removes s.running f ≠ some c ∧ c ∉ s.removed then .unborn
      else if f.raises ≠ some (.elim c) ∧ s.ups (.elim c) = 0 then .removed else .released := by
  have hsame : (s.after cfg f).parent c = s.parent c := by
    rw [parent_after, if_neg fun hcon ↦ hnew hcon.1 hcon.2]
  rw [stage, hsame, childTlist_after_self cfg hs.running_lt.ne, removed_after, ups_after]
  simp only [mem_append, mem_toList, not_or]
  by_cases hraises : f.raises = some (.elim c) <;> simp [hraises]

theorem stage_after_quiet (hs : s.Steady) (hnew : f.born.isSome → c ≠ s.next)
    (hchildren : c ∈ s.children s.running f ↔ c ∈ s.childTlist s.running)
    (hremoves : s.removes s.running f ≠ some c) (hraises : f.raises ≠ some (.elim c)) :
    (s.after cfg f).stage s.running c = s.stage s.running c := by
  rw [stage_after hs hnew, stage]
  simp [hchildren, hremoves, hraises]

theorem stage_eq_listed (h : s.Family) (hc : c ∈ s.childTlist t) : s.stage t c = .listed := by
  rw [stage, if_neg (not_not.mpr (h.child t c hc)), if_pos hc]

theorem mem_of_listed (hc : s.stage t c = .listed) : c ∈ s.childTlist t := by
  by_contra hnot
  simp only [stage, hnot, if_false] at hc
  grind -linarith

section

variable (h : s.Family)

include h

theorem ups_eq_zero (hc : c ∉ s.removed) : s.ups (.elim c) = 0 := by
  by_contra hne
  exact hc (h.raised c hne)

/-- What takes the place of a frame does to a child what the frame does. -/
theorem after_expansion {st : Stage} (hs : s.Steady) (hf : s.Next f)
    (hstep : stageStep c (s.stage s.running c) f = some st) (hborn : f.born = none)
    (hwait : ∀ tid, f ≠ .waitGetChild tid) (hstart : ∀ success, f ≠ .startProcess success) :
    Discipline.after (stageStep c) ((s.after cfg f).stage s.running c)
      (s.expansion cfg s.running f) = some st := by
  cases f with
  | addChild n =>
    by_cases hn : n = c
    · subst hn
      have hstage : s.stage s.running n = .unborn :=
        h.head_stage hf (p := (n, .unborn, .listed)) rfl
      have hparent := parent_of_stage (s := s) (t := s.running) (c := n) (by rw [hstage]; rintro ⟨⟩)
      rw [stageStep_of_eq (p := (n, .unborn, .listed)) rfl rfl, if_pos hstage] at hstep
      rw [stage_after hs (by rintro ⟨⟩), if_neg (not_not.mpr hparent), if_pos (by simp [children])]
      exact hstep
    · rw [stageStep_of_ne (p := (n, .unborn, .listed)) rfl hn] at hstep
      rw [stage_after_quiet hs (by rintro ⟨⟩) (by simp [children, Ne.symm hn]) (by rintro ⟨⟩)
        (by rintro ⟨⟩)]
      exact hstep
  | removeChild n =>
    by_cases hn : n = c
    · subst hn
      have hstage : s.stage s.running n = .listed :=
        h.head_stage hf (p := (n, .listed, .removed)) rfl
      have hmem := mem_of_listed hstage
      rw [stageStep_of_eq (p := (n, .listed, .removed)) rfl rfl, if_pos hstage] at hstep
      rw [stage_after hs (by rintro ⟨⟩), if_neg (not_not.mpr (h.child _ _ hmem)),
        if_neg (by simp [children, (h.nodup s.running).mem_erase_iff]), if_neg (by simp [removes]),
        if_pos ⟨by rintro ⟨⟩, h.ups_eq_zero (h.listed _ _ hmem)⟩]
      exact hstep
    · rw [stageStep_of_ne (p := (n, .listed, .removed)) rfl hn] at hstep
      rw [stage_after_quiet hs (by rintro ⟨⟩) _ (by simp [removes, hn]) (by rintro ⟨⟩)]
      · exact hstep
      · simp [children, (h.nodup s.running).mem_erase_iff, Ne.symm hn]
  | up σ =>
    have hyield : ∀ stage, Discipline.after (stageStep c) stage
        (s.expansion cfg s.running (.up σ)) = some stage := by
      intro stage
      simp only [expansion]
      split <;> rfl
    rw [hyield]
    by_cases hσ : σ = .elim c
    · subst hσ
      have hstage : s.stage s.running c = .removed := h.raises_child hf rfl
      rw [stageStep_of_eq (p := (c, .removed, .released)) rfl rfl, if_pos hstage] at hstep
      have hold := hstage
      rw [stage] at hold
      rw [stage_after hs (by rintro ⟨⟩)]
      simp only [children, removes, Frame.raises]
      grind -linarith
    · rw [stage_after_quiet hs (by rintro ⟨⟩) Iff.rfl (by rintro ⟨⟩)
        (by simpa [Frame.raises] using hσ)]
      cases σ with
      | elim n =>
        have hn : n ≠ c := fun hcon ↦ hσ (hcon ▸ rfl)
        rw [stageStep_of_ne (p := (n, .removed, .released)) rfl hn] at hstep
        exact hstep
      | _ => exact hstep
  | exitLoop =>
    rcases hlist : s.childTlist s.running with - | ⟨d, rest⟩
    · have hnot : s.stage s.running c ≠ .listed := fun hcon ↦ by
        have hmem := mem_of_listed hcon
        rw [hlist] at hmem
        cases hmem
      rw [stage_after_quiet hs (by rintro ⟨⟩) (by simp [children, hlist]) (by simp [removes, hlist])
        (by rintro ⟨⟩)]
      simp only [expansion, hlist]
      simp only [stageStep] at hstep
      cases hstage : s.stage s.running c <;> simp_all [stageStep, Frame.onChild]
    · have hd : d ∈ s.childTlist s.running := hlist ▸ mem_cons_self
      have hnodup := h.nodup s.running
      rw [hlist, nodup_cons] at hnodup
      simp only [expansion, hlist]
      by_cases hc : c = d
      · subst hc
        rw [h.stage_eq_listed hd] at hstep
        rw [stage_after hs (by rintro ⟨⟩), if_neg (not_not.mpr (h.child _ _ hd)),
          if_neg (by simpa [children, hlist] using hnodup.1), if_neg (by simp [removes, hlist]),
          if_pos ⟨by rintro ⟨⟩, h.ups_eq_zero (h.listed _ _ hd)⟩]
        simpa [stageStep, Frame.onChild] using hstep
      · rw [stage_after_quiet hs (by rintro ⟨⟩) (by simp [children, hlist, hc])
          (by simp [removes, hlist, Ne.symm hc]) (by rintro ⟨⟩)]
        rw [Discipline.after_cons, stageStep_of_ne (p := (d, .removed, .released)) rfl (Ne.symm hc),
          bind_some, Discipline.after_cons, hstep]
        rfl
  | allocateTid n exec =>
    rw [stage_after_quiet hs (by rintro ⟨⟩) Iff.rfl (by rintro ⟨⟩) (by rintro ⟨⟩)]
    rw [stageStep_of_some (p := (n, .unborn, .listed)) rfl] at hstep
    simp only [expansion]
    split <;> by_cases hn : n = c <;> simp_all [stageStep, Frame.onChild]
  | execGetChild tid =>
    rw [stage_after_quiet hs (by rintro ⟨⟩) Iff.rfl (by rintro ⟨⟩) (by rintro ⟨⟩)]
    have hst : s.stage s.running c = st := some.inj hstep
    rcases hfind : s.threadGetChild s.running tid with - | d
    · simp only [expansion, hfind]
      exact hstep
    · have hstage := h.stage_eq_listed (mem_of_find?_eq_some hfind)
      simp only [expansion, hfind]
      by_cases hd : d = c <;> simp_all [stageStep, Frame.onChild]
  | down σ | redown σ =>
    rw [stage_after_quiet hs (by rintro ⟨⟩) Iff.rfl (by rintro ⟨⟩) (by rintro ⟨⟩)]
    have hst : s.stage s.running c = st := by
      cases σ <;> simp only [stageStep, Frame.onChild] at hstep <;> grind -linarith
    have hredown : stageStep c (s.stage s.running c) (.redown σ) = some st := by
      cases σ <;> exact hstep
    simp only [expansion]
    split
    · rw [Discipline.after_cons, hredown]
      rfl
    · rw [hst]
      rfl
  | launch n | execRead n | readStatus n =>
    rw [stage_after_quiet hs (by rintro ⟨⟩) Iff.rfl (by rintro ⟨⟩) (by rintro ⟨⟩)]
    simp only [stageStep, Frame.onChild] at hstep
    simp only [expansion, Discipline.after_nil]
    grind -linarith
  | waitGetChild tid => exact absurd rfl (hwait tid)
  | startProcess success => exact absurd rfl (hstart success)
  | initThread _ _ _ => cases hborn
  | _ =>
    rw [stage_after_quiet hs (by rintro ⟨⟩) Iff.rfl (by rintro ⟨⟩) (by rintro ⟨⟩)]
    simp only [expansion]
    repeat' split
    all_goals simp_all [stageStep, Frame.onChild]

theorem last_tail (hf : s.Next f) (hlast : f.last = true) : (s.code s.running).tail = [] := by
  have hshaped := h.formed.shaped s.running
  rw [← cons_head?_tail hf] at hshaped
  exact hshaped.2.2.2.1 hlast

/-- The stages after a frame of the running thread. -/
theorem staged_after_self (hs : s.Steady) (hf : s.Next f) (c : Nat) :
    ∃ st, Discipline.after (stageStep c) ((s.after cfg f).stage s.running c)
      ((s.after cfg f).code s.running) = some st ∧ st.settled = true := by
  obtain ⟨st, hafter, hsettled⟩ := h.staged s.running c
  rw [← cons_head?_tail hf, Discipline.after_cons, bind_eq_some_iff] at hafter
  obtain ⟨st', hstep, hafter⟩ := hafter
  rw [code_after_self cfg hs.running_lt.ne]
  cases f with
  | waitGetChild tid =>
    rw [h.last_tail hf rfl] at hafter ⊢
    obtain rfl : st' = st := some.inj hafter
    obtain rfl : s.stage s.running c = st' := some.inj hstep
    rw [stage_after_quiet hs (by rintro ⟨⟩) Iff.rfl (by rintro ⟨⟩) (by rintro ⟨⟩), append_nil]
    rcases hfind : s.threadGetChild s.running tid with - | d
    · simp only [expansion, hfind]
      exact ⟨_, rfl, hsettled⟩
    · have hstage := h.stage_eq_listed (mem_of_find?_eq_some hfind)
      simp only [expansion, hfind]
      by_cases hd : d = c
      · subst hd
        exact ⟨.released, by simp [stageStep, Frame.onChild, hstage], rfl⟩
      · exact ⟨_, by simp [stageStep, Frame.onChild, hd], hsettled⟩
  | startProcess success =>
    rw [h.last_tail hf rfl] at hafter ⊢
    obtain rfl : st' = st := some.inj hafter
    obtain rfl : s.stage s.running c = st' := some.inj hstep
    rw [stage_after_quiet hs (by rintro ⟨⟩) Iff.rfl (by rintro ⟨⟩) (by rintro ⟨⟩), append_nil]
    simp only [expansion]
    generalize s.stage s.running c = stage at hsettled
    cases success <;> cases stage <;> first | exact ⟨_, rfl, rfl⟩ | cases hsettled
  | initThread priority entry exec =>
    rw [h.last_tail hf rfl] at hafter ⊢
    obtain rfl : st' = st := some.inj hafter
    obtain rfl : s.stage s.running c = st' := some.inj hstep
    rw [append_nil]
    by_cases hc : c = s.next
    · subst hc
      have hnot : s.next ∉ s.childTlist s.running := fun hmem ↦
        Nat.lt_irrefl _ (h.parent _ _ (h.child _ _ hmem)).1
      have hnot' : s.next ∉ s.removed := fun hmem ↦ Nat.lt_irrefl _ (h.known _ hmem)
      have hstage : (s.after cfg (.initThread priority entry exec)).stage s.running s.next =
          .unborn := by
        rw [stage, parent_after, childTlist_after_self cfg hs.running_lt.ne, removed_after]
        simp [Frame.born, children, removes, hnot, hnot']
      exact ⟨.listed, by simp [expansion, stageStep, Frame.onChild, hstage], rfl⟩
    · rw [stage_after_quiet hs (fun _ ↦ hc) Iff.rfl (by rintro ⟨⟩) (by rintro ⟨⟩)]
      exact ⟨_, by simp [expansion, stageStep, Frame.onChild, Ne.symm hc], hsettled⟩
  | _ =>
    refine ⟨st, ?_, hsettled⟩
    rw [Discipline.after_append, h.after_expansion hs hf hstep rfl (by simp) (by simp)]
    exact hafter

theorem staged_after (hs : s.Steady) (hf : s.Next f) (t c : Nat) :
    ∃ st, Discipline.after (stageStep c) ((s.after cfg f).stage t c)
      ((s.after cfg f).code t) = some st ∧ st.settled = true := by
  by_cases ht : t = s.running
  · subst ht
    exact h.staged_after_self hs hf c
  · rw [h.stage_after_of_ne hs hf ht, code_after_of_ne cfg hs.running_lt.ne ht]
    obtain ⟨st, hafter, hsettled⟩ := h.staged t c
    split
    · next hnext =>
      rw [h.formed.fresh t hnext.ge] at hafter ⊢
      cases f with
      | initThread _ entry _ => cases entry <;> exact ⟨st, hafter, hsettled⟩
      | _ => exact ⟨st, hafter, hsettled⟩
    · exact ⟨st, hafter, hsettled⟩

theorem child_after (hs : s.Steady) (hf : s.Next f) :
    ∀ t, ∀ c ∈ (s.after cfg f).childTlist t, (s.after cfg f).parent c = some t := by
  intro t c hc
  have hold : s.parent c = some t := by
    by_cases ht : t = s.running
    · subst ht
      rw [childTlist_after_self cfg hs.running_lt.ne] at hc
      cases f with
      | addChild n =>
        rcases mem_append.mp hc with hc | hc
        · exact h.child _ c hc
        · obtain rfl := mem_singleton.mp hc
          refine parent_of_stage ?_
          rw [h.head_stage hf (p := (c, .unborn, .listed)) rfl]
          nofun
      | removeChild n => exact h.child _ c (mem_of_mem_erase hc)
      | exitLoop => exact h.child _ c (mem_of_mem_tail hc)
      | _ => exact h.child _ c hc
    · rw [childTlist_after_of_ne cfg hs.running_lt.ne ht] at hc
      split at hc
      · cases hc
      · exact h.child t c hc
  rw [parent_after, if_neg fun hcon ↦ (h.parent c t hold).1.ne hcon.2]
  exact hold

theorem nodup_after (hs : s.Steady) (hf : s.Next f) :
    ∀ t, ((s.after cfg f).childTlist t).Nodup := by
  intro t
  by_cases ht : t = s.running
  · subst ht
    rw [childTlist_after_self cfg hs.running_lt.ne]
    cases f with
    | addChild n =>
      have hstage := h.head_stage hf (p := (n, .unborn, .listed)) rfl
      refine nodup_append_comm.mp (nodup_cons.mpr ⟨fun hmem ↦ ?_, h.nodup _⟩)
      rw [h.stage_eq_listed hmem] at hstage
      cases hstage
    | removeChild n => exact (h.nodup _).erase n
    | exitLoop => exact (h.nodup _).tail
    | _ => exact h.nodup _
  · rw [childTlist_after_of_ne cfg hs.running_lt.ne ht]
    split
    · exact nodup_nil
    · exact h.nodup t

theorem listed_after (hs : s.Steady) (hf : s.Next f) :
    ∀ t, ∀ c ∈ (s.after cfg f).childTlist t, c ∉ (s.after cfg f).removed := by
  intro t c hc
  rw [removed_after, mem_append, mem_toList, not_or]
  by_cases ht : t = s.running
  · subst ht
    rw [childTlist_after_self cfg hs.running_lt.ne] at hc
    have hnodup := h.nodup s.running
    cases f with
    | addChild n =>
      refine ⟨by rintro ⟨⟩, ?_⟩
      rcases mem_append.mp hc with hc | hc
      · exact h.listed _ c hc
      · obtain rfl := mem_singleton.mp hc
        have hstage := h.head_stage hf (p := (c, .unborn, .listed)) rfl
        intro hcon
        simp only [stage] at hstage
        grind -linarith
    | removeChild n =>
      rw [children, hnodup.mem_erase_iff] at hc
      exact ⟨fun hcon ↦ hc.1 (some.inj hcon).symm, h.listed _ c hc.2⟩
    | exitLoop =>
      refine ⟨fun hcon ↦ ?_, h.listed _ c (mem_of_mem_tail hc)⟩
      rw [← cons_head?_tail hcon, nodup_cons] at hnodup
      exact hnodup.1 hc
    | _ => exact ⟨by rintro ⟨⟩, h.listed _ c hc⟩
  · rw [childTlist_after_of_ne cfg hs.running_lt.ne ht] at hc
    split at hc
    · cases hc
    · refine ⟨fun hcon ↦ ht ?_, h.listed t c hc⟩
      exact some.inj ((h.child t c hc).symm.trans (h.child _ c (h.removes_child hf hcon)))

theorem once_after (hf : s.Next f) :
    (s.after cfg f).removed.Nodup ∧ ∀ c ∈ (s.after cfg f).removed, c < (s.after cfg f).next := by
  rw [removed_after, next_after]
  cases hremoves : s.removes s.running f with
  | none => exact ⟨h.once, fun c hc ↦ Nat.lt_add_right _ (h.known c hc)⟩
  | some c =>
    have hmem := h.removes_child hf hremoves
    refine ⟨nodup_cons.mpr ⟨h.listed _ c hmem, h.once⟩, fun d hd ↦ Nat.lt_add_right _ ?_⟩
    rcases mem_cons.mp hd with rfl | hd
    · exact (h.parent _ _ (h.child _ _ hmem)).1
    · exact h.known d hd

theorem raised_after (hf : s.Next f) :
    ∀ c, (s.after cfg f).ups (.elim c) ≠ 0 → c ∈ (s.after cfg f).removed := by
  intro c hc
  rw [removed_after]
  refine mem_append_right _ ?_
  rw [ups_after] at hc
  split at hc
  · next hraises =>
    have hstage := h.raises_child hf hraises
    simp only [stage] at hstage
    grind -linarith
  · exact h.raised c hc

theorem used_after :
    ∀ c, (s.after cfg f).value (.elim c) ≠ 0 ∨ (s.after cfg f).downs (.elim c) ≠ 0 →
      (s.after cfg f).ups (.elim c) ≠ 0 := by
  intro c hc
  have hused := h.used c
  rw [value_after, downs_after] at hc
  rw [ups_after]
  grind -linarith

theorem mem_code_after_of_ne {g : Frame} (hs : s.Steady) (ht : t ≠ s.running)
    (hstart : ∀ success, g ≠ .startProcess success) :
    g ∈ (s.after cfg f).code t ↔ g ∈ s.code t := by
  rw [code_after_of_ne cfg hs.running_lt.ne ht]
  split
  · next hnext =>
    rw [h.formed.fresh t hnext.ge]
    cases f with
    | initThread _ entry _ => cases entry <;> simp [Frame.born, Entry.code, hstart]
    | _ => rfl
  · rfl

theorem self_after (hs : s.Steady) (hf : s.Next f) :
    ∀ t, ∀ g ∈ (s.after cfg f).code t, ∀ n, g.onSelf = some n → n = t := by
  intro t g hg n hn
  by_cases ht : t = s.running
  · subst ht
    rw [code_after_self cfg hs.running_lt.ne] at hg
    rcases mem_append.mp hg with hg | hg
    · have hold := h.self s.running f (mem_of_mem_head? hf)
      cases f with
      | down σ | redown σ =>
        simp only [expansion] at hg
        split at hg
        · obtain rfl := mem_singleton.mp hg
          refine hold n ?_
          cases σ <;> exact hn
        · cases hg
      | _ =>
        simp only [expansion] at hg
        grind -linarith [Frame.onSelf]
    · exact h.self _ g (mem_of_mem_tail hg) n hn
  · refine h.self t g ((h.mem_code_after_of_ne hs ht ?_).mp hg) n hn
    rintro success rfl
    cases hn

theorem dies_after (hs : s.Steady) (hf : s.Next f) :
    ∀ t, .die ∈ (s.after cfg f).code t → (s.after cfg f).downs (.elim t) ≠ 0 ∨
      .down (.elim t) ∈ (s.after cfg f).code t ∨ .redown (.elim t) ∈ (s.after cfg f).code t := by
  intro t hdie
  have hmono : s.downs (.elim t) ≠ 0 → (s.after cfg f).downs (.elim t) ≠ 0 := by
    rw [downs_after]
    split <;> omega
  by_cases ht : t = s.running
  · subst ht
    have hold := h.dies s.running
    rw [code_after_self cfg hs.running_lt.ne] at hdie ⊢
    simp only [mem_append] at hdie ⊢
    rcases hdie with hdie | hdie
    · -- `die` is put at the end of what follows the loop of `thread_exit`.
      cases f with
      | exitLoop =>
        simp only [expansion] at hdie ⊢
        split at hdie <;> simp at hdie
        simp
      | _ =>
        simp only [expansion] at hdie
        repeat' split at hdie
        all_goals simp at hdie
    · rw [← cons_head?_tail hf] at hold
      rcases hold (mem_cons_of_mem _ hdie) with hpassed | hahead | hahead
      · exact .inl (hmono hpassed)
      all_goals
        rcases mem_cons.mp hahead with rfl | hahead
        · by_cases hzero : s.value (.elim s.running) = 0
          · simp [expansion, hzero]
          · rw [downs_after, if_pos ⟨rfl, hzero⟩]
            exact .inl (Nat.succ_ne_zero _)
        · simp [hahead]
  · rw [h.mem_code_after_of_ne hs ht (by rintro _ ⟨⟩)] at hdie ⊢
    rw [h.mem_code_after_of_ne hs ht (by simp)]
    exact (h.dies t hdie).imp_left hmono

theorem exec_after (hs : s.Steady) (hf : s.Next f) :
    ∀ t tid, .execGetChild tid ∈ (s.after cfg f).code t → ∃ c, (s.after cfg f).tid c = tid ∧
      Discipline.after (stageStep c) ((s.after cfg f).stage t c) ((s.after cfg f).code t) =
        some .listed := by
  intro t tid hmem
  by_cases ht : t = s.running
  · subst ht
    rw [code_after_self cfg hs.running_lt.ne] at hmem ⊢
    have hcode : s.code s.running = f :: (s.code s.running).tail := (cons_head?_tail hf).symm
    rcases mem_append.mp hmem with hmem | hmem
    · -- The number has just been given to a new child.
      cases f with
      | allocateTid n exec =>
        have hstage := h.head_stage hf (p := (n, .unborn, .listed)) rfl
        refine ⟨n, ?_, ?_⟩
        · rw [tid_after, if_pos (by rfl)]
          simp only [expansion] at hmem
          split at hmem <;> simp at hmem
          exact hmem.symm
        · rw [h.last_tail hf rfl, append_nil]
          refine h.after_expansion hs hf ?_ rfl (by simp) (by simp)
          rw [stageStep_of_eq (p := (n, .unborn, .listed)) rfl rfl, if_pos hstage]
      | _ =>
        simp only [expansion] at hmem
        repeat' split at hmem
        all_goals simp at hmem
    · have hlast : f.last = false := by
        by_contra hlast
        rw [h.last_tail hf (by simpa using hlast)] at hmem
        cases hmem
      obtain ⟨c, htid, hafter⟩ := h.exec s.running tid (mem_of_mem_tail hmem)
      rw [hcode, Discipline.after_cons, bind_eq_some_iff] at hafter
      obtain ⟨st, hstep, hafter⟩ := hafter
      have hnames : f.names = none := by cases f <;> first | rfl | cases hlast
      have hborn : f.born = none := by cases f <;> first | rfl | cases hlast
      refine ⟨c, ?_, ?_⟩
      · rw [tid_after, hnames, if_neg (by rintro ⟨⟩)]
        exact htid
      · rw [Discipline.after_append, h.after_expansion hs hf hstep hborn ?_ ?_]
        · exact hafter
        · rintro _ rfl
          cases hlast
        · rintro _ rfl
          cases hlast
  · have hold := (h.mem_code_after_of_ne hs ht (by simp)).mp hmem
    obtain ⟨c, htid, hafter⟩ := h.exec t tid hold
    have hparent : s.parent c = some t := by
      refine parent_of_stage fun hstage ↦ ?_
      have hfinal := after_final (.inl hstage) hafter
      rw [hstage] at hfinal
      cases hfinal
    have hnames : f.names ≠ some c := by
      intro hcon
      cases f with
      | allocateTid n exec =>
        obtain rfl : n = c := some.inj hcon
        have hstage := h.head_stage hf (p := (n, .unborn, .listed)) rfl
        refine ht (some.inj (hparent.symm.trans (parent_of_stage ?_)))
        rw [hstage]
        rintro ⟨⟩
      | _ => cases hcon
    have hcode : (s.after cfg f).code t = s.code t := by
      rw [code_after_of_ne cfg hs.running_lt.ne ht, if_neg fun hnext ↦ ?_]
      rw [h.formed.fresh t hnext.ge] at hold
      cases hold
    refine ⟨c, ?_, ?_⟩
    · rw [tid_after, if_neg hnames]
      exact htid
    · rw [h.stage_after_of_ne hs hf ht, hcode]
      exact hafter

theorem after (hs : s.Steady) (hf : s.Next f) : (s.after cfg f).Family where
  formed := h.formed.effect hs hf
  parent c t hparent := by
    rw [parent_after] at hparent
    rw [next_after]
    have hlt := hs.running_lt
    split at hparent
    · next hnew =>
      obtain ⟨code, hcode⟩ := isSome_iff_exists.mp hnew.1
      obtain rfl := some.inj hparent
      rw [hcode, hnew.2, toList_some, length_singleton]
      omega
    · have := h.parent c t hparent
      omega
  child := h.child_after hs hf
  nodup := h.nodup_after hs hf
  listed := h.listed_after hs hf
  once := (h.once_after hf).1
  known := (h.once_after hf).2
  raised := h.raised_after hf
  used := h.used_after
  staged := h.staged_after hs hf
  self := h.self_after hs hf
  dies := h.dies_after hs hf
  exec := h.exec_after hs hf

theorem moves (hm : s.Moves s') : s'.Family := by
  have hstage : s'.stage = s.stage := by
    funext t c
    rw [stage, stage, hm.data]
  refine ⟨h.formed.moves hm, ?_, ?_, ?_, ?_, ?_, ?_, ?_, ?_, ?_, ?_, ?_, ?_⟩
  · rw [hm.data]; exact h.parent
  · rw [hm.data]; exact h.child
  · rw [hm.data]; exact h.nodup
  · rw [hm.data]; exact h.listed
  · rw [hm.data]; exact h.once
  · rw [hm.data]; exact h.known
  · rw [hm.data]; exact h.raised
  · rw [hm.data]; exact h.used
  · rw [hstage, hm.data]; exact h.staged
  · rw [hm.data]; exact h.self
  · rw [hm.data]; exact h.dies
  · rw [hstage, hm.data]; exact h.exec

theorem push {c : ThreadCall} (hs : s.Steady) (hnil : s.code s.running = []) :
    (s.push s.running c.code).Family := by
  have hcode :
      ∀ t, (s.push s.running c.code).code t = if t = s.running then c.code else s.code t := by
    intro t
    by_cases ht : t = s.running
    · rw [code_push, ht, Function.update_self, hnil, append_nil, if_pos rfl]
    · rw [code_push, Function.update_of_ne ht, if_neg ht]
  refine ⟨h.formed.call hs hnil, h.parent, h.child, h.nodup, h.listed, h.once, h.known, h.raised,
    h.used, fun t d ↦ ?_, fun t g hg n hn ↦ ?_, fun t hdie ↦ ?_, fun t tid hmem ↦ ?_⟩
  · rw [hcode]
    split
    · next ht =>
      subst ht
      obtain ⟨st, hafter, hsettled⟩ := h.staged s.running d
      rw [hnil] at hafter
      obtain rfl := some.inj hafter
      exact c.staged_code d hsettled
    · exact h.staged t d
  · rw [hcode] at hg
    split at hg
    · rw [(ThreadCall.mem_code hg).1] at hn
      cases hn
    · exact h.self t g hg n hn
  · rw [hcode] at hdie
    split at hdie
    · exact absurd rfl (ThreadCall.mem_code hdie).2.2.1
    · next ht =>
      rw [hcode, if_neg ht]
      exact h.dies t hdie
  · rw [hcode] at hmem
    split at hmem
    · exact absurd rfl ((ThreadCall.mem_code hmem).2.2.2.1 tid)
    · next ht =>
      rw [hcode, if_neg ht]
      exact h.exec t tid hmem

end

end Family

theorem family_boot (value : Nat → Nat) : (boot value).Family := by
  have hparent : ∀ c t, (boot value).parent c = some t ↔ c = idleThread ∧ t = initialThread := by
    intro c t
    simp only [boot]
    grind -linarith
  have hlist : ∀ t c, c ∈ (boot value).childTlist t ↔ c = idleThread ∧ t = initialThread := by
    intro t c
    simp only [boot]
    grind -linarith
  refine ⟨(balanced_boot value .startIdle).formed, fun c t h ↦ ?_, fun t c h ↦ ?_, fun t ↦ ?_,
    fun t c _ ↦ not_mem_nil, nodup_nil, by rintro _ ⟨⟩, fun c h ↦ absurd rfl h,
    fun c h ↦ ?_, fun t c ↦ ?_, fun t g hg n hn ↦ ?_, fun t hdie ↦ ?_, fun t tid hmem ↦ ?_⟩
  · obtain ⟨rfl, rfl⟩ := (hparent c t).mp h
    exact ⟨Nat.one_lt_two, Nat.two_pos⟩
  · exact (hparent c t).mpr ((hlist t c).mp h)
  · simp only [boot]
    split <;> simp
  · rcases h with h | h <;> exact absurd rfl h
  · have hstage : (boot value).stage t c =
        if c = idleThread ∧ t = initialThread then .listed else .foreign := by
      simp only [stage, hlist]
      split <;> simp_all
    rw [hstage]
    refine ⟨if c = idleThread ∧ t = initialThread then .listed else .foreign, ?_, by split <;> rfl⟩
    refine Discipline.after_of_forall fun g hg ↦ ?_
    simp only [boot] at hg
    exact stageStep_of_none (by grind -linarith [Frame.onChild]) (by grind -linarith)
  · simp only [boot] at hg
    grind -linarith [Frame.onSelf]
  · simp only [boot] at hdie
    grind -linarith
  · simp only [boot] at hmem
    grind -linarith

/-! ## Lifetimes -/

/-- A thread that is dead has been released by its parent. -/
def Buried (s : Sched) : Prop := ∀ c, c < s.next → s.Dead c → s.ups (.elim c) ≠ 0

namespace Buried

theorem moves (h : s.Buried) (hm : s.Moves s') (hs : s.Spares s') : s'.Buried := by
  intro c hc hdead
  rw [hm.data] at hc ⊢
  exact h c hc (hs c hdead)

theorem of_after (h : s.Buried) (hc : c < (s.after cfg f).next) (hdead : (s.after cfg f).Dead c) :
    (s.after cfg f).ups (.elim c) ≠ 0 := by
  rw [next_after] at hc
  rw [Dead, status_after] at hdead
  have hold : c < s.next ∧ s.Dead c := by
    split at hdead
    · rcases hdead with hdead | hdead <;> cases hdead
    · next hnew =>
      refine ⟨?_, hdead⟩
      cases hborn : f.born with
      | none =>
        rw [hborn] at hc
        exact hc
      | some code =>
        have hne : c ≠ s.next := fun hcon ↦ hnew ⟨by rw [hborn]; rfl, hcon⟩
        rw [hborn, toList_some, length_singleton] at hc
        omega
  have := h c hold.1 hold.2
  rw [ups_after]
  split <;> omega

/-- Only a thread that has got past its `sema_elim` dies. -/
theorem frame {pick : Option Nat} (h : s.Buried) (hfamily : s.Family)
    (hf : s.Next f)
    (hperform : (s.after cfg f).perform pick (s.pop.effect cfg s.running f).1 = some s') :
    s'.Buried := by
  intro c hc hdead
  have hm := Moves.perform hperform
  rw [hm.data] at hc ⊢
  by_cases hdie : f = .die
  · subst hdie
    have hrunning : (s.after cfg .die).running = s.running :=
      running_effect cfg s.pop s.running .die
    by_cases hrun : c = s.running
    · subst hrun
      have hcode : s.code s.running = [.die] := by
        rw [← cons_head?_tail hf, hfamily.last_tail hf rfl]
      have hdowns : s.downs (.elim s.running) ≠ 0 := by
        have hold := hfamily.dies s.running (by simp [hcode])
        simpa [hcode] using hold
      rw [ups_after, if_neg (by nofun)]
      exact hfamily.used _ (.inr hdowns)
    · exact h.of_after hc (Spares.perform_exit hperform (hrunning ▸ hrun) hdead)
  · refine h.of_after hc (Spares.perform hperform (fun hexit ↦ hdie ?_) c hdead)
    cases f with
    | die => rfl
    | down _ | redown _ =>
      simp only [Sched.effect, semaDown] at hexit
      split at hexit <;> cases hexit
    | up _ =>
      simp only [Sched.effect, semaUp] at hexit
      split at hexit <;> cases hexit
    | _ => cases hexit

theorem step {a : FreeAct} (h : s.Buried) (hfamily : s.Family)
    (hstep : s.freeStep cfg a = some s') : s'.Buried := by
  rcases freeStep_cases hstep with rfl | ⟨c, pick, hnil, -, -, rfl⟩ |
    ⟨f, pick, hf, -, -, hperform⟩ | ⟨hm, hs, -⟩
  · exact h
  · exact h
  · exact h.frame hfamily hf hperform
  · exact h.moves hm hs

end Buried

theorem buried_boot (value : Nat → Nat) : (boot value).Buried := by
  intro c hc hdead
  have hlt : c < 2 := hc
  simp only [Dead, boot] at hdead
  grind -linarith

theorem Family.step {a : FreeAct} (h : s.Family) (hk : s.Kept)
    (hstep : s.freeStep cfg a = some s') : s'.Family := by
  rcases freeStep_cases hstep with rfl | ⟨c, pick, hnil, -, -, rfl⟩ |
    ⟨f, pick, hf, -, -, hperform⟩ | ⟨hm, -, -⟩
  · exact h
  · exact h.push hk.steady hnil
  · exact (h.after hk.steady hf).moves (.perform hperform)
  · exact h.moves hm

/-- A child that has not been released is alive. -/
theorem Family.alive (h : s.Family) (hb : s.Buried) (hforeign : s.stage t c ≠ .foreign)
    (hreleased : s.stage t c ≠ .released) : ¬ s.Dead c := by
  intro hdead
  have hparent := parent_of_stage hforeign
  have hups := hb c (h.parent c t hparent).1 hdead
  have hmem := h.raised c hups
  have hnot : c ∉ s.childTlist t := fun hcon ↦ h.listed t c hcon hmem
  simp [stage, hparent, hnot, hmem, hups] at hreleased

theorem Family.present (h : s.Family) (hb : s.Buried) : s.present (s.childTlist t) = true := by
  simp only [Sched.present, List.all_eq_true, decide_eq_true_eq]
  intro c hc hgone
  have hstage := h.stage_eq_listed hc
  exact h.alive hb (t := t) (by rw [hstage]; nofun) (by rw [hstage]; nofun) (.inl hgone)

theorem Family.status_of_head {p : Nat × Stage × Stage} (h : s.Family) (hb : s.Buried)
    (hf : (s.code t).head? = some f) (hp : f.onChild = some p) : s.status p.1 ≠ .gone := by
  have hstage := h.head_stage hf hp
  obtain ⟨hforeign, hreleased⟩ := Frame.onChild_before hp
  exact fun hgone ↦ h.alive hb (hstage ▸ hforeign) (hstage ▸ hreleased) (.inl hgone)

/-- What the running thread gets to through its children is there. -/
theorem Family.safe (h : s.Family) (hb : s.Buried) (hs : s.Steady)
    (hf : s.Next f) (hlock : f.assertsLock = false) : s.safe cfg s.running f = true := by
  have hself : ∀ n, f.onSelf = some n → s.status n ≠ .gone := by
    intro n hn
    rw [h.self _ f (mem_of_mem_head? hf) n hn, (hs.run _).mpr rfl]
    nofun
  have hchild : ∀ p, f.onChild = some p → s.status p.1 ≠ .gone := fun p ↦ h.status_of_head hb hf
  cases f with
  | down σ | redown σ =>
    cases σ with
    | wait n | load n =>
      simpa [Sched.safe, live, SemaId.owner] using hchild (n, .listed, .listed) rfl
    | elim n => simpa [Sched.safe, live, SemaId.owner] using hself n rfl
    | _ => rfl
  | up σ =>
    cases σ with
    | wait n | load n => simpa [Sched.safe, live, SemaId.owner] using hself n rfl
    | elim n => simpa [Sched.safe, live, SemaId.owner] using hchild (n, .removed, .released) rfl
    | _ => rfl
  | addChild _ | waitGetChild _ | exitLoop => exact h.present hb
  | execGetChild tid =>
    have hcode : s.code s.running = [.execGetChild tid] := by
      rw [← cons_head?_tail hf, h.last_tail hf rfl]
    obtain ⟨c, htid, hafter⟩ := h.exec s.running tid (by simp [hcode])
    rw [hcode] at hafter
    have hmem : c ∈ s.childTlist s.running := mem_of_listed (some.inj hafter)
    have hfind : (s.threadGetChild s.running tid).isSome = true := by
      rw [threadGetChild, List.find?_isSome]
      exact ⟨c, hmem, by simpa using htid⟩
    rw [Sched.safe, h.present hb, hfind]
    rfl
  | execRead n => simpa [Sched.safe] using hchild (n, .listed, .listed) rfl
  | readStatus n => simpa [Sched.safe] using hchild (n, .removed, .removed) rfl
  | removeChild n =>
    have hmem := mem_of_listed (h.head_stage hf (p := (n, .listed, .removed)) rfl)
    simp [Sched.safe, h.present hb, hmem]
  | acquire _ | tryAcquire _ | release _ | condWait _ | condSignal _ => cases hlock
  | _ => rfl

/-- **No thread reaches a child that has been freed.**  Whatever the threads do, as long as they
call `thread_unblock` only for a thread that has called `thread_block`, and whichever runs in
between:
* the children in the list of a thread are alive, and so are those that a function which a thread is
  in has still to use, up to `sema_up (&child->sema_elim)`;
* what the running thread does next does not go through a pointer to a thread that has been freed,
  or through a null pointer;
* a child is taken off its list once at most, and a thread that is dying, or has been freed, has
  been taken off and released by its parent, in `process_wait` or in `thread_exit`. -/
theorem children_live {value : Nat → Nat} {as : List FreeAct}
    (hparked : Run.Meets (freeStep cfg) UnblocksParked (boot value) as)
    (hrun : Run.run (freeStep cfg) (boot value) as = some s) :
    (∀ t, ∀ c ∈ s.childTlist t, ¬ s.Dead c) ∧
    (∀ t, ∀ f ∈ s.code t, ∀ p, f.onChild = some p → ¬ s.Dead p.1) ∧
    (∀ f, (s.code s.running).head? = some f → f.assertsLock = false →
      s.safe cfg s.running f = true) ∧
    s.removed.Nodup ∧ (∀ t, ∀ c ∈ s.childTlist t, c ∉ s.removed) ∧
    ∀ c, c < s.next → s.Dead c → c ∈ s.removed ∧ s.ups (.elim c) ≠ 0 := by
  obtain ⟨hk, h, hb⟩ := Run.invariant (I := fun s ↦ s.Kept ∧ s.Family ∧ s.Buried)
    (fun s a s' hI hu hstep ↦
      ⟨hI.1.step hu hstep, hI.2.1.step hI.1 hstep, hI.2.2.step hI.2.1 hstep⟩)
    ⟨kept_boot value, family_boot value, buried_boot value⟩ hparked hrun
  refine ⟨fun t c hc ↦ ?_, fun t f hf p hp ↦ ?_, fun f hf hlock ↦ h.safe hb hk.steady hf hlock,
    h.once, h.listed, fun c hc hdead ↦ ⟨h.raised c (hb c hc hdead), hb c hc hdead⟩⟩
  · have hstage := h.stage_eq_listed hc
    exact h.alive hb (t := t) (by rw [hstage]; rintro ⟨⟩) (by rw [hstage]; rintro ⟨⟩)
  · obtain ⟨st, hafter, -⟩ := h.staged t p.1
    obtain ⟨hforeign, hreleased⟩ := stage_of_mem hafter hf hp rfl
    exact h.alive hb hforeign hreleased

/-- The second thread exits, the main thread waits for it and then blocks. -/
def reap : List FreeAct :=
  spawn ++ FreeAct.event (.call .exit) none :: List.replicate 3 (FreeAct.event .go none) ++
    FreeAct.event (.call (.wait 3)) none :: List.replicate 5 (FreeAct.event .go none) ++
    FreeAct.event (.call .block) none :: List.replicate 4 (FreeAct.event .go none)

/-- The second thread has been freed, after the main thread has waited for it. -/
theorem children_live_reaped : ∃ s,
    Run.run (freeStep ⟨true, false, false, id⟩) (boot fun _ ↦ 0) reap = some s ∧
    s.status 2 = .gone ∧ 2 ∈ s.removed ∧ s.childTlist initialThread = [idleThread] ∧
    ¬ s.Dead idleThread := by
  refine Run.exists_of_view (fun s ↦ (s.status 2, s.next, s.childTlist initialThread))
    (.gone, 3, [idleThread]) (by decide +kernel) fun s hrun heval ↦ ?_
  simp only [Prod.mk.injEq] at heval
  obtain ⟨hgone, hnext, hchildren⟩ := heval
  obtain ⟨hlisted, -, -, -, -, hburied⟩ := children_live (by decide +kernel) hrun
  exact ⟨hgone, (hburied 2 (by omega) (.inl hgone)).1, hchildren,
    hlisted initialThread idleThread (by simp [hchildren])⟩

end Sched

end Pintos
