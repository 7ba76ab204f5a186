import Pintos.Userprog.Boundary
import Pintos.Vm.PageSetup

/-!
# Which addresses a process may pass

`is_valid_userptr` and `is_valid_stack` of `userprog/syscall.c`.

* `isValidStack_iff` — what the arithmetic of `is_valid_stack` comes to: the distance of `esp` is a
  signed number, so that an `esp` more than 2 GB below the address counts as one above it;
* `is_valid_stack_exact` — where this is the condition that is meant;
* `UserPointer.isValidUserptr` — the check with the page that it may add; in
  `Pintos.Userprog.Boundary` the page is left out (`isValidUserptr_env`);
* `UserPointer.is_valid_userptr_exact` — where the result is the right one.  For an address whose
  page has an entry there is no result.
-/

set_option autoImplicit false

namespace Pintos

/-! ## `is_valid_stack` -/

/-- The addresses where the stack may be. -/
def InStack (addr : Nat) : Prop := physBase - 8 * 1024 * 1024 ≤ addr ∧ addr < physBase

/-- **`is_valid_stack` without its arithmetic.** -/
theorem isValidStack_iff {addr esp : Nat} (haddr : addr < 2 ^ 32) (hesp : esp < 2 ^ 32) :
    isValidStack addr esp = true ↔ InStack addr ∧ esp ≤ addr + 32 ∧ addr ≤ esp + 2 ^ 31 := by
  simp only [isValidStack, InStack, Bool.and_eq_true, decide_eq_true_eq, Int.bmod_def, physBase]
  omega

/-- **The test for a growing stack** is the condition that is meant, that `addr` is at most 8 MB
below `PHYS_BASE` and at most 32 bytes below `esp`, if and only if `addr` is not in these 8 MB or
not more than 2 GB above `esp`. -/
theorem is_valid_stack_exact (addr esp : BitVec 32) : (isValidStack addr.toNat esp.toNat = true ↔
      InStack addr.toNat ∧ esp.toNat ≤ addr.toNat + 32) ↔
    ¬ (InStack addr.toNat ∧ esp.toNat + 2 ^ 31 < addr.toNat) := by
  rw [isValidStack_iff addr.isLt esp.isLt]
  constructor
  · rintro h ⟨hin, hfar⟩
    have := (h.mpr ⟨hin, by omega⟩).2.2
    omega
  · intro hnear
    constructor
    · exact fun h ↦ ⟨h.1, h.2.1⟩
    · exact fun h ↦ ⟨h.1, h.2, Nat.le_of_not_lt fun hfar ↦ hnear ⟨h.1, hfar⟩⟩

/-- A stack pointer in the data segment: an address in the stack is refused. -/
theorem is_valid_stack_far : isValidStack (0xBFFF0000#32).toNat (0x08060000#32).toNat = false ∧
      InStack (0xBFFF0000#32).toNat ∧ (0x08060000#32).toNat ≤ (0xBFFF0000#32).toNat + 32 := by
  refine ⟨by decide, ⟨by decide, by decide⟩, by decide⟩

/-! ## `is_valid_userptr` -/

namespace UserPointer

open Option PageSetup

section

variable (base : Nat) (s : Vm) (t : Nat) (c : Choices)

/-- `is_valid_userptr`; the result is `none` when control reaches the end of the function. -/
def isValidUserptr (ptr esp : Nat) : Kernel (Option Bool × Vm) :=
  if ptr = 0 then some (some false, s)
  else if !(ptr < physBase && 0x08048000 ≤ ptr) then some (some false, s)
  else
    match s.getPge t (pgRoundDown ptr) with
    | none =>
      if !isValidStack ptr esp then some (some false, s)
      else do
        let a ← stackGrow base s t c ptr
        return (some true, a.vm)
    | some _ => some (none, s)

end

/-- The addresses of user programs. -/
def InUser (ptr : Nat) : Prop := 0x08048000 ≤ ptr ∧ ptr < physBase

variable {base t ptr esp pge : Nat} {s s' : Vm} {c : Choices}

/-- The result is the right one: `isValidUserptr` returns `r`. -/
structure Right (s : Vm) (t : Nat) (c : Choices) (ptr esp : Nat) (r : Option Bool × Vm) : Prop where
  /-- It is true exactly if the address is one of the program's, or was made one. -/
  value : ∃ b, r.1 = some b ∧ (b = true ↔ ptr ≠ 0 ∧ InUser ptr ∧
    (s.getPge t (pgRoundDown ptr) ≠ none ∨ isValidStack ptr esp = true ∧
      ∃ pge, c.pge = some pge ∧ HasStackPage r.2 t (pgRoundDown ptr) pge))
  present : r.1 = some true → r.2.getPge t (pgRoundDown ptr) ≠ none
  unchanged : r.1 = some false → r.2 = s

/-- What the check needs: an address of user programs has no page entry, and if it is taken for one
in the stack, there is room for the page. -/
def Covered (s : Vm) (t : Nat) (c : Choices) (ptr esp : Nat) : Prop :=
  InUser ptr → s.getPge t (pgRoundDown ptr) = none ∧
    (isValidStack ptr esp = true → c.pge ≠ none ∧ Room s t (pgRoundDown ptr) c)

theorem isValidUserptr_of_not_inUser (h : ¬ InUser ptr) :
    isValidUserptr base s t c ptr esp = some (some false, s) := by
  rw [isValidUserptr]
  split
  · rfl
  · rw [if_pos]
    simpa only [Bool.not_eq_true', Bool.and_eq_false_iff, decide_eq_false_iff_not, InUser,
      not_and_or, or_comm] using h

theorem isValidUserptr_of_inUser (h : InUser ptr) : isValidUserptr base s t c ptr esp =
    match s.getPge t (pgRoundDown ptr) with
    | none =>
      if isValidStack ptr esp then
        (stackGrow base s t c ptr).bind fun a ↦ some (some true, a.vm)
      else some (some false, s)
    | some _ => some (none, s) := by
  have hne : ptr ≠ 0 := by
    have := h.1
    omega
  have hin : (!(decide (ptr < physBase) && decide (0x08048000 ≤ ptr))) = false := by
    simp only [h.1, h.2, decide_true, Bool.and_self, Bool.not_true]
  rw [isValidUserptr, if_neg hne, if_neg (by rw [hin]; exact Bool.false_ne_true)]
  split
  · cases isValidStack ptr esp <;> rfl
  · rfl

/-- **The check without the page it adds**: where there is a result, it is that of
`Syscall.Env.isValidUserptr`. -/
theorem isValidUserptr_env {env : Syscall.Env} {b : Bool}
    (henv : ∀ p, env.hasEntry p = (s.getPge t (pgRoundDown p)).isSome)
    (h : isValidUserptr base s t c ptr esp = some (some b, s')) :
    env.isValidUserptr ptr esp = b := by
  rw [isValidUserptr] at h
  rw [Syscall.Env.isValidUserptr, henv ptr]
  by_cases hzero : ptr = 0
  · rw [if_pos hzero] at h ⊢
    cases h
    rfl
  rw [if_neg hzero] at h ⊢
  cases hin : (!(decide (ptr < physBase) && decide (0x08048000 ≤ ptr))) with
  | true =>
    rw [hin, if_pos rfl] at h
    cases h
    rfl
  | false =>
    rw [hin, if_neg Bool.false_ne_true] at h
    rw [if_neg Bool.false_ne_true]
    cases hget : s.getPge t (pgRoundDown ptr) with
    | some e =>
      rw [hget] at h
      cases h
    | none =>
      rw [hget] at h
      cases hstack : isValidStack ptr esp with
      | false =>
        rw [hstack] at h
        cases h
        rfl
      | true =>
        rw [hstack] at h
        obtain ⟨a, -, heq⟩ := bind_eq_some_iff.mp h
        cases heq
        rfl

/-- Nothing is asked of an address that is not one of user programs. -/
theorem right_false (hno : ¬ (ptr ≠ 0 ∧ InUser ptr ∧ (s.getPge t (pgRoundDown ptr) ≠ none ∨
      isValidStack ptr esp = true))) : Right s t c ptr esp (some false, s) := by
  refine ⟨⟨false, rfl, iff_of_false Bool.false_ne_true ?_⟩, nofun, fun _ ↦ rfl⟩
  rintro ⟨hne, hin, hpage⟩
  exact hno ⟨hne, hin, hpage.imp_right And.left⟩

/-- **The check of a pointer is exact** if and only if the address is none of user programs, or its
page has no entry, and if it is taken for an address in the stack, there is room for the page. -/
theorem is_valid_userptr_exact {u : HeapUse} (hu : u.Sound)
    (hpage : ∀ page, c.page = some page → u.live page ≠ none)
    (hfresh : ∀ pge v, c.pge = some pge → s.getPge t v ≠ some pge) :
    Returns (isValidUserptr base s t c ptr esp) (Right s t c ptr esp) ↔ Covered s t c ptr esp := by
  by_cases hin : InUser ptr
  swap
  · rw [isValidUserptr_of_not_inUser hin]
    exact iff_of_true (.pure (right_false fun h ↦ hin h.2.1)) fun h ↦ absurd h hin
  rw [isValidUserptr_of_inUser hin, Covered, forall_prop_of_true hin]
  cases hget : s.getPge t (pgRoundDown ptr) with
  | some e =>
    refine iff_of_false ?_ nofun
    rintro ⟨r, hr, hright⟩
    cases hr
    obtain ⟨b, hb, -⟩ := hright.value
    cases hb
  | none =>
    rw [and_iff_right rfl]
    cases hstack : isValidStack ptr esp with
    | false =>
      refine iff_of_true (.pure (right_false fun h ↦ ?_)) nofun
      rcases h.2.2 with hne | htrue
      · exact hne hget
      · rw [hstack] at htrue
        cases htrue
    | true =>
      rw [if_pos rfl, forall_prop_of_true rfl]
      have hblock : ∀ page, c.page = some page → pgOfs page ≠ 0 := fun page hp ↦
        hu.pgOfs_ne_zero (hpage page hp)
      constructor
      · rintro ⟨r, hr, hright⟩
        obtain ⟨a, ha, hr⟩ := bind_eq_some_iff.mp hr
        cases hr
        obtain ⟨b, hb, hiff⟩ := hright.value
        cases hb
        obtain ⟨-, -, hne | ⟨-, pge, hpge, hhas⟩⟩ := hiff.mp rfl
        · exact absurd hget hne
        · rw [hpge]
          exact ⟨some_ne_none pge,
            (room_of_hasStackPage hblock (fun v ↦ hfresh pge v hpge) hpge ha hhas).2⟩
      · rintro ⟨hpge, hroom⟩
        obtain ⟨pge, hpge⟩ := ne_none_iff_exists'.mp hpge
        obtain ⟨a, ha, -, hhas⟩ := mapStackPage_of_room base hpge hroom
        refine ⟨(some true, a.vm), bind_eq_some_iff.mpr ⟨a, ha, rfl⟩, ⟨true, rfl, ?_⟩, ?_,
          nofun⟩
        · have hne : ptr ≠ 0 := by
            have := hin.1
            omega
          exact iff_of_true rfl ⟨hne, hin, .inr ⟨hstack, pge, hpge, hhas⟩⟩
        · intro _
          rw [hhas.registered]
          exact some_ne_none pge

/-- A process with no entry for an address above its stack pointer: a page is added. -/
theorem is_valid_userptr_exact_grow :
    Covered (oneProcess ∅ shortEntry) 3 ⟨some 0x200, some 0xC010100C, ⟨0, 0, 0⟩, true⟩
      0xBFFFE000 0xBFFFE000 ∧ Returns (isValidUserptr 0xC0400000 (oneProcess ∅ shortEntry) 3
        ⟨some 0x200, some 0xC010100C, ⟨0, 0, 0⟩, true⟩ 0xBFFFE000 0xBFFFE000)
      (Right (oneProcess ∅ shortEntry) 3 ⟨some 0x200, some 0xC010100C, ⟨0, 0, 0⟩, true⟩
        0xBFFFE000 0xBFFFE000) := by
  obtain ⟨u, hu, hlive⟩ := HeapUse.exists_live
  have hcovered : Covered (oneProcess ∅ shortEntry) 3 ⟨some 0x200, some 0xC010100C, ⟨0, 0, 0⟩, true⟩
      0xBFFFE000 0xBFFFE000 :=
    fun _ ↦ ⟨rfl, fun _ ↦ ⟨nofun, nofun, nofun, nofun, rfl, .inl rfl, rfl⟩⟩
  refine ⟨hcovered, (is_valid_userptr_exact hu ?_ ?_).mpr hcovered⟩
  · rintro _ ⟨⟩
    exact hlive
  · rintro _ v ⟨⟩ hget
    cases (getPge_oneProcess hget).2

/-- An address in a segment of the program: control reaches the end of the function.  And an address
in the stack, when there is no memory: true, and no page. -/
theorem is_valid_userptr_no_value :
    isValidUserptr 0xC0400000 (oneProcess ∅ shortEntry) 3 ⟨none, none, ⟨0, 0, 0⟩, true⟩
      0x08048123 0xBFFFE000 = some (none, oneProcess ∅ shortEntry) ∧
    isValidUserptr 0xC0400000 (oneProcess ∅ shortEntry) 3 ⟨none, none, ⟨0, 0, 0⟩, true⟩
      0xBFFFE000 0xBFFFE000 = some (some true, oneProcess ∅ shortEntry) ∧
    (oneProcess ∅ shortEntry).getPge 3 0xBFFFE000 = none := by
  exact ⟨rfl, rfl, rfl⟩

end UserPointer

end Pintos
