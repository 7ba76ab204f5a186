import Pintos.Kernel.Bitmap

/-!
# Moving memory

`memmove` of `lib/string.c`.  It copies upwards or downwards, so that no byte is overwritten before
it is read, and memory is right afterwards however the ranges overlap (`memmove_spec`).  What it
returns is the pointer it has worked with, though: this is the destination only after a copy
downwards (`memmove_exact_iff`).
-/

set_option autoImplicit false

namespace Pintos

open Function

/-- `while (size-- > 0) *dst++ = *src++`: `dst` and the memory in the end. -/
def moveUp (mem : Nat → UInt8) (dst src : Nat) : Nat → Nat × (Nat → UInt8)
  | 0 => (dst, mem)
  | size + 1 => moveUp (update mem dst (mem src)) ((dst + 1) % 2 ^ 32) ((src + 1) % 2 ^ 32) size

/-- `while (size-- > 0) *--dst = *--src`: `dst` and the memory in the end. -/
def moveDown (mem : Nat → UInt8) (dst src : Nat) : Nat → Nat × (Nat → UInt8)
  | 0 => (dst, mem)
  | size + 1 =>
    let dst := (dst + (2 ^ 32 - 1)) % 2 ^ 32
    let src := (src + (2 ^ 32 - 1)) % 2 ^ 32
    moveDown (update mem dst (mem src)) dst src size

/-- `memmove`: what it returns, and the memory. -/
def memmove (mem : Nat → UInt8) (dst src size : Nat) : Kernel (Nat × (Nat → UInt8)) := do
  assert (dst ≠ 0 ∨ size = 0)
  assert (src ≠ 0 ∨ size = 0)
  if dst < src then return moveUp mem dst src size
  else return moveDown mem ((dst + size) % 2 ^ 32) ((src + size) % 2 ^ 32) size

/-- `size` bytes have been copied from `src` to `dst`. -/
structure Moved (mem : Nat → UInt8) (dst src size : Nat) (mem' : Nat → UInt8) : Prop where
  copied : ∀ i < size, mem' (dst + i) = mem (src + i)
  other : ∀ a, a < dst ∨ dst + size ≤ a → mem' a = mem a

section

variable (mem : Nat → UInt8) {dst src size : Nat}

/-- Upwards, the first byte is copied, and then the others. -/
theorem moved_moveUp (h : size ≠ 0 → dst < src) (hsrc : src + size ≤ 2 ^ 32) :
    (moveUp mem dst src size).1 = dst + size ∧
      Moved mem dst src size (moveUp mem dst src size).2 := by
  induction size generalizing mem dst src with
  | zero => exact ⟨rfl, nofun, fun _ _ ↦ rfl⟩
  | succ size ih =>
    have hdst : (dst + 1) % 2 ^ 32 = dst + 1 := Nat.mod_eq_of_lt (by omega)
    rw [moveUp, hdst]
    obtain ⟨hp, hcopied, hother⟩ :=
      @ih (update mem dst (mem src)) (dst + 1) ((src + 1) % 2 ^ 32) (by omega) (by omega)
    refine ⟨by omega, fun i hi ↦ ?_, fun a ha ↦ ?_⟩
    · rcases i with _ | i
      · rw [hother _ (by omega)]
        exact update_self ..
      · -- What is read has not been overwritten, since it lies further up.
        have hsrc' : (src + 1) % 2 ^ 32 + i = src + (i + 1) := by omega
        rw [show dst + (i + 1) = dst + 1 + i by omega, hcopied i (by omega), hsrc']
        exact update_of_ne (by omega) _ _
    · rw [hother a (by omega)]
      exact update_of_ne (by omega) _ _

/-- Downwards, the last byte is copied, and then the others. -/
theorem moved_moveDown (h : src ≤ dst) (hdst : dst + size ≤ 2 ^ 32) (hlt : dst < 2 ^ 32) :
    (moveDown mem ((dst + size) % 2 ^ 32) ((src + size) % 2 ^ 32) size).1 = dst ∧
      Moved mem dst src size
        (moveDown mem ((dst + size) % 2 ^ 32) ((src + size) % 2 ^ 32) size).2 := by
  induction size generalizing mem with
  | zero => exact ⟨Nat.mod_eq_of_lt hlt, nofun, fun _ _ ↦ rfl⟩
  | succ size ih =>
    have hd : ((dst + (size + 1)) % 2 ^ 32 + (2 ^ 32 - 1)) % 2 ^ 32 = (dst + size) % 2 ^ 32 := by
      omega
    have hs : ((src + (size + 1)) % 2 ^ 32 + (2 ^ 32 - 1)) % 2 ^ 32 = (src + size) % 2 ^ 32 := by
      omega
    have hd' : (dst + size) % 2 ^ 32 = dst + size := Nat.mod_eq_of_lt (by omega)
    have hs' : (src + size) % 2 ^ 32 = src + size := Nat.mod_eq_of_lt (by omega)
    simp only [moveDown, hd, hs]
    obtain ⟨hp, hcopied, hother⟩ :=
      ih (update mem ((dst + size) % 2 ^ 32) (mem ((src + size) % 2 ^ 32))) (by omega)
    rw [hd', hs'] at hcopied hother hp ⊢
    refine ⟨hp, fun i hi ↦ ?_, fun a ha ↦ ?_⟩
    · by_cases hlast : i = size
      · rw [hlast, hother _ (by omega)]
        exact update_self ..
      · rw [hcopied i (by omega)]
        exact update_of_ne (by omega) _ _
    · rw [hother a (by omega)]
      exact update_of_ne (by omega) _ _

/-- **Memory is right after `memmove`**, and what it returns is the end of the destination if that
lies below the source. -/
theorem memmove_spec (hdst : dst + size ≤ 2 ^ 32) (hsrc : src + size ≤ 2 ^ 32) (hlt : dst < 2 ^ 32)
    (hnull : size = 0 ∨ dst ≠ 0 ∧ src ≠ 0) :
    ∃ mem', memmove mem dst src size = some (if dst < src then dst + size else dst, mem') ∧
      Moved mem dst src size mem' := by
  have hassert : assert (dst ≠ 0 ∨ size = 0) = some () ∧ assert (src ≠ 0 ∨ size = 0) = some () :=
    ⟨assert_eq_some.mpr (by omega), assert_eq_some.mpr (by omega)⟩
  rw [memmove, hassert.1, hassert.2, some_bind, some_bind]
  split
  · next hlow =>
    obtain ⟨hp, hmoved⟩ := moved_moveUp mem (fun _ ↦ hlow) hsrc
    exact ⟨_, congrArg (fun p ↦ some (p, _)) hp, hmoved⟩
  · next hhigh =>
    obtain ⟨hp, hmoved⟩ := moved_moveDown mem (Nat.not_lt.mp hhigh) hdst hlt
    exact ⟨_, congrArg (fun p ↦ some (p, _)) hp, hmoved⟩

/-- **`memmove` copies and returns its destination exactly if it copies nothing, or downwards** and
not from a null pointer. -/
theorem memmove_exact_iff (hdst : dst + size ≤ 2 ^ 32) (hsrc : src + size ≤ 2 ^ 32)
    (hlt : dst < 2 ^ 32) :
    (∃ mem', memmove mem dst src size = some (dst, mem') ∧ Moved mem dst src size mem') ↔
      size = 0 ∨ src ≠ 0 ∧ src ≤ dst := by
  constructor
  · rintro ⟨mem', hmove, -⟩
    by_contra hno
    have hnull : dst ≠ 0 ∧ src ≠ 0 := by
      simp only [memmove, bind_eq_some, assert_eq_some] at hmove
      omega
    obtain ⟨mem'', heq, -⟩ := memmove_spec mem hdst hsrc hlt (.inr hnull)
    rw [if_pos (by omega)] at heq
    have := congrArg Prod.fst (Option.some.inj (hmove.symm.trans heq))
    omega
  · intro h
    obtain ⟨mem', hmove, hmoved⟩ := memmove_spec mem hdst hsrc hlt (by omega)
    have hp : (if dst < src then dst + size else dst) = dst := by
      split <;> omega
    exact ⟨mem', hmove.trans (by rw [hp]), hmoved⟩

end

theorem memmove_exact_iff_down : ∃ mem', memmove (fun a ↦ a.toUInt8) 11 10 2 = some (11, mem') ∧
    mem' 11 = 10 ∧ mem' 12 = 11 ∧ mem' 13 = 13 := by
  obtain ⟨mem', hmove, hmoved⟩ := (@memmove_exact_iff (fun a ↦ a.toUInt8) 11 10 2 (by decide)
    (by decide) (by decide)).mpr (.inr ⟨by decide, by decide⟩)
  exact ⟨mem', hmove, hmoved.copied 0 (by decide), hmoved.copied 1 (by decide),
    hmoved.other 13 (.inr (by decide))⟩

/-- **The text on the screen scrolls up, and `memmove` returns the end of the range.**  This is the
call of `newline`: 24 rows of 160 bytes, from the second row to the first one. -/
theorem memmove_returns_end : ∃ mem',
    memmove (fun _ ↦ 0x20) 0xc00b8000 0xc00b80a0 3840 = some (0xc00b8f00, mem') := by
  obtain ⟨mem', hmove, -⟩ := @memmove_spec (fun _ ↦ 0x20) 0xc00b8000 0xc00b80a0 3840 (by decide)
    (by decide) (by decide) (.inr ⟨by decide, by decide⟩)
  exact ⟨mem', hmove⟩

end Pintos
