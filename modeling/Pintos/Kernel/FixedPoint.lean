import Mathlib

/-!
# Fixed-point numbers

`lib/kernel/arith_fp.c`: an `int` stands for the number it is 2¹⁴ times as large as.  A result that
does not fit is reduced to the low 32 bits; the products are formed as a `long long`, which is wide
enough.
-/

set_option autoImplicit false

namespace Pintos

/-- The `int` with the low 32 bits of a number. -/
def int32 (x : Int) : Int := x.bmod (2 ^ 32)

/-- An `int`. -/
def IsInt (x : Int) : Prop := -2 ^ 31 ≤ x ∧ x < 2 ^ 31

instance decidableIsInt (x : Int) : Decidable (IsInt x) := inferInstanceAs (Decidable (_ ∧ _))

theorem isInt_int32 (x : Int) : IsInt (int32 x) := by
  simp only [IsInt, int32, Int.bmod]
  omega

theorem int32_eq_self {x : Int} (h : IsInt x) : int32 x = x := by
  obtain ⟨hle, hlt⟩ := h
  simp only [int32, Int.bmod]
  omega

/-- `NUM_1`. -/
abbrev num1 : Int := 2 ^ 14

/-- `int_to_FP`. -/
def intToFp (integer : Int) : Int := int32 (integer * num1)

/-- `FP_to_int_round_off`. -/
def fpToIntRoundOff (decimal : Int) : Int :=
  if 0 ≤ decimal then (int32 (decimal + num1 / 2)).tdiv num1
  else (int32 (decimal - num1 / 2)).tdiv num1

/-- `add_FP_to_FP`. -/
def addFp (a b : Int) : Int := int32 (a + b)

/-- `mul_FP_to_FP`. -/
def mulFp (a b : Int) : Int := int32 ((a * b).tdiv num1)

/-- `sub_FP_to_FP`. -/
def subFp (a b : Int) : Int := int32 (a - b)

/-- `div_FP_to_FP`. -/
def divFp (a b : Int) : Int := int32 ((a * num1).tdiv b)

/-- Rounding respects the order of the numbers, if it does not overflow. -/
theorem fpToIntRoundOff_le {a b : Int} (ha : -2 ^ 31 + 2 ^ 13 ≤ a) (hb : b < 2 ^ 31 - 2 ^ 13)
    (h : a ≤ b) : fpToIntRoundOff a ≤ fpToIntRoundOff b := by
  have hround : ∀ x, a ≤ x → x ≤ b → fpToIntRoundOff x =
      (if 0 ≤ x then x + 2 ^ 13 else x - 2 ^ 13).tdiv num1 := by
    intro x hax hxb
    unfold fpToIntRoundOff
    split
    · rw [show num1 / 2 = 2 ^ 13 from rfl, int32_eq_self ⟨by omega, by omega⟩]
    · rw [show num1 / 2 = 2 ^ 13 from rfl, int32_eq_self ⟨by omega, by omega⟩]
  rw [hround a (Int.le_refl a) h, hround b h (Int.le_refl b)]
  refine Int.tdiv_le_tdiv (by decide) ?_
  split <;> split <;> omega

end Pintos
