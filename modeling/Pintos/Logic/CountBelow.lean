import Mathlib

/-!
# Counting numbers below a bound

`countBelow n p` is how many numbers below `n` have the property `p`.  Objects with a number as
their address are counted in this way: a change to one of them changes the count by what it changes
there.
-/

set_option autoImplicit false

/-- How many numbers below `n` have the property `p`. -/
def countBelow (n : Nat) (p : Nat → Bool) : Nat := (List.range n).countP p

section

variable {n i : Nat} {p q : Nat → Bool}

theorem countBelow_succ : countBelow (n + 1) p = countBelow n p + (p n).toNat := by
  rw [countBelow, List.range_succ, List.countP_append, countBelow]
  cases h : p n <;> simp [h]

theorem countBelow_congr (h : ∀ j < n, p j = q j) : countBelow n p = countBelow n q :=
  List.countP_congr fun j hj ↦ by rw [h j (List.mem_range.mp hj)]

/-- The two properties agree everywhere but at `i`. -/
theorem countBelow_update (hi : i < n) (h : ∀ j, j ≠ i → p j = q j) :
    countBelow n p + (q i).toNat = countBelow n q + (p i).toNat := by
  induction n with
  | zero => omega
  | succ n ih =>
    rw [countBelow_succ, countBelow_succ]
    by_cases hin : i = n
    · subst hin
      rw [countBelow_congr fun j hj ↦ h j (by omega)]
      omega
    · have := ih (by omega)
      rw [h n (Ne.symm hin)]
      omega

/-- The same, where the bound grows beyond what is counted. -/
theorem countBelow_update_of_le {m : Nat} (hi : i < n) (hnm : n ≤ m)
    (hq : ∀ j, n ≤ j → q j = false) (h : ∀ j, j ≠ i → p j = q j) :
    countBelow m p + (q i).toNat = countBelow n q + (p i).toNat := by
  induction hnm with
  | refl => exact countBelow_update hi h
  | @step m hnm ih =>
    have hnm : n ≤ m := hnm
    rw [countBelow_succ, h m (by omega), hq m hnm]
    exact ih

theorem countBelow_eq_zero : countBelow n p = 0 ↔ ∀ j < n, p j = false := by
  simp [countBelow, List.countP_eq_zero]

theorem countBelow_le (h : ∀ j < n, p j = true → q j = true) : countBelow n p ≤ countBelow n q :=
  List.countP_mono_left fun j hj ↦ h j (List.mem_range.mp hj)

end
