import Pintos.Threads.Scheduler

/-!
# The load average

Once a second `thread_tick` of `threads/thread.c` calculates `load_avg` anew, with the constants
59/60 and 1/60 cut off to 14 binary digits and every product cut off once more.  The errors do not
add up without a bound, since each second forgets a sixtieth of what was there before.

* `nextLoadAvg` — the calculation.  In the scheduler it is a part of `Sched.everySecond`
  (`Sched.loadAvg_everySecond`).
* `nextLoadAvg_eq` — what it comes to as long as nothing overflows: the two constants are 16110 and
  273, in units of 2⁻¹⁴.
* `Tracks` — the invariant that one second keeps, and `load_avg_tracks` what follows for any number
  of them.
-/

set_option autoImplicit false

namespace Pintos

/-- The calculation of `load_avg` in `thread_tick`. -/
def nextLoadAvg (loadAvg readyThreads : Int) : Int :=
  let loadAvg := mulFp (divFp (intToFp 59) (intToFp 60)) loadAvg
  addFp loadAvg (mulFp (divFp (intToFp 1) (intToFp 60)) (intToFp readyThreads))

/-- The divisor in the calculation of `recent_cpu` that follows. -/
def decayDivisor (loadAvg : Int) : Int := addFp (mulFp loadAvg (intToFp 2)) (intToFp 1)

theorem Sched.loadAvg_everySecond (s : Sched) : s.everySecond.loadAvg =
    nextLoadAvg s.loadAvg (s.allList.countP fun t ↦
      t ≠ idleThread && (s.status t = .ready || s.status t = .running)) := by
  rfl

/-- What the arithmetic operations of one second come to before they are cut off to 32 bits, in
the order in which the code performs them. -/
def loadAvgResults (loadAvg readyThreads : Int) : List Int :=
  let decay := divFp (intToFp 59) (intToFp 60)
  let share := divFp (intToFp 1) (intToFp 60)
  let next := nextLoadAvg loadAvg readyThreads
  let double := mulFp next (intToFp 2)
  [59 * num1, 60 * num1, (intToFp 59 * num1).tdiv (intToFp 60), (decay * loadAvg).tdiv num1,
    1 * num1, 60 * num1, (intToFp 1 * num1).tdiv (intToFp 60), readyThreads * num1,
    (share * intToFp readyThreads).tdiv num1,
    mulFp decay loadAvg + mulFp share (intToFp readyThreads),
    2 * num1, (next * intToFp 2).tdiv num1, 1 * num1, double + intToFp 1,
    (double * num1).tdiv (decayDivisor next)]

/-- `load_avg` after `k` seconds, if `r i` threads were ready or running in second `i`. -/
def fixedLoadAvg (r : Nat → Nat) : Nat → Int
  | 0 => 0
  | k + 1 => nextLoadAvg (fixedLoadAvg r k) (r k)

/-- The same average in exact numbers. -/
def exactLoadAvg (r : Nat → Nat) : Nat → ℚ
  | 0 => 0
  | k + 1 => 59 / 60 * exactLoadAvg r k + r k / 60

/-! ## One second -/

variable {r : Int}

theorem intToFp_eq (hr : 0 ≤ r ∧ r ≤ 64) : intToFp r = r * 2 ^ 14 := by
  refine int32_eq_self ⟨?_, ?_⟩ <;> simp only [num1] <;> omega

variable {f : Int}

/-- The product with the decay, cut off. -/
theorem mulFp_decay (hf : 0 ≤ f ∧ f ≤ 64 * 2 ^ 14) : mulFp 16110 f = 16110 * f / 2 ^ 14 := by
  rw [mulFp, Int.tdiv_eq_ediv_of_nonneg (by omega)]
  refine int32_eq_self ⟨?_, ?_⟩ <;> simp only [num1] <;> omega

/-- The product with the number of threads, which is exact. -/
theorem mulFp_share (hr : 0 ≤ r ∧ r ≤ 64) : mulFp 273 (r * 2 ^ 14) = 273 * r := by
  rw [mulFp, ← Int.mul_assoc, Int.mul_tdiv_cancel _ (by decide)]
  exact int32_eq_self ⟨by omega, by omega⟩

section

variable (hf : 0 ≤ f ∧ f ≤ 64 * 2 ^ 14)

include hf

/-- **One second of the fixed-point calculation**, for a load average of at most 64 and at most 64
threads. -/
theorem nextLoadAvg_eq (hr : 0 ≤ r ∧ r ≤ 64) :
    nextLoadAvg f r = 16110 * f / 2 ^ 14 + 273 * r := by
  have hdecay : divFp (intToFp 59) (intToFp 60) = 16110 := by decide
  have hshare : divFp (intToFp 1) (intToFp 60) = 273 := by decide
  rw [nextLoadAvg, hdecay, hshare, intToFp_eq hr, mulFp_decay hf, mulFp_share hr]
  exact int32_eq_self ⟨by omega, by omega⟩

/-- The divisor is at least one. -/
theorem decayDivisor_eq :
    mulFp f (intToFp 2) = 2 * f ∧ decayDivisor f = 2 * f + 2 ^ 14 := by
  have htwo : intToFp 2 = 2 * 2 ^ 14 := by decide
  have hone : intToFp 1 = 2 ^ 14 := by decide
  have hdouble : mulFp f (intToFp 2) = 2 * f := by
    rw [htwo, mulFp, ← Int.mul_assoc, Int.mul_tdiv_cancel _ (by decide), Int.mul_comm]
    exact int32_eq_self ⟨by omega, by omega⟩
  refine ⟨hdouble, ?_⟩
  rw [decayDivisor, hdouble, hone]
  exact int32_eq_self ⟨by omega, by omega⟩

/-- The average and the number of threads stay below 64. -/
theorem nextLoadAvg_bounds (hr : 0 ≤ r ∧ r ≤ 64) :
    0 ≤ nextLoadAvg f r ∧ nextLoadAvg f r ≤ 64 * 2 ^ 14 := by
  rw [nextLoadAvg_eq hf hr]
  omega

/-- The quotient that `recent_cpu` decays by is at most one. -/
theorem isInt_decay :
    IsInt ((2 * f * num1).tdiv (2 * f + 2 ^ 14)) := by
  have hpos : 0 < 2 * f + 2 ^ 14 := by omega
  have hnum : 0 ≤ 2 * f * num1 := by
    simp only [num1]
    omega
  rw [Int.tdiv_eq_ediv_of_nonneg hnum]
  have hle : 2 * f * num1 / (2 * f + 2 ^ 14) ≤ 2 ^ 14 := by
    refine Int.ediv_le_of_le_mul hpos ?_
    simp only [num1]
    omega
  have hge : 0 ≤ 2 * f * num1 / (2 * f + 2 ^ 14) := Int.ediv_nonneg hnum hpos.le
  exact ⟨by omega, by omega⟩

/-- **Nothing overflows.** -/
theorem isInt_of_mem_loadAvgResults (hr : 0 ≤ r ∧ r ≤ 64) : ∀ x ∈ loadAvgResults f r, IsInt x := by
  have hdecay : divFp (intToFp 59) (intToFp 60) = 16110 := by decide
  have hshare : divFp (2 ^ 14) (intToFp 60) = 273 := by decide
  have hnext := nextLoadAvg_bounds hf hr
  obtain ⟨hdouble, hdivisor⟩ := decayDivisor_eq hnext
  have htwo : (nextLoadAvg f r * intToFp 2).tdiv num1 = 2 * nextLoadAvg f r := by
    rw [show intToFp 2 = 2 * num1 by decide, ← Int.mul_assoc, Int.mul_tdiv_cancel _ (by decide),
      Int.mul_comm]
  have hone : intToFp 1 = 2 ^ 14 := by decide
  have hready : intToFp r = r * 2 ^ 14 := intToFp_eq hr
  have hfirst : (16110 * f).tdiv num1 = 16110 * f / 2 ^ 14 :=
    Int.tdiv_eq_ediv_of_nonneg (by omega)
  have hsecond : (273 * (r * 2 ^ 14)).tdiv num1 = 273 * r := by
    rw [← Int.mul_assoc, Int.mul_tdiv_cancel _ (by decide)]
  simp only [loadAvgResults, hdecay, hshare, hdouble, hdivisor, htwo, hone, hready, hfirst, hsecond,
    mulFp_decay hf, mulFp_share hr, List.forall_mem_cons]
  -- The constants are evaluated, and the others are bounded by the average and the threads.
  refine ⟨by decide, by decide, by decide, ?_, by decide, by decide, by decide, ?_, ?_, ?_,
    by decide, ?_, by decide, ?_, isInt_decay hnext, nofun⟩
  all_goals
    simp only [IsInt, num1]
    omega

end

/-! ## Many seconds -/

/-- What is true of the two averages after any number of seconds. -/
structure Tracks (exact : ℚ) (fixed : Int) : Prop where
  fixed_nonneg : 0 ≤ fixed
  fixed_le : fixed ≤ 64 * 2 ^ 14
  /-- Everything is cut off towards zero, so the fixed-point average is never too large. -/
  le_exact : fixed / 2 ^ 14 ≤ exact
  /-- The errors of one second are below 1/240, and 59/60 of a quarter is 1/240 less than that. -/
  exact_lt : exact < fixed / 2 ^ 14 + 1 / 4

/-- **One second.** -/
theorem Tracks.next {exact : ℚ} {fixed : Int} {r : Nat} (h : Tracks exact fixed) (hr : r ≤ 64) :
    Tracks (59 / 60 * exact + r / 60) (nextLoadAvg fixed r) := by
  have hf : 0 ≤ fixed ∧ fixed ≤ 64 * 2 ^ 14 := ⟨h.fixed_nonneg, h.fixed_le⟩
  have hr' : 0 ≤ (r : Int) ∧ (r : Int) ≤ 64 := ⟨Int.natCast_nonneg r, by exact_mod_cast hr⟩
  obtain ⟨hnonneg, hle⟩ := nextLoadAvg_bounds hf hr'
  -- The quotient that is cut off, from below and from above.
  have hlow : 16110 * fixed / 2 ^ 14 * 2 ^ 14 ≤ 16110 * fixed := by omega
  have hhigh : 16110 * fixed < (16110 * fixed / 2 ^ 14 + 1) * 2 ^ 14 := by omega
  rw [nextLoadAvg_eq hf hr'] at hnonneg hle ⊢
  generalize 16110 * fixed / 2 ^ 14 = quotient at *
  have hlow : (quotient : ℚ) * 2 ^ 14 ≤ 16110 * fixed := by exact_mod_cast hlow
  have hhigh : (16110 * fixed : ℚ) < (quotient + 1) * 2 ^ 14 := by exact_mod_cast hhigh
  have hfixed : (0 : ℚ) ≤ fixed ∧ (fixed : ℚ) ≤ 64 * 2 ^ 14 := by exact_mod_cast hf
  have hready : (0 : ℚ) ≤ r ∧ (r : ℚ) ≤ 64 := by exact_mod_cast hr'
  have hexact := h.le_exact
  have hexact' := h.exact_lt
  refine ⟨hnonneg, hle, ?_, ?_⟩ <;> push_cast <;> linarith

/-- **The load average is tracked.**  For any numbers of threads of at most 64, after any number of
seconds: the fixed-point average is between 0 and 64, at most the exact one, and less than a quarter
below it; nothing overflows in the next second, and its divisor is positive. -/
theorem load_avg_tracks {r : Nat → Nat} (hr : ∀ k, r k ≤ 64) (k : Nat) :
    (∀ x ∈ loadAvgResults (fixedLoadAvg r k) (r k), IsInt x) ∧
    0 ≤ fixedLoadAvg r k ∧ fixedLoadAvg r k ≤ 64 * 2 ^ 14 ∧
    0 ≤ exactLoadAvg r k - fixedLoadAvg r k / 2 ^ 14 ∧
    exactLoadAvg r k - fixedLoadAvg r k / 2 ^ 14 < 1 / 4 ∧ 0 < decayDivisor (fixedLoadAvg r k) := by
  have htracks : Tracks (exactLoadAvg r k) (fixedLoadAvg r k) := by
    induction k with
    | zero => refine ⟨?_, ?_, ?_, ?_⟩ <;> norm_num [exactLoadAvg, fixedLoadAvg]
    | succ k ih => exact ih.next (hr k)
  obtain ⟨hnonneg, hle, hlow, hhigh⟩ := htracks
  refine ⟨isInt_of_mem_loadAvgResults ⟨hnonneg, hle⟩
    ⟨Int.natCast_nonneg _, by exact_mod_cast hr k⟩, hnonneg, hle, by linarith, by linarith, ?_⟩
  rw [(decayDivisor_eq ⟨hnonneg, hle⟩).2]
  omega

/-- Sixty threads for one second, and one from then on. -/
theorem load_avg_tracks_sixty : fixedLoadAvg (fun k ↦ if k = 0 then 60 else 1) 2 = 16379 ∧
    exactLoadAvg (fun k ↦ if k = 0 then 60 else 1) 2 - 16379 / 2 ^ 14 < 1 / 4 := by
  have hfixed : fixedLoadAvg (fun k ↦ if k = 0 then 60 else 1) 2 = 16379 := by decide
  have hr : ∀ k, (if k = 0 then 60 else 1) ≤ 64 := fun k ↦ by split <;> decide
  have h := (load_avg_tracks hr 2).2.2.2.2.1
  rw [hfixed] at h
  exact ⟨hfixed, by simpa using h⟩

end Pintos
