import Pintos.Kernel.Bitmap
import Pintos.Kernel.FixedPoint

/-!
# 64-bit division

`lib/arithmetic.c`: the routines that the compiler calls to divide a 64-bit number by another.  A
`uint64_t` and an `int64_t` are a `BitVec 64`, read by `toNat` and by `toInt`; a conversion to a
narrower type keeps the low bits.

* `nlz_spec` — shifted left by `nlz x`, the number `x` has its highest bit set.
* `udiv64_eq` — `udiv64` is the division of natural numbers, and no `DIVL` traps.  For a divisor
  above 2³² the quotient is estimated from the 32 highest bits of the divisor, and
  `div_truncated_le` says that the estimate is too large by one at most.
* `sdiv64_eq` — `sdiv64` is the quotient truncated toward zero.
* `umoddi3_eq`, `moddi3_eq` — the remainders, of which only the low 32 bits are returned.
-/

set_option autoImplicit false

namespace Pintos

open Option

/-! ## The routines -/

/-- `divl`: `none` is the divide error `#DE`. -/
def divl (n : BitVec 64) (d : BitVec 32) : Kernel (BitVec 32) := do
  assert (d ≠ 0 ∧ n.toNat / d.toNat < 2 ^ 32)
  return BitVec.ofNat 32 (n.toNat / d.toNat)

/-- One test of `nlz`: a number whose `k` highest bits are zero is shifted past them. -/
def nlzStep (bound : BitVec 32) (k : Nat) (s : Nat × BitVec 32) : Nat × BitVec 32 :=
  if s.2 ≤ bound then (s.1 + k, s.2 <<< k) else s

/-- `nlz`. -/
def nlz (x : BitVec 32) : Nat :=
  let s := nlzStep 0x0000FFFF 16 (0, x)
  let s := nlzStep 0x00FFFFFF 8 s
  let s := nlzStep 0x0FFFFFFF 4 s
  let s := nlzStep 0x3FFFFFFF 2 s
  if s.2 ≤ 0x7FFFFFFF then s.1 + 1 else s.1

/-- `udiv64`. -/
def udiv64 (n d : BitVec 64) : Kernel (BitVec 64) :=
  if d >>> 32 = 0 then do
    let b := 1#64 <<< 32
    let n1 := (n >>> 32).setWidth 32
    let n0 := n.setWidth 32
    let d0 := d.setWidth 32
    let q ← divl (b * (n1 % d0).setWidth 64 + n0.setWidth 64) d0
    return q.setWidth 64 + b * (n1 / d0).setWidth 64
  else if n < d then
    return 0
  else do
    let d1 := (d >>> 32).setWidth 32
    let s := nlz d1
    let q₀ ← divl (n >>> 1) (((d <<< s) >>> 32).setWidth 32)
    let q := (q₀ >>> (31 - s)).setWidth 64
    return if n - (q - 1) * d < d then q - 1 else q

/-- `umod64`, which returns a `uint32_t`. -/
def umod64 (n d : BitVec 64) : Kernel (BitVec 32) := do
  let q ← udiv64 n d
  return (n - d * q).setWidth 32

/-- The `uint64_t` with the absolute value of an `int64_t`. -/
def abs64 (n : BitVec 64) : BitVec 64 := if 0 ≤ n.toInt then n else -n

/-- `sdiv64`. -/
def sdiv64 (n d : BitVec 64) : Kernel (BitVec 64) := do
  let qAbs ← udiv64 (abs64 n) (abs64 d)
  return if (n.toInt < 0) = (d.toInt < 0) then qAbs else -qAbs

/-- `smod64`, which returns an `int32_t`. -/
def smod64 (n d : BitVec 64) : Kernel (BitVec 32) := do
  let q ← sdiv64 n d
  return (n - d * q).setWidth 32

/-- `__divdi3`. -/
def divdi3 (n d : BitVec 64) : Kernel (BitVec 64) := sdiv64 n d

/-- `__moddi3`. -/
def moddi3 (n d : BitVec 64) : Kernel (BitVec 64) := do
  let r ← smod64 n d
  return r.signExtend 64

/-- `__udivdi3`. -/
def udivdi3 (n d : BitVec 64) : Kernel (BitVec 64) := udiv64 n d

/-- `__umoddi3`. -/
def umoddi3 (n d : BitVec 64) : Kernel (BitVec 64) := do
  let r ← umod64 n d
  return r.setWidth 64

/-! ## Quotients -/

variable {n : BitVec 64}

theorem divl_eq_some {d : BitVec 32} (hd : d ≠ 0) (h : n.toNat / d.toNat < 2 ^ 32) :
    divl n d = some (BitVec.ofNat 32 (n.toNat / d.toNat)) := by
  simp only [divl, assert, if_pos (And.intro hd h), some_bind, pure_def]

/-- Division of a number of two digits in base `b` by a number of one digit. -/
theorem div_two_digits {b d : Nat} (n1 n0 : Nat) (hd : 0 < d) :
    (b * n1 + n0) / d = (b * (n1 % d) + n0) / d + b * (n1 / d) := by
  have hsplit : b * n1 + n0 = (b * (n1 % d) + n0) + d * (b * (n1 / d)) := by
    conv_lhs => rw [← Nat.mod_add_div n1 d]
    ring
  rw [hsplit, Nat.add_mul_div_left _ _ hd]

/-- The digit that is carried over makes the second quotient a single digit. -/
theorem div_carry_lt {b d r n0 : Nat} (hr : r < d) (hn0 : n0 < b) : (b * r + n0) / d < b := by
  rw [Nat.div_lt_iff_lt_mul (by omega)]
  calc b * r + n0 < b * r + b := by omega
    _ = b * (r + 1) := by ring
    _ ≤ b * d := Nat.mul_le_mul_left b hr

/-- **A quotient by a divisor that has been made a little smaller** is too large by one at most,
if what the divisor has lost, times the quotient and one, is not more than what is left. -/
theorem div_truncated_le {n d d' : Nat} (hd' : 0 < d') (hle : d' ≤ d)
    (hlost : (n / d + 1) * (d - d') ≤ d') : n / d' ≤ n / d + 1 := by
  have hn : n < (n / d + 1) * d := by
    have := Nat.lt_mul_div_succ n (Nat.lt_of_lt_of_le hd' hle)
    rwa [Nat.mul_comm] at this
  have hsplit : (n / d + 1) * d = (n / d + 1) * d' + (n / d + 1) * (d - d') := by
    rw [← Nat.mul_add, Nat.add_sub_cancel' hle]
  rw [← Nat.lt_succ_iff, Nat.div_lt_iff_lt_mul hd']
  calc n < (n / d + 1) * d' + (n / d + 1) * (d - d') := by omega
    _ ≤ (n / d + 1) * d' + d' := by omega
    _ = (n / d + 1 + 1) * d' := by ring

/-! ## Leading zeros -/

/-- A test of `nlz` does not lose a bit, and it leaves one of the `k` highest bits set. -/
theorem nlzStep_spec (bound : BitVec 32) (k : Nat) {x : Nat} {s : Nat × BitVec 32} (hk : k ≤ 32)
    (hbound : bound.toNat + 1 = 2 ^ (32 - k)) (hs : s.2.toNat = x * 2 ^ s.1)
    (hlow : 2 ^ (32 - k) ≤ s.2.toNat * 2 ^ k) :
    (nlzStep bound k s).2.toNat = x * 2 ^ (nlzStep bound k s).1 ∧
      2 ^ (32 - k) ≤ (nlzStep bound k s).2.toNat := by
  unfold nlzStep
  split
  case isTrue h =>
    rw [BitVec.le_def] at h
    have hlt : s.2.toNat * 2 ^ k < 2 ^ 32 := by
      calc s.2.toNat * 2 ^ k < 2 ^ (32 - k) * 2 ^ k :=
            Nat.mul_lt_mul_of_pos_right (by omega) (by positivity)
        _ = 2 ^ 32 := by rw [← pow_add, Nat.sub_add_cancel hk]
    have hshift : (s.2 <<< k).toNat = s.2.toNat * 2 ^ k := by
      rw [BitVec.toNat_shiftLeft, Nat.shiftLeft_eq, Nat.mod_eq_of_lt hlt]
    rw [hshift]
    refine ⟨?_, hlow⟩
    rw [hs, pow_add, Nat.mul_assoc]
  case isFalse h =>
    rw [BitVec.le_def] at h
    exact ⟨hs, by omega⟩

/-- **`nlz` counts the leading zeros**: shifted by it, the number has its highest bit set. -/
theorem nlz_spec {x : BitVec 32} (hx : x ≠ 0) :
    2 ^ 31 ≤ x.toNat * 2 ^ nlz x ∧ x.toNat * 2 ^ nlz x < 2 ^ 32 := by
  have hpos : 0 < x.toNat := by
    have : x.toNat ≠ 0 := fun h ↦ hx (BitVec.eq_of_toNat_eq h)
    omega
  obtain ⟨h1, hlow1⟩ := nlzStep_spec 0x0000FFFF 16 (by decide) rfl
    (show (0, x).2.toNat = x.toNat * 2 ^ 0 from (Nat.mul_one _).symm)
    (show 2 ^ 16 ≤ x.toNat * 2 ^ 16 by omega)
  obtain ⟨h2, hlow2⟩ := nlzStep_spec 0x00FFFFFF 8 (by decide) rfl h1 (by omega)
  obtain ⟨h3, hlow3⟩ := nlzStep_spec 0x0FFFFFFF 4 (by decide) rfl h2 (by omega)
  obtain ⟨h4, hlow4⟩ := nlzStep_spec 0x3FFFFFFF 2 (by decide) rfl h3 (by omega)
  have hbound : (0x7FFFFFFF : BitVec 32).toNat = 2 ^ 31 - 1 := rfl
  unfold nlz
  dsimp only
  split
  case isTrue h =>
    rw [BitVec.le_def] at h
    rw [Nat.pow_succ _ (_ : Nat × BitVec 32).1, ← Nat.mul_assoc, ← h4]
    omega
  case isFalse h =>
    rw [BitVec.le_def] at h
    rw [← h4]
    omega

/-! ## Unsigned division -/

variable {d : BitVec 64}

/-- A divisor of 32 bits: long division in base 2³². -/
theorem udiv64_of_lt (hd : d ≠ 0) (hlt : d.toNat < 2 ^ 32) : udiv64 n d = some (n / d) := by
  have hpos : 0 < d.toNat := by
    have : d.toNat ≠ 0 := fun h ↦ hd (BitVec.eq_of_toNat_eq h)
    omega
  have hhigh : d >>> 32 = 0 := by
    apply BitVec.eq_of_toNat_eq
    rw [BitVec.toNat_ushiftRight, Nat.shiftRight_eq_div_pow, Nat.div_eq_of_lt hlt]
    rfl
  have hn := n.isLt
  have hd0 : (d.setWidth 32).toNat = d.toNat := by
    rw [BitVec.toNat_setWidth, Nat.mod_eq_of_lt hlt]
  have hn1 : ((n >>> 32).setWidth 32).toNat = n.toNat / 2 ^ 32 := by
    rw [BitVec.toNat_setWidth, BitVec.toNat_ushiftRight, Nat.shiftRight_eq_div_pow]
    omega
  have hn0 : (n.setWidth 32).toNat = n.toNat % 2 ^ 32 := BitVec.toNat_setWidth _ _
  have hr : n.toNat / 2 ^ 32 % d.toNat < d.toNat := Nat.mod_lt _ hpos
  -- The dividend of the `DIVL`.
  have hdividend : (1#64 <<< 32 * (((n >>> 32).setWidth 32) % d.setWidth 32).setWidth 64
      + (n.setWidth 32).setWidth 64).toNat =
      2 ^ 32 * (n.toNat / 2 ^ 32 % d.toNat) + n.toNat % 2 ^ 32 := by
    rw [BitVec.toNat_add, BitVec.toNat_mul, BitVec.toNat_setWidth, BitVec.toNat_setWidth,
      BitVec.toNat_umod, hn1, hd0, hn0]
    show (2 ^ 32 * (n.toNat / 2 ^ 32 % d.toNat % 2 ^ 64) % 2 ^ 64 +
      n.toNat % 2 ^ 32 % 2 ^ 64) % 2 ^ 64 = _
    omega
  have hfits : (2 ^ 32 * (n.toNat / 2 ^ 32 % d.toNat) + n.toNat % 2 ^ 32) / d.toNat < 2 ^ 32 :=
    div_carry_lt hr (Nat.mod_lt _ (by decide))
  have hne : d.setWidth 32 ≠ 0 := by
    intro h
    rw [h] at hd0
    simp only [BitVec.ofNat_eq_ofNat, BitVec.toNat_ofNat] at hd0
    omega
  have hdivl := divl_eq_some hne (by rw [hdividend, hd0]; exact hfits)
  have hquot : n.toNat / d.toNat = (2 ^ 32 * (n.toNat / 2 ^ 32 % d.toNat) + n.toNat % 2 ^ 32) /
      d.toNat + 2 ^ 32 * (n.toNat / 2 ^ 32 / d.toNat) := by
    rw [← div_two_digits _ _ hpos, Nat.div_add_mod]
  rw [udiv64, if_pos hhigh]
  dsimp only
  rw [hdivl]
  simp only [some_bind, pure_eq_some]
  apply BitVec.eq_of_toNat_eq
  rw [hdividend, hd0, BitVec.toNat_udiv, hquot, BitVec.toNat_add, BitVec.toNat_mul,
    BitVec.toNat_setWidth, BitVec.toNat_ofNat, BitVec.toNat_setWidth, BitVec.toNat_udiv, hn1, hd0]
  have hsum := Nat.lt_of_le_of_lt (Nat.div_le_self n.toNat d.toNat) hn
  generalize (2 ^ 32 * (n.toNat / 2 ^ 32 % d.toNat) + n.toNat % 2 ^ 32) / d.toNat = q0 at *
  generalize n.toNat / 2 ^ 32 / d.toNat = q1 at *
  show (q0 % 2 ^ 32 % 2 ^ 64 + 2 ^ 32 * (q1 % 2 ^ 64) % 2 ^ 64) % 2 ^ 64 = q0 + 2 ^ 32 * q1
  omega

/-- The estimate of `udiv64`, which divides by the 32 highest bits `d / 2 ^ (e + 1)` of the divisor
and needs no more than 32 bits for it. -/
theorem estimate_spec {n d e : Nat} (hn : n < 2 ^ 64) (he : e ≤ 31) (hle : 2 ^ (32 + e) ≤ d)
    (hlt : d < 2 ^ (33 + e)) (hnd : d ≤ n) :
    0 < d / 2 ^ (e + 1) ∧ n / 2 / (d / 2 ^ (e + 1)) < 2 ^ 32 ∧
      (n / 2 / (d / 2 ^ (e + 1)) / 2 ^ e = n / d ∨
        n / 2 / (d / 2 ^ (e + 1)) / 2 ^ e = n / d + 1) := by
  have hpow : 2 ^ (32 + e) = 2 ^ 31 * 2 ^ (e + 1) := by rw [← pow_add]; congr 1; omega
  have hv : 2 ^ 31 ≤ d / 2 ^ (e + 1) := by
    rw [Nat.le_div_iff_mul_le (by positivity), ← hpow]
    exact hle
  have hfits : n / 2 / (d / 2 ^ (e + 1)) < 2 ^ 32 := by
    rw [Nat.div_lt_iff_lt_mul (by omega)]
    omega
  refine ⟨by omega, hfits, ?_⟩
  have hquot : n / 2 / (d / 2 ^ (e + 1)) / 2 ^ e = n / (d / 2 ^ (e + 1) * 2 ^ (e + 1)) := by
    rw [Nat.div_div_eq_div_mul, Nat.div_div_eq_div_mul]
    congr 1
    ring
  have hle' : d / 2 ^ (e + 1) * 2 ^ (e + 1) ≤ d := Nat.div_mul_le_self _ _
  have hge' : 2 ^ (32 + e) ≤ d / 2 ^ (e + 1) * 2 ^ (e + 1) := by
    rw [hpow]
    exact Nat.mul_le_mul_right _ hv
  have hlost : d - d / 2 ^ (e + 1) * 2 ^ (e + 1) ≤ 2 ^ (e + 1) - 1 := by
    have := Nat.div_add_mod' d (2 ^ (e + 1))
    omega
  have hq : n / d + 1 ≤ 2 ^ (32 - e) := by
    rw [Nat.succ_le_iff, Nat.div_lt_iff_lt_mul (by have := Nat.two_pow_pos (32 + e); omega)]
    calc n < 2 ^ (32 - e) * 2 ^ (32 + e) := by rwa [← pow_add, show 32 - e + (32 + e) = 64 by omega]
      _ ≤ 2 ^ (32 - e) * d := Nat.mul_le_mul_left _ hle
  have hsmall : 2 ^ (32 - e) * (2 ^ (e + 1) - 1) ≤ 2 ^ (32 + e) := by
    rcases Nat.eq_zero_or_pos e with rfl | hpos
    · decide
    calc 2 ^ (32 - e) * (2 ^ (e + 1) - 1) ≤ 2 ^ (32 - e) * 2 ^ (e + 1) :=
          Nat.mul_le_mul_left _ (Nat.sub_le _ _)
      _ = 2 ^ 33 := by rw [← pow_add]; congr 1; omega
      _ ≤ 2 ^ (32 + e) := Nat.pow_le_pow_right (by decide) (by omega)
  have hupper : n / (d / 2 ^ (e + 1) * 2 ^ (e + 1)) ≤ n / d + 1 :=
    div_truncated_le (by have := Nat.two_pow_pos (32 + e); omega) hle'
      (((Nat.mul_le_mul hq hlost).trans hsmall).trans hge')
  have hlower : n / d ≤ n / (d / 2 ^ (e + 1) * 2 ^ (e + 1)) :=
    Nat.div_le_div_left hle' (by have := Nat.two_pow_pos (32 + e); omega)
  rw [hquot]
  omega

/-- The correction at the end of `udiv64` finds out which of the two quotients it is. -/
theorem correct_estimate {q : BitVec 64} (hd : 0 < d.toNat) (hnd : d.toNat ≤ n.toNat)
    (hq : q.toNat = n.toNat / d.toNat ∨ q.toNat = n.toNat / d.toNat + 1) :
    (if n - (q - 1) * d < d then q - 1 else q) = n / d := by
  have hpos : 0 < n.toNat / d.toNat := Nat.div_pos hnd hd
  have hmod := Nat.mod_lt n.toNat hd
  have hsplit := Nat.div_add_mod n.toNat d.toNat
  have hpred : (q - 1).toNat = q.toNat - 1 := by
    rw [BitVec.toNat_sub_of_le (by rw [BitVec.le_def]; show 1 ≤ q.toNat; omega)]
    rfl
  have hprod : ((q - 1) * d).toNat = d.toNat * (q.toNat - 1) := by
    have hle : d.toNat * (q.toNat - 1) ≤ d.toNat * (n.toNat / d.toNat) :=
      Nat.mul_le_mul_left _ (by omega)
    rw [BitVec.toNat_mul, hpred, Nat.mul_comm, Nat.mod_eq_of_lt (by omega)]
  have hrest : (n - (q - 1) * d).toNat = n.toNat - d.toNat * (q.toNat - 1) := by
    have hle : d.toNat * (q.toNat - 1) ≤ d.toNat * (n.toNat / d.toNat) :=
      Nat.mul_le_mul_left _ (by omega)
    rw [BitVec.toNat_sub_of_le (by rw [BitVec.le_def, hprod]; omega), hprod]
  apply BitVec.eq_of_toNat_eq
  rw [BitVec.toNat_udiv]
  rcases hq with hq | hq
  · have hprev : d.toNat * (n.toNat / d.toNat) = d.toNat * (q.toNat - 1) + d.toNat := by
      rw [← hq, ← Nat.mul_succ]
      congr 1
      omega
    rw [if_neg (by rw [BitVec.lt_def, hrest]; omega), hq]
  · have hprev : q.toNat - 1 = n.toNat / d.toNat := by omega
    rw [if_pos (by rw [BitVec.lt_def, hrest, hprev]; omega), hpred, hprev]

/-- The position of the highest bit of a number, from the shift that moves it to bit 31. -/
theorem exists_log_of_shift {x s : Nat} (hpos : 0 < x) (hle : 2 ^ 31 ≤ x * 2 ^ s)
    (hlt : x * 2 ^ s < 2 ^ 32) : ∃ e, e + s = 31 ∧ 2 ^ e ≤ x ∧ x < 2 ^ (e + 1) := by
  have hs : s < 32 := by
    rw [← Nat.pow_lt_pow_iff_right (show 1 < 2 by decide)]
    exact Nat.lt_of_le_of_lt (Nat.le_mul_of_pos_left _ hpos) hlt
  have hsum : 31 - s + s = 31 := by omega
  refine ⟨31 - s, hsum, ?_, ?_⟩
  · rw [← hsum, pow_add] at hle
    exact Nat.le_of_mul_le_mul_right hle (Nat.two_pow_pos s)
  · rw [show 32 = 31 - s + 1 + s by omega, pow_add] at hlt
    exact Nat.lt_of_mul_lt_mul_right hlt

/-- The 32 highest bits of the divisor, as `udiv64` shifts them into a word. -/
theorem toNat_normalised {e s : Nat} (hes : e + s = 31) (hlt : d.toNat < 2 ^ (33 + e)) :
    (((d <<< s) >>> 32).setWidth 32).toNat = d.toNat / 2 ^ (e + 1) := by
  have hfits : d.toNat * 2 ^ s < 2 ^ 64 := by
    calc d.toNat * 2 ^ s < 2 ^ (33 + e) * 2 ^ s :=
          Nat.mul_lt_mul_of_pos_right hlt (Nat.two_pow_pos s)
      _ = 2 ^ 64 := by rw [← pow_add]; congr 1; omega
  have hword : d.toNat / 2 ^ (e + 1) < 2 ^ 32 := by
    rw [Nat.div_lt_iff_lt_mul (Nat.two_pow_pos _), ← pow_add]
    exact hlt.trans_eq (by congr 1; omega)
  have hshift : d.toNat * 2 ^ s / 2 ^ 32 = d.toNat / 2 ^ (e + 1) := by
    rw [show 32 = e + 1 + s by omega, pow_add, Nat.mul_div_mul_right _ _ (Nat.two_pow_pos s)]
  rw [BitVec.toNat_setWidth, BitVec.toNat_ushiftRight, Nat.shiftRight_eq_div_pow,
    BitVec.toNat_shiftLeft, Nat.shiftLeft_eq, Nat.mod_eq_of_lt hfits, hshift,
    Nat.mod_eq_of_lt hword]

/-- A divisor of more than 32 bits: the estimate and its correction. -/
theorem udiv64_of_ge (hge : 2 ^ 32 ≤ d.toNat) : udiv64 n d = some (n / d) := by
  have hn := n.isLt
  have hhigh : (d >>> 32).toNat = d.toNat / 2 ^ 32 := by
    rw [BitVec.toNat_ushiftRight, Nat.shiftRight_eq_div_pow]
  have hne : d >>> 32 ≠ 0 := by
    intro h
    rw [h] at hhigh
    simp only [BitVec.ofNat_eq_ofNat, BitVec.toNat_ofNat] at hhigh
    omega
  rw [udiv64, if_neg hne]
  split
  case isTrue h =>
    simp only [pure_def, some_inj]
    apply BitVec.eq_of_toNat_eq
    rw [BitVec.toNat_udiv, Nat.div_eq_of_lt h]
    rfl
  case isFalse h =>
    rw [BitVec.lt_def, Nat.not_lt] at h
    have hd1 : ((d >>> 32).setWidth 32).toNat = d.toNat / 2 ^ 32 := by
      rw [BitVec.toNat_setWidth, hhigh]
      omega
    have hd1' : (d >>> 32).setWidth 32 ≠ 0 := by
      intro h0
      rw [h0] at hd1
      simp only [BitVec.ofNat_eq_ofNat, BitVec.toNat_ofNat] at hd1
      omega
    obtain ⟨hlow, hhi⟩ := nlz_spec hd1'
    rw [hd1] at hlow hhi
    dsimp only
    generalize nlz ((d >>> 32).setWidth 32) = s at *
    obtain ⟨e, hes, hle, hlt⟩ := exists_log_of_shift (by omega) hlow hhi
    have hdle : 2 ^ (32 + e) ≤ d.toNat := by
      rw [pow_add, Nat.mul_comm, ← Nat.le_div_iff_mul_le (by decide)]
      exact hle
    have hdlt : d.toNat < 2 ^ (33 + e) := by
      rw [show 33 + e = e + 1 + 32 by omega, pow_add, ← Nat.div_lt_iff_lt_mul (by decide)]
      exact hlt
    obtain ⟨hv0, hfits, hquot⟩ := estimate_spec hn (by omega) hdle hdlt h
    have hv := toNat_normalised hes hdlt
    have hne : ((d <<< s) >>> 32).setWidth 32 ≠ 0 := by
      intro h0
      rw [← hv, h0] at hv0
      exact Nat.lt_irrefl 0 hv0
    have hhalf : (n >>> 1).toNat = n.toNat / 2 := by
      rw [BitVec.toNat_ushiftRight, Nat.shiftRight_eq_div_pow, pow_one]
    have hdivl := divl_eq_some hne (by rw [hhalf, hv]; exact hfits)
    rw [hhalf, hv] at hdivl
    rw [hdivl]
    simp only [some_bind, pure_eq_some]
    refine correct_estimate (by omega) h ?_
    have hq : ((BitVec.ofNat 32 (n.toNat / 2 / (d.toNat / 2 ^ (e + 1))) >>> (31 - s)).setWidth
        64).toNat = n.toNat / 2 / (d.toNat / 2 ^ (e + 1)) / 2 ^ e := by
      have hle0 := Nat.div_le_self (n.toNat / 2 / (d.toNat / 2 ^ (e + 1))) (2 ^ e)
      rw [BitVec.toNat_setWidth, BitVec.toNat_ushiftRight, Nat.shiftRight_eq_div_pow,
        BitVec.toNat_ofNat, Nat.mod_eq_of_lt hfits, show 31 - s = e by omega]
      exact Nat.mod_eq_of_lt (hle0.trans_lt (hfits.trans (by decide)))
    rw [hq]
    exact hquot

/-- **`udiv64` divides**, and none of its `DIVL` instructions traps. -/
theorem udiv64_eq (n : BitVec 64) (hd : d ≠ 0) : udiv64 n d = some (n / d) := by
  rcases Nat.lt_or_ge d.toNat (2 ^ 32) with hlt | hge
  · exact udiv64_of_lt hd hlt
  · exact udiv64_of_ge hge

/-! ## Signed division -/

theorem abs64_ne_zero (hn : n ≠ 0) : abs64 n ≠ 0 := by
  unfold abs64
  split
  · exact hn
  · exact fun h ↦ hn (BitVec.neg_eq_zero_iff.mp h)

/-- **`sdiv64` divides and truncates toward zero.** -/
theorem sdiv64_eq (n : BitVec 64) (hd : d ≠ 0) : sdiv64 n d = some (n.sdiv d) := by
  rw [sdiv64, udiv64_eq _ (abs64_ne_zero hd)]
  simp only [some_bind, pure_eq_some, BitVec.sdiv_eq, BitVec.msb_eq_toInt, abs64]
  by_cases hn0 : n.toInt < 0 <;> by_cases hd0 : d.toInt < 0 <;>
    simp [hn0, hd0, Int.not_le.mpr, Int.not_lt.mp]

/-- **64-bit division is exact**: no `DIVL` traps, the unsigned quotient is the floor of the exact
one, and the signed one is the exact one truncated toward zero, modulo 2⁶⁴. -/
theorem division_exact (n d : BitVec 64) (hd : d ≠ 0) :
    (∃ q, udiv64 n d = some q ∧ q.toNat = n.toNat / d.toNat) ∧
      ∃ q, sdiv64 n d = some q ∧ q.toInt = (n.toInt.tdiv d.toInt).bmod (2 ^ 64) ∧
        (¬(n.toInt = -2 ^ 63 ∧ d.toInt = -1) → q.toInt = n.toInt.tdiv d.toInt) := by
  refine ⟨⟨n / d, udiv64_eq n hd, BitVec.toNat_udiv⟩, n.sdiv d, sdiv64_eq n hd,
    BitVec.toInt_sdiv n d, fun hne ↦ BitVec.toInt_sdiv_of_ne_or_ne n d ?_⟩
  by_contra hboth
  rw [not_or, not_not, not_not] at hboth
  exact hne ⟨by rw [hboth.1]; rfl, by rw [hboth.2]; rfl⟩

theorem division_exact_large : (0x8000000000000000 : BitVec 64) ≠ 0 ∧
    ∃ q, udiv64 0xFFFFFFFFFFFFFFFF 0x8000000000000000 = some q ∧ q.toNat = 1 :=
  ⟨by decide, (division_exact 0xFFFFFFFFFFFFFFFF 0x8000000000000000 (by decide)).1⟩

/-! ## Remainders -/

theorem sub_mul_udiv (n d : BitVec 64) : n - d * (n / d) = n % d := by
  have hle : d.toNat * (n.toNat / d.toNat) ≤ n.toNat := Nat.mul_div_le _ _
  have hprod : (d * (n / d)).toNat = d.toNat * (n.toNat / d.toNat) := by
    rw [BitVec.toNat_mul, BitVec.toNat_udiv, Nat.mod_eq_of_lt (hle.trans_lt n.isLt)]
  apply BitVec.eq_of_toNat_eq
  rw [BitVec.toNat_sub_of_le (by rwa [BitVec.le_def, hprod]), hprod, BitVec.toNat_umod,
    Nat.mod_eq_sub_mul_div]

theorem toInt_sub_mul_sdiv (n : BitVec 64) (hd : d ≠ 0) :
    (n - d * n.sdiv d).toInt = n.toInt.tmod d.toInt := by
  have hsplit := Int.mul_tdiv_add_tmod n.toInt d.toInt
  have hlt : (n.toInt.tmod d.toInt).natAbs < d.toInt.natAbs := by
    have hpos : d.toInt ≠ 0 := fun h ↦ hd (BitVec.eq_of_toInt_eq h)
    rw [Int.natAbs_tmod]
    exact Nat.mod_lt _ (by omega)
  have hlow : -2 ^ 63 ≤ d.toInt := d.le_toInt
  have hhigh : d.toInt < 2 ^ 63 := d.toInt_lt
  calc (n - d * n.sdiv d).toInt
      = (n.toInt - d.toInt * n.toInt.tdiv d.toInt).bmod (2 ^ 64) := by
        rw [BitVec.toInt_sub, BitVec.toInt_mul, BitVec.toInt_sdiv, Int.mul_bmod_bmod,
          Int.sub_bmod_bmod]
    _ = (n.toInt.tmod d.toInt).bmod (2 ^ 64) := by congr 1; omega
    _ = n.toInt.tmod d.toInt := by
        simp only [Int.bmod]
        omega

/-- **`__umoddi3` returns the low 32 bits of the remainder.** -/
theorem umoddi3_eq (n : BitVec 64) (hd : d ≠ 0) :
    umoddi3 n d = some ((n % d).setWidth 32 |>.setWidth 64) := by
  simp only [umoddi3, umod64, udiv64_eq n hd, some_bind, pure_def, sub_mul_udiv]

/-- **`__moddi3` returns the remainder cut down to an `int`.** -/
theorem moddi3_eq (n : BitVec 64) (hd : d ≠ 0) :
    ∃ r, moddi3 n d = some r ∧ r.toInt = int32 (n.toInt.tmod d.toInt) := by
  refine ⟨((n - d * n.sdiv d).setWidth 32).signExtend 64, ?_, ?_⟩
  · simp only [moddi3, smod64, sdiv64_eq n hd, some_bind, pure_def]
  · rw [BitVec.toInt_signExtend_of_le (by decide), BitVec.toInt_setWidth, int32,
      ← toInt_sub_mul_sdiv n hd, BitVec.toInt_eq_toNat_bmod]
    simp only [Int.bmod]
    omega

/-- **When the remainders are exact**: `__umoddi3` when the remainder is less than 2³², and
`__moddi3` when it is an `int`. -/
theorem remainder_exact_iff (n d : BitVec 64) (hd : d ≠ 0) :
    ((∃ r, umoddi3 n d = some r ∧ r.toNat = n.toNat % d.toNat) ↔ n.toNat % d.toNat < 2 ^ 32) ∧
      ((∃ r, moddi3 n d = some r ∧ r.toInt = n.toInt - d.toInt * n.toInt.tdiv d.toInt) ↔
        IsInt (n.toInt - d.toInt * n.toInt.tdiv d.toInt)) := by
  have hsplit : n.toInt - d.toInt * n.toInt.tdiv d.toInt = n.toInt.tmod d.toInt := by
    have := Int.mul_tdiv_add_tmod n.toInt d.toInt
    omega
  rw [hsplit]
  constructor
  · have hr : ((n % d).setWidth 32 |>.setWidth 64).toNat = n.toNat % d.toNat % 2 ^ 32 := by
      rw [BitVec.toNat_setWidth, BitVec.toNat_setWidth, BitVec.toNat_umod]
      omega
    rw [umoddi3_eq n hd]
    simp only [some_inj, exists_eq_left', hr]
    omega
  · obtain ⟨r, hr, hval⟩ := moddi3_eq n hd
    rw [hr]
    simp only [some_inj, exists_eq_left', hval]
    exact ⟨fun h ↦ h ▸ isInt_int32 _, int32_eq_self⟩

theorem remainder_exact_small : (10 : BitVec 64) ≠ 0 ∧
    ∃ r, moddi3 (-7) 10 = some r ∧ r.toInt = -7 :=
  ⟨by decide, (remainder_exact_iff (-7) 10 (by decide)).2.mpr (by decide)⟩

/-- The remainder of 2³² by 2³³ is 2³², and that of 2³¹ by 2³² is 2³¹; they come out as 0 and as
-2³¹. -/
theorem remainder_truncated : umoddi3 (2 ^ 32) (2 ^ 33) = some 0 ∧
      (2 ^ 32 : BitVec 64).toNat % (2 ^ 33 : BitVec 64).toNat = 2 ^ 32 ∧
      moddi3 (2 ^ 31) (2 ^ 32) = some (-2 ^ 31) ∧
      (2 ^ 31 : BitVec 64).toInt - (2 ^ 32 : BitVec 64).toInt *
        (2 ^ 31 : BitVec 64).toInt.tdiv (2 ^ 32 : BitVec 64).toInt = 2 ^ 31 := by
  decide +kernel

end Pintos
