import Mathlib

/-!
# The real-time clock

`devices/rtc.c`.  The clock has a register for each part of the date, in binary-coded decimal, and
`rtc_get_time` makes seconds of them.  It adds the days of the current month to those of the months
before, and takes other years for leap years, so that it is wrong at any time:
`Rtc.rtc_get_time_wrong`.
-/

set_option autoImplicit false

namespace Pintos

open List

/-- The registers of the clock. -/
structure Rtc where
  sec : UInt8
  min : UInt8
  hour : UInt8
  mday : UInt8
  mon : UInt8
  year : UInt8

namespace Rtc

/-- `bcd_to_bin`. -/
def bcdToBin (x : UInt8) : Nat := (x &&& 0x0f).toNat + (x >>> 4).toNat * 10

/-- `days_per_month`. -/
def daysPerMonth (i : Nat) : Nat := [31, 28, 31, 30, 31, 30, 31, 31, 30, 31, 30, 31].getD i 0

/-- The years since 1970. -/
def years (r : Rtc) : Nat :=
  let year := bcdToBin r.year
  (if year < 70 then year + 100 else year) - 70

/-- The loop of `rtc_get_time` that adds the days of the months. -/
def addMonths (time : Int) : Nat → Int
  | 0 => time
  | mon + 1 => addMonths time mon + daysPerMonth mon * 24 * 60 * 60

/-- What `rtc_get_time` makes of the registers.  A `time_t` is an `unsigned long`. -/
def time (r : Rtc) : Nat :=
  let year : Int := r.years
  let mon := bcdToBin r.mon
  let time := (year * 365 + (year - 1).tdiv 4) * 24 * 60 * 60
  let time := addMonths time mon
  let time := if mon > 2 ∧ year % 4 = 0 then time + 24 * 60 * 60 else time
  let time := time + (bcdToBin r.mday - 1) * 24 * 60 * 60
  let time := time + bcdToBin r.hour * 60 * 60
  let time := time + bcdToBin r.min * 60
  let time := time + bcdToBin r.sec
  (time % 2 ^ 32).toNat

/-- `rtc_get_time`, for what it reads in each round: the registers, and then the seconds again. -/
def rtcGetTime (reads : List (Rtc × UInt8)) : Option Nat :=
  (reads.find? fun (r, sec) ↦ bcdToBin r.sec = bcdToBin sec).map fun (r, _) ↦ r.time

/-- The days of a month, in a year since 1970.  1972 is the first leap year. -/
def monthDays (year mon : Nat) : Nat :=
  daysPerMonth mon + if mon = 1 ∧ year % 4 = 2 then 1 else 0

/-- The days of the first months of a year. -/
def monthsDays (year mon : Nat) : Nat := ((List.range mon).map (monthDays year)).sum

/-- The seconds from the beginning of 1970 to the date of the registers. -/
def unixTime (r : Rtc) : Nat :=
  let days := ((List.range r.years).map (monthsDays · 12)).sum +
    monthsDays r.years (bcdToBin r.mon - 1) + (bcdToBin r.mday - 1)
  ((days * 24 + bcdToBin r.hour) * 60 + bcdToBin r.min) * 60 + bcdToBin r.sec

/-- The registers show a date from 1970 to 2037. -/
structure Valid (r : Rtc) : Prop where
  year : bcdToBin r.year ≤ 37 ∨ 70 ≤ bcdToBin r.year ∧ bcdToBin r.year ≤ 99
  mon : 1 ≤ bcdToBin r.mon ∧ bcdToBin r.mon ≤ 12
  mday : 1 ≤ bcdToBin r.mday ∧ bcdToBin r.mday ≤ monthDays r.years (bcdToBin r.mon - 1)
  hour : bcdToBin r.hour ≤ 23
  min : bcdToBin r.min ≤ 59
  sec : bcdToBin r.sec ≤ 59

theorem monthsDays_succ (year mon : Nat) :
    monthsDays year (mon + 1) = monthsDays year mon + monthDays year mon := by
  simp [monthsDays, range_succ]

/-- The loop adds the days of the months, but no leap day. -/
theorem addMonths_eq (time : Int) (year mon : Nat) : ∃ leap : Int, 0 ≤ leap ∧ leap ≤ 1 ∧
    addMonths time mon = time + (monthsDays year mon - leap) * 24 * 60 * 60 := by
  refine ⟨if 1 < mon ∧ year % 4 = 2 then 1 else 0, by split <;> omega, by split <;> omega, ?_⟩
  induction mon with
  | zero => simp [addMonths, monthsDays]
  | succ mon ih =>
    rw [addMonths, ih, monthsDays_succ, monthDays]
    split <;> split <;> split <;> omega

/-- The years before one have a leap day every fourth. -/
theorem sum_monthsDays (year : Nat) :
    ((range year).map (monthsDays · 12)).sum = 365 * year + (year + 1) / 4 := by
  induction year with
  | zero => rfl
  | succ year ih =>
    have hyear : monthsDays year 12 = 365 + if year % 4 = 2 then 1 else 0 := by
      split <;> simp [monthsDays, range_succ, monthDays, daysPerMonth, *]
    rw [range_succ, map_append, sum_append, ih, map_singleton,
      sum_singleton, hyear]
    split <;> omega

/-- An error of some days is not lost when the result is cut to 32 bits. -/
theorem ne_of_days {time : Int} {unix : Nat} (days : Int) (hdays : 0 < days ∧ days ≤ 40)
    (h : time = unix + days * 24 * 60 * 60) : (time % 2 ^ 32).toNat ≠ unix := by
  omega

/-- **The clock is wrong at any time.** -/
theorem rtc_get_time_wrong {r : Rtc} (h : r.Valid) (reads : List (Rtc × UInt8)) :
    rtcGetTime ((r, r.sec) :: reads) ≠ some r.unixTime := by
  obtain ⟨mon, hmon⟩ := Nat.exists_eq_add_of_le' h.mon.1
  have hdays : 28 ≤ monthDays r.years mon ∧ monthDays r.years mon ≤ 32 := by
    have hall : ∀ i < 12, 28 ≤ daysPerMonth i ∧ daysPerMonth i ≤ 31 := by decide
    have := hall mon (by have := h.mon; omega)
    rw [monthDays]
    split <;> omega
  have hyear : ((r.years : Int) - 1).tdiv 4 ≤ (r.years + 1) / 4 ∧
      (r.years + 1) / 4 ≤ ((r.years : Int) - 1).tdiv 4 + 1 := by
    rcases r.years with _ | year
    · decide
    · rw [Int.natCast_succ, Int.add_sub_cancel, Int.tdiv_eq_ediv_of_nonneg (by omega)]
      omega
  obtain ⟨leap, hleap, hleap', hmonths⟩ := addMonths_eq
    ((r.years * 365 + ((r.years : Int) - 1).tdiv 4) * 24 * 60 * 60) r.years (mon + 1)
  have hmday := h.mday.1
  have hread : rtcGetTime ((r, r.sec) :: reads) = some r.time := by simp [rtcGetTime]
  rw [hread, time, unixTime, sum_monthsDays, hmon, Nat.add_sub_cancel]
  simp only [hmonths, monthsDays_succ, ne_eq, Option.some.injEq]
  generalize ((r.years : Int) - 1).tdiv 4 = leaps at *
  split
  · exact ne_of_days (leaps - (r.years + 1) / 4 + monthDays r.years mon - leap + 1) (by omega)
      (by omega)
  · exact ne_of_days (leaps - (r.years + 1) / 4 + monthDays r.years mon - leap) (by omega)
      (by omega)

theorem rtc_get_time_wrong_2000 :
    rtcGetTime [(⟨0x59, 0x59, 0x23, 0x29, 0x02, 0x00⟩, 0x59)] ≠
      some (unixTime ⟨0x59, 0x59, 0x23, 0x29, 0x02, 0x00⟩) :=
  rtc_get_time_wrong ⟨by decide, by decide, by decide, by decide, by decide, by decide⟩ []

/-- **The epoch is a month late, and time goes back** from the last day of January to the first of
February. -/
theorem rtc_get_time_epoch : rtcGetTime [(⟨0, 0, 0, 1, 1, 0x70⟩, 0)] = some 2678400 ∧
    unixTime ⟨0, 0, 0, 1, 1, 0x70⟩ = 0 ∧
    time ⟨0, 0, 0, 1, 2, 0x70⟩ < time ⟨0, 0, 0, 0x31, 1, 0x70⟩ ∧
    unixTime ⟨0, 0, 0, 0x31, 1, 0x70⟩ < unixTime ⟨0, 0, 0, 1, 2, 0x70⟩ := by
  decide

end Rtc

end Pintos
