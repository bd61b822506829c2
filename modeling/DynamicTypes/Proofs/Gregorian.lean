import Mathlib.Algebra.Order.BigOperators.Group.Finset
import Mathlib.Algebra.Order.Group.Int
import Mathlib.Tactic.IntervalCases
import DynamicTypes.Calendar

/-!
# Counting days and milliseconds in the Gregorian calendar

The calendar is given by two rules: which years have a leap day, and how many days a
month has. Everything else is counting. The day of a date is found by adding up the
lengths of the years from 1970 on, or back to it, then those of the months before, and
then the days of the month; it makes no use of eras or of years that start in March.

`dateOfDay` does, and what has to be shown is that the two agree. An era is taken
apart into centuries, cycles of four years and years, each of them one day off the
even division that the formula makes; only on the last day of each is the correction
felt. Counted from March, the months begin after `(153 * k + 2) / 5` days whatever the
year is, so that the leap day matters in the last month alone.
-/

namespace DynamicTypes.Civil

open Finset

/-! ## The calendar -/

/-- Every fourth year has a leap day, but of the full centuries only every fourth
one. -/
def isLeap (year : Int) : Bool := year % 4 == 0 && (year % 100 != 0 || year % 400 == 0)

/-- The number of days of a month, counted from one for January. -/
def monthLength (year : Int) (month : Nat) : Nat :=
  if month = 2 then if isLeap year then 29 else 28
  else if month = 4 ∨ month = 6 ∨ month = 9 ∨ month = 11 then 30
  else 31

/-- The days of a year before a month. -/
def daysToMonth (year : Int) (month : Nat) : Nat :=
  ∑ m ∈ range (month - 1), monthLength year (m + 1)

/-- The number of days of a year. -/
def yearLength (year : Int) : Nat := daysToMonth year 13

/-- The days from the start of 1970 to the start of a year, negative for the years
before. -/
def daysToYear (year : Int) : Int :=
  ∑ i ∈ range (year - 1970).toNat, (yearLength (1970 + i) : Int)
    - ∑ i ∈ range (1970 - year).toNat, (yearLength (1969 - i) : Int)

/-- The days from the first of January 1970 to a date. -/
def dayNumber (year : Int) (month day : Nat) : Int :=
  daysToYear year + daysToMonth year month + ((day : Int) - 1)

/-- The milliseconds from the start of 1970 to a moment. -/
def toMilliseconds (c : Civil) : Int :=
  (((dayNumber c.year c.month c.day * 24 + c.hour) * 60 + c.minute) * 60 + c.second) * 1000
    + c.millisecond

/-- Whether the calendar has the date and the day has the time. -/
structure IsValid (c : Civil) : Prop where
  month : 1 ≤ c.month ∧ c.month ≤ 12
  day : 1 ≤ c.day ∧ c.day ≤ monthLength c.year c.month
  hour : c.hour < 24
  minute : c.minute < 60
  second : c.second < 60
  millisecond : c.millisecond < 1000

/-! ## Years -/

/-- One in a year with a leap day, zero in others. -/
def leapDay (year : Int) : Int := if isLeap year then 1 else 0

theorem leapDay_eq (year : Int) :
    leapDay year = (year / 4 - (year - 1) / 4) - (year / 100 - (year - 1) / 100)
      + (year / 400 - (year - 1) / 400) := by
  have h4 : year / 4 - (year - 1) / 4 = if year % 4 = 0 then 1 else 0 := by split <;> omega
  have h100 : year / 100 - (year - 1) / 100 = if year % 100 = 0 then 1 else 0 := by split <;> omega
  have h400 : year / 400 - (year - 1) / 400 = if year % 400 = 0 then 1 else 0 := by split <;> omega
  rw [h4, h100, h400]
  by_cases d4 : year % 4 = 0 <;> by_cases d100 : year % 100 = 0 <;>
    by_cases d400 : year % 400 = 0 <;> simp [leapDay, isLeap, d4, d100, d400] <;> omega

theorem monthLength_two (year : Int) :
    (monthLength year 2 : Int) = 28 + leapDay year := by
  rw [monthLength, if_pos rfl, leapDay]
  split <;> rfl

theorem monthLength_of_ne (year : Int) {month : Nat} (h : month ≠ 2) :
    monthLength year month =
      if month = 4 ∨ month = 6 ∨ month = 9 ∨ month = 11 then 30 else 31 :=
  if_neg h

theorem yearLength_eq (year : Int) : (yearLength year : Int) = 365 + leapDay year := by
  have hfebruary := monthLength_two year
  simp only [yearLength, daysToMonth, sum_range_succ, sum_range_zero]
  simp [monthLength_of_ne]
  omega

/-- The days to a year, with the leap days in between counted by division. -/
theorem daysToYear_eq (year : Int) :
    daysToYear year =
      365 * (year - 1970) + ((year - 1) / 4 - (year - 1) / 100 + (year - 1) / 400) - 477 := by
  have hafter : ∀ n : Nat, ∑ i ∈ range n, (yearLength (1970 + i) : Int) =
      365 * n + ((1969 + n : Int) / 4 - (1969 + n) / 100 + (1969 + n) / 400) - 477 := by
    intro n
    induction n with
    | zero => decide
    | succ n ih =>
        have hleap := leapDay_eq (1970 + n)
        rw [sum_range_succ, ih, yearLength_eq]
        push_cast
        omega
  have hbefore : ∀ n : Nat, ∑ i ∈ range n, (yearLength (1969 - i) : Int) =
      365 * n - ((1969 - n : Int) / 4 - (1969 - n) / 100 + (1969 - n) / 400) + 477 := by
    intro n
    induction n with
    | zero => decide
    | succ n ih =>
        have hleap := leapDay_eq (1969 - n)
        rw [sum_range_succ, ih, yearLength_eq]
        push_cast
        omega
  rw [daysToYear, hafter, hbefore]
  rcases le_total 1970 year with h | h
  · rw [Int.toNat_of_nonneg (by omega), Int.toNat_of_nonpos (by omega)]
    omega
  · rw [Int.toNat_of_nonpos (by omega), Int.toNat_of_nonneg (by omega)]
    omega

/-! ## Years that start in March -/

/-- The year of the month with number `k`, counted from March of the given year. -/
def yearFromMarch (year : Int) (k : Nat) : Int := if k < 10 then year else year + 1

/-- The month with number `k`, counted from March. -/
def monthFromMarch (k : Nat) : Nat := if k < 10 then k + 3 else k - 9

/-- The days from the first of March of the year 0 to that of another year. -/
def daysToMarch (year : Int) : Int := 365 * year + year / 4 - year / 100 + year / 400

theorem daysToMonth_fromMarch (year : Int) {k : Nat} (hk : k < 12) :
    (daysToMonth (yearFromMarch year k) (monthFromMarch k) : Int) =
      if k < 10 then 59 + leapDay year + ((153 * k + 2) / 5 : Nat)
      else ((153 * k + 2) / 5 : Nat) - 306 := by
  have hfebruary := monthLength_two year
  rw [daysToMonth]
  interval_cases k <;>
    simp [yearFromMarch, monthFromMarch, sum_range_succ, monthLength_of_ne] <;> omega

/-- Counted from March, the months begin after the same number of days in all years. -/
theorem dayNumber_fromMarch (year : Int) {k : Nat} (hk : k < 12) (day : Nat) :
    dayNumber (yearFromMarch year k) (monthFromMarch k) day =
      daysToMarch year + ((153 * k + 2) / 5 : Nat) + ((day : Int) - 1) - 719468 := by
  have hleap := leapDay_eq year
  rw [dayNumber, daysToYear_eq, daysToMonth_fromMarch year hk, daysToMarch, yearFromMarch]
  split <;> omega

/-- A month goes on to the day before the next one, and February, the last, to the end
of the year. -/
theorem monthLength_fromMarch (year : Int) {k : Nat} (hk : k < 12) :
    (monthLength (yearFromMarch year k) (monthFromMarch k) : Int) =
      if k < 11 then (((153 * (k + 1) + 2) / 5 : Nat) : Int) - ((153 * k + 2) / 5 : Nat)
      else 28 + leapDay (year + 1) := by
  have hfebruary := monthLength_two (year + 1)
  interval_cases k <;> simp [yearFromMarch, monthFromMarch, monthLength_of_ne]
  exact hfebruary

/-! ## Eras -/

/-- An era is taken apart into centuries, cycles of four years, years and days. The last
day of a leap year is the one too many. -/
theorem exists_cycles {d : Nat} (hd : d < 146097) :
    ∃ c q s r, c < 4 ∧ q < 25 ∧ s < 4 ∧ d = 36524 * c + 1461 * q + 365 * s + r ∧
      (r < 365 ∨ r = 365 ∧ s = 3 ∧ (q < 24 ∨ c = 3)) := by
  obtain ⟨c, e, hc, rfl, he⟩ :
      ∃ c e, c < 4 ∧ d = 36524 * c + e ∧ (e < 36524 ∨ e = 36524 ∧ c = 3) := by
    by_cases hlast : d = 146096
    · exact ⟨3, 36524, by omega, by omega, by omega⟩
    · exact ⟨d / 36524, d % 36524, by omega, by omega, by omega⟩
  by_cases hlast : e % 1461 = 1460
  · exact ⟨c, e / 1461, 3, 365, hc, by omega, by omega, by omega, by omega⟩
  · exact ⟨c, e / 1461, e % 1461 / 365, e % 1461 % 365, hc, by omega, by omega, by omega, by omega⟩

/-- The year of a day in an era. -/
def yearOfEra (d : Nat) : Nat := (d - d / 1460 + d / 36524 - d / 146096) / 365

theorem yearOfEra_eq {c q s r : Nat} (hc : c < 4) (hq : q < 25) (hs : s < 4)
    (hr : r < 365 ∨ r = 365 ∧ s = 3 ∧ (q < 24 ∨ c = 3)) :
    yearOfEra (36524 * c + 1461 * q + 365 * s + r) = 100 * c + 4 * q + s := by
  generalize hd : 36524 * c + 1461 * q + 365 * s + r = d
  have hcentury : d / 36524 = c + d / 146096 := by
    by_cases hlast : d = 146096
    · have : c = 3 := by omega
      omega
    · have hless : 1461 * q + 365 * s + r < 36524 := by omega
      have : d / 36524 = c := by omega
      have : d / 146096 = 0 := by omega
      omega
  rw [yearOfEra, hcentury]
  -- whether the day lies beyond the 1460 days that the formula takes for a cycle
  by_cases hcycle : 24 * c + q + 365 * s + r < 1460
  · have : r < 365 := by omega
    have hcycles : d / 1460 = 25 * c + q := by omega
    rw [hcycles]
    omega
  · have : 0 < r ∧ r ≤ 365 := by omega
    have hcycles : d / 1460 = 25 * c + q + 1 := by omega
    rw [hcycles]
    omega

/-- The year of a day in an era, and what is left of the day in that year. -/
theorem exists_dayOfYear (era : Int) {d : Nat} (hd : d < 146097) :
    ∃ r, d = 365 * yearOfEra d + yearOfEra d / 4 - yearOfEra d / 100 + r ∧ yearOfEra d < 400 ∧
      (r : Int) ≤ 364 + leapDay (yearOfEra d + era * 400 + 1) := by
  obtain ⟨c, q, s, r, hc, hq, hs, rfl, hr⟩ := exists_cycles hd
  rw [yearOfEra_eq hc hq hs hr]
  have hfourths : (100 * c + 4 * q + s) / 4 = 25 * c + q := by omega
  have hhundredths : (100 * c + 4 * q + s) / 100 = c := by omega
  refine ⟨r, by omega, by omega, ?_⟩
  rcases hr with hr | ⟨rfl, rfl, hleap⟩
  · unfold leapDay
    split <;> omega
  · have hleap : isLeap ((100 * c + 4 * q + 3 : Nat) + era * 400 + 1) = true := by
      simp only [isLeap, Bool.and_eq_true, Bool.or_eq_true, beq_iff_eq, bne_iff_ne]
      omega
    rw [leapDay, if_pos hleap]
    norm_num

/-- The calendar repeats after an era. -/
theorem daysToMarch_era (era : Int) {y : Nat} (hy : y < 400) :
    daysToMarch (y + era * 400) = 146097 * era + (365 * y + y / 4 - y / 100 : Nat) := by
  have hfourths : ((y : Int) + era * 400) / 4 = y / 4 + 100 * era := by omega
  have hhundredths : ((y : Int) + era * 400) / 100 = y / 100 + 4 * era := by omega
  have heras : ((y : Int) + era * 400) / 400 = era := by omega
  rw [daysToMarch, hfourths, hhundredths, heras]
  omega

/-! ## The date of a day -/

/-- The month of a day in a year that starts in March, and what is left of the day in
that month. -/
theorem month_of_day (year : Int) {r : Nat}
    (hr : (r : Int) ≤ 364 + leapDay (year + 1)) :
    (5 * r + 2) / 153 < 12 ∧ (153 * ((5 * r + 2) / 153) + 2) / 5 ≤ r ∧
      (r - (153 * ((5 * r + 2) / 153) + 2) / 5 + 1 : Nat) ≤
        (monthLength (yearFromMarch year ((5 * r + 2) / 153))
          (monthFromMarch ((5 * r + 2) / 153))) := by
  have hleap : leapDay (year + 1) ≤ 1 := by
    unfold leapDay
    split <;> omega
  have hk : (5 * r + 2) / 153 < 12 := by omega
  have hlength := monthLength_fromMarch year hk
  refine ⟨hk, by omega, ?_⟩
  split at hlength <;> omega

/-- The date of a day is in the calendar, and counting to it gives the day back. -/
theorem dayNumber_dateOfDay (days : Int) :
    ∃ year month day, dateOfDay days = (year, month, day) ∧ (1 ≤ month ∧ month ≤ 12) ∧
      (1 ≤ day ∧ day ≤ monthLength year month) ∧ dayNumber year month day = days := by
  generalize hera : (days + 719468) / 146097 = era
  generalize hdoe : ((days + 719468) % 146097).toNat = d
  have hd : d < 146097 := by omega
  obtain ⟨r, hr, hyear, hle⟩ := exists_dayOfYear era hd
  obtain ⟨hk, hstart, hlength⟩ := month_of_day _ hle
  have hday : d - (365 * yearOfEra d + yearOfEra d / 4 - yearOfEra d / 100) = r := by omega
  generalize hkr : (5 * r + 2) / 153 = k at hk hstart hlength
  refine ⟨yearFromMarch (yearOfEra d + era * 400) k, monthFromMarch k,
    r - (153 * k + 2) / 5 + 1, ?_, ?_, ⟨Nat.le_add_left 1 _, hlength⟩, ?_⟩
  · unfold dateOfDay
    simp only [hera, hdoe]
    rw [← yearOfEra, hday, hkr]
    have hlate : (if k < 10 then k + 3 else k - 9) ≤ 2 ↔ ¬ k < 10 := by split <;> omega
    simp only [hlate, ite_not, yearFromMarch, monthFromMarch]
  · unfold monthFromMarch
    split <;> omega
  · rw [dayNumber_fromMarch _ hk, daysToMarch_era era hyear]
    omega

/-- The civil form of an instant is in the calendar, and denotes the instant. -/
theorem ofMilliseconds_valid (ms : Int) :
    (ofMilliseconds ms).IsValid ∧ (ofMilliseconds ms).toMilliseconds = ms := by
  obtain ⟨year, month, day, hdate, hmonth, hday, hnumber⟩ := dayNumber_dateOfDay (ms / 86400000)
  generalize hrest : (ms % 86400000).toNat = rest
  have hcivil : ofMilliseconds ms = ⟨year, month, day, rest / 3600000, rest / 60000 % 60,
      rest / 1000 % 60, rest % 1000⟩ := by
    rw [ofMilliseconds, hdate, hrest]
  rw [hcivil]
  refine ⟨⟨hmonth, hday, ?_, ?_, ?_, ?_⟩, ?_⟩
  · show rest / 3600000 < 24
    omega
  · exact Nat.mod_lt _ (by decide)
  · exact Nat.mod_lt _ (by decide)
  · exact Nat.mod_lt _ (by decide)
  · rw [toMilliseconds, hnumber]
    show (((ms / 86400000 * 24 + (rest / 3600000 : Nat)) * 60 + (rest / 60000 % 60 : Nat)) * 60
      + (rest / 1000 % 60 : Nat)) * 1000 + (rest % 1000 : Nat) = ms
    omega

theorem monthLength_le (year : Int) (month : Nat) : monthLength year month ≤ 31 := by
  unfold monthLength
  repeat' split
  all_goals decide

theorem daysToMonth_le (year : Int) {month : Nat} (hmonth : month ≤ 12) :
    daysToMonth year month ≤ 341 := by
  calc daysToMonth year month
      ≤ (range (month - 1)).card • 31 := sum_le_card_nsmul _ _ _ fun m _ => monthLength_le year _
    _ ≤ 341 := by
        rw [card_range, Nat.nsmul_eq_mul]
        omega

/-- Instants within a hundred million days of 1970 are in years of at most six
digits. -/
theorem IsValid.natAbs_year_le {c : Civil} (hc : c.IsValid)
    (hms : c.toMilliseconds.natAbs ≤ 8640000000000000) : c.year.natAbs ≤ 999999 := by
  have hday : c.day ≤ 31 := hc.day.2.trans (monthLength_le c.year c.month)
  have hmonth := daysToMonth_le c.year hc.month.2
  have hyear := daysToYear_eq c.year
  obtain ⟨_, _, hhour, hminute, hsecond, hmillisecond⟩ := hc
  rw [toMilliseconds, dayNumber] at hms
  omega

end DynamicTypes.Civil
