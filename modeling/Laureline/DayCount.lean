import Laureline.Calendar
import Mathlib.Algebra.BigOperators.Intervals

/-!
# Counting the days

`datetime_to_epoch` against a count that adds up `days_in_month` for every month that has
elapsed since 1 January 1900 (`Tm.daysSince1900`), and against the clock on the wall
(`Tm.next`), which goes on by one second.

* `datetimeToEpoch_counts` — both, up to the year 65535;
* `Tm.Valid.seconds_iterate` — a date-time that is reached second by second.
-/

namespace Laureline

open Gregorian

/-! ### The months that have elapsed -/

/-- `days_in_month`, as a summand. -/
def monthDays (year month : ℕ) : ℕ := (daysInMonth year month).getD 0

/-- The days from 1 January 1900 to a date: those of all months of the years that have
elapsed, those of the months of its year that have, and the days of its month before it. -/
def Tm.daysSince1900 (tm : Tm) : ℕ :=
  ∑ year ∈ Finset.Ico 1900 tm.year, ∑ month ∈ Finset.Icc 1 12, monthDays year month +
    ∑ month ∈ Finset.Ico 1 tm.mon, monthDays tm.year month + (tm.mday - 1)

theorem monthDays_eq (year : ℕ) {month : ℕ} (h : 1 ≤ month) (h' : month ≤ 12) :
    monthDays year month = monthLength year month := by
  rw [monthDays, daysInMonth_eq year h h', Option.getD_some]

/-- The months of a year before a month. -/
theorem sum_monthDays (year : ℕ) {month : ℕ} (h : 1 ≤ month) (h' : month ≤ 13) :
    ∑ m ∈ Finset.Ico 1 month, monthDays year m = Gregorian.daysBeforeMonth year month := by
  induction month, h using Nat.le_induction with
  | base => rw [Finset.Ico_self, Finset.sum_empty]; rfl
  | succ month h ih =>
    rw [Finset.sum_Ico_succ_top h, ih (by omega), monthDays_eq year h (by omega),
      daysBeforeMonth_succ year h]

theorem sum_year (year : ℕ) : ∑ m ∈ Finset.Icc 1 12, monthDays year m = yearLength year :=
  calc ∑ m ∈ Finset.Icc 1 12, monthDays year m
      = ∑ m ∈ Finset.Ico 1 13, monthDays year m := rfl
    _ = Gregorian.daysBeforeMonth year 13 := sum_monthDays year (by omega) le_rfl
    _ = yearLength year := daysBeforeMonth_thirteen year

/-- The years from 1900 on before a year. -/
theorem sum_years {year : ℕ} (h : 1900 ≤ year) :
    Gregorian.daysBeforeYear 1900 +
        ∑ y ∈ Finset.Ico 1900 year, ∑ m ∈ Finset.Icc 1 12, monthDays y m =
      Gregorian.daysBeforeYear year := by
  induction year, h using Nat.le_induction with
  | base => rw [Finset.Ico_self, Finset.sum_empty, Nat.add_zero]
  | succ year h ih =>
    rw [Finset.sum_Ico_succ_top h, ← Nat.add_assoc, ih, sum_year,
      daysBeforeYear_succ (by omega)]

/-! ### The clock on the wall -/

/-- The following second. -/
def Tm.next (tm : Tm) : Tm :=
  if tm.sec < 59 then { tm with sec := tm.sec + 1 }
  else if tm.min < 59 then { tm with sec := 0, min := tm.min + 1 }
  else if tm.hour < 23 then { tm with sec := 0, min := 0, hour := tm.hour + 1 }
  else if tm.mday < monthLength tm.year tm.mon then
    { tm with sec := 0, min := 0, hour := 0, mday := tm.mday + 1 }
  else if tm.mon < 12 then
    { tm with sec := 0, min := 0, hour := 0, mday := 1, mon := tm.mon + 1 }
  else { sec := 0, min := 0, hour := 0, mday := 1, mon := 1, year := tm.year + 1 }

/-- The seconds of the day. -/
def Tm.tod (tm : Tm) : ℕ := tm.hour * 3600 + tm.min * 60 + tm.sec

/-- The number of a day, counted from 1 January of the year 1 as day 1. -/
def Tm.dayNumber (tm : Tm) : ℕ :=
  Gregorian.daysBeforeYear tm.year + Gregorian.daysBeforeMonth tm.year tm.mon + tm.mday

/-- The seconds up to a date-time. -/
def Tm.seconds (tm : Tm) : ℕ := tm.dayNumber * 86400 + tm.tod

theorem Tm.Valid.next {tm : Tm} (h : tm.Valid) : tm.next.Valid := by
  obtain ⟨h_mon, h_day, h_hour, h_min, h_sec⟩ := h
  have h12 : 1 ≤ 12 := by decide
  have h24 : 0 < 24 := by decide
  have h60 : 0 < 60 := by decide
  unfold Tm.next
  split_ifs with hs hm hh hd hmo
  · exact ⟨h_mon, h_day, h_hour, h_min, Nat.succ_lt_succ hs⟩
  · exact ⟨h_mon, h_day, h_hour, Nat.succ_lt_succ hm, h60⟩
  · exact ⟨h_mon, h_day, Nat.succ_lt_succ hh, h60, h60⟩
  · exact ⟨h_mon, ⟨Nat.succ_pos _, hd⟩, h24, h60, h60⟩
  · exact ⟨⟨Nat.succ_pos _, hmo⟩, ⟨le_rfl, monthLength_pos _ _⟩, h24, h60, h60⟩
  · exact ⟨⟨le_rfl, h12⟩, ⟨le_rfl, monthLength_pos _ _⟩, h24, h60, h60⟩

/-- **One second more.** Across the ends of months and years as well. -/
theorem Tm.Valid.seconds_next {tm : Tm} (h : tm.Valid) (hy : 1 ≤ tm.year) :
    tm.next.seconds = tm.seconds + 1 := by
  have h_hour := h.hour
  have h_min := h.min
  have h_sec := h.sec
  have h_next := (h.date hy).dayNumber_next
  unfold Tm.next
  split_ifs with hs hm hh hd hmo <;> simp only [Tm.seconds, Tm.tod, Tm.dayNumber]
  · omega
  · omega
  · omega
  · -- midnight
    omega
  · -- the first of a month
    have h_last : ¬ (h.date hy).day < monthLength (h.date hy).year (h.date hy).month := hd
    have h_month : (h.date hy).month < 12 := hmo
    rw [Gregorian.Date.next, dif_neg h_last, dif_pos h_month] at h_next
    have h_number : Gregorian.daysBeforeYear tm.year +
        Gregorian.daysBeforeMonth tm.year (tm.mon + 1) + 1 = tm.dayNumber + 1 := h_next
    rw [Tm.dayNumber] at h_number
    omega
  · -- the first of January
    have h_last : ¬ (h.date hy).day < monthLength (h.date hy).year (h.date hy).month := hd
    have h_month : ¬ (h.date hy).month < 12 := hmo
    rw [Gregorian.Date.next, dif_neg h_last, dif_neg h_month] at h_next
    have h_number : Gregorian.daysBeforeYear (tm.year + 1) +
        Gregorian.daysBeforeMonth (tm.year + 1) 1 + 1 = tm.dayNumber + 1 := h_next
    rw [Tm.dayNumber] at h_number
    omega

theorem Tm.le_year_next (tm : Tm) : tm.year ≤ tm.next.year := by
  unfold Tm.next
  split_ifs
  all_goals first | exact le_rfl | exact Nat.le_succ _

/-- A date-time that is reached second by second. -/
theorem Tm.Valid.seconds_iterate {tm : Tm} (h : tm.Valid) (hy : 1 ≤ tm.year) (n : ℕ) :
    (Tm.next^[n] tm).Valid ∧ tm.year ≤ (Tm.next^[n] tm).year ∧
      (Tm.next^[n] tm).seconds = tm.seconds + n := by
  induction n with
  | zero => exact ⟨h, le_rfl, (Nat.add_zero _).symm⟩
  | succ n ih =>
    obtain ⟨h_valid, h_year, h_seconds⟩ := ih
    rw [Function.iterate_succ_apply']
    refine ⟨h_valid.next, h_year.trans (Tm.le_year_next _), ?_⟩
    rw [h_valid.seconds_next (hy.trans h_year), h_seconds, Nat.add_assoc]

/-! ### `datetime_to_epoch` -/

/-- `datetime_to_epoch` counts the seconds from 1900 on. -/
theorem Tm.Valid.toEpoch_eq {tm : Tm} (h : tm.Valid) (hy : 1900 ≤ tm.year)
    (hy' : tm.year ≤ 65535) :
    ∃ time, tm.toEpoch = some time ∧ time + 693596 * 86400 = tm.seconds := by
  have h_pos : 1 ≤ tm.year := by omega
  have h_number : (h.date h_pos).dayNumber = tm.dayNumber := rfl
  obtain ⟨time, h_eq, h_time, -⟩ :=
    @datetimeToEpoch_eq (h.date h_pos) _ _ _ hy hy' h.hour h.min h.sec
  rw [h_number, ntpEpochOrdinal] at h_time
  refine ⟨time, h_eq, ?_⟩
  rw [Tm.seconds, Tm.tod]
  omega

/-- The days that are counted month by month. -/
theorem Tm.Valid.daysSince1900_eq {tm : Tm} (h : tm.Valid) (hy : 1900 ≤ tm.year) :
    tm.daysSince1900 + 693596 = tm.dayNumber := by
  have h_years := sum_years hy
  have h_months := sum_monthDays tm.year h.mon.1 (by have := h.mon.2; omega : tm.mon ≤ 13)
  have h_closed : Gregorian.daysBeforeYear 1900 + 1899 / 100 = 1899 * 365 + 1899 / 4 + 1899 / 400 :=
    daysBeforeYear_succ_eq 1899
  have h_day := h.mday.1
  rw [Tm.daysSince1900, Tm.dayNumber, h_months]
  omega

/-- **`datetime_to_epoch` counts.** Up to the year 65535 it is 86400 times the days that are
counted month by month, plus the seconds of the day, and one more for the following second. -/
theorem datetimeToEpoch_counts {tm : Tm} (h : tm.Valid) (hy : 1900 ≤ tm.year)
    (hy' : tm.year ≤ 65535) :
    tm.toEpoch = some (86400 * tm.daysSince1900 + tm.tod) ∧
    (tm.next.year ≤ 65535 →
      tm.next.Valid ∧ tm.next.toEpoch = some (86400 * tm.daysSince1900 + tm.tod + 1)) := by
  have h_days := h.daysSince1900_eq hy
  have h_seconds : tm.seconds = tm.dayNumber * 86400 + tm.tod := rfl
  constructor
  -- an epoch is the seconds since 1900
  · obtain ⟨time, h_eq, h_time⟩ := h.toEpoch_eq hy hy'
    rw [h_eq]
    congr 1
    omega
  -- and the next second has the next one
  · intro hy_next
    have h_next := h.seconds_next (by omega)
    obtain ⟨time, h_eq, h_time⟩ := h.next.toEpoch_eq (hy.trans (Tm.le_year_next tm)) hy_next
    refine ⟨h.next, ?_⟩
    rw [h_eq]
    congr 1
    omega

/-- The last second of the century. -/
theorem datetimeToEpoch_counts_2000 :
    (⟨59, 59, 23, 31, 12, 2000⟩ : Tm).next = ⟨0, 0, 0, 1, 1, 2001⟩ ∧
    (⟨0, 0, 0, 1, 1, 2001⟩ : Tm).toEpoch =
      some (86400 * (⟨59, 59, 23, 31, 12, 2000⟩ : Tm).daysSince1900 + 86399 + 1) :=
  ⟨rfl, ((@datetimeToEpoch_counts ⟨59, 59, 23, 31, 12, 2000⟩
    ⟨by decide, by decide, by decide, by decide, by decide⟩ (by decide) (by decide)).2
      (by decide)).2⟩

end Laureline
