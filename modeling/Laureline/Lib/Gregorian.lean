import Mathlib.Tactic.Common
import Mathlib.Order.Basic
import Mathlib.Order.Nat

/-!
# The Gregorian calendar

The proleptic Gregorian calendar, counted from 1 January of the year 1 as day 1.
Lengths of months and years come first, sums of them are defined by recursion, and
`Date.dayNumber` numbers the dates.

* `Date.dayNumber_next` — the successor of a date has the next number;
* `Date.dayNumber_injective` — a number belongs to one date at most;
* `daysBeforeYear_succ_eq` — the closed form of the days before a year;
* `daysBeforeYear_cycleYear`, `leap_cycleYear` — the same in cycles of 400, 100, 4 and 1 years.
-/

namespace Laureline

namespace Gregorian

/-- The years with a 29 February. -/
def leap (year : ℕ) : Bool := decide (year % 4 = 0 ∧ (year % 100 ≠ 0 ∨ year % 400 = 0))

/-- The number of days of a year. -/
def yearLength (year : ℕ) : ℕ := if leap year then 366 else 365

/-- The number of days of a month; January is month 1. -/
def monthLength (year month : ℕ) : ℕ :=
  match month with
  | 2 => if leap year then 29 else 28
  | 4 | 6 | 9 | 11 => 30
  | _ => 31

/-- The days from 1 January of the year 1 to 1 January of `year`. -/
def daysBeforeYear : ℕ → ℕ
  | 0 | 1 => 0
  | y + 2 => daysBeforeYear (y + 1) + yearLength (y + 1)

/-- The days of `year` before its month `month`. -/
def daysBeforeMonth (year : ℕ) : ℕ → ℕ
  | 0 | 1 => 0
  | m + 2 => daysBeforeMonth year (m + 1) + monthLength year (m + 1)

/-! ### Years -/

theorem daysBeforeYear_succ {year : ℕ} (h : 1 ≤ year) :
    daysBeforeYear (year + 1) = daysBeforeYear year + yearLength year := by
  obtain ⟨y, rfl⟩ : ∃ y, year = y + 1 := ⟨year - 1, by omega⟩
  rfl

/-- **The closed form.** One day more every four years, one less every hundred, one more
every four hundred. -/
theorem daysBeforeYear_succ_eq (y : ℕ) :
    daysBeforeYear (y + 1) + y / 100 = y * 365 + y / 4 + y / 400 := by
  induction y with
  | zero => rfl
  | succ y ih =>
    rw [daysBeforeYear_succ (by omega), yearLength, leap]
    -- the quotients grow exactly where the leap rule says so
    by_cases h4 : (y + 1) % 4 = 0
    · by_cases h : (y + 1) % 100 ≠ 0 ∨ (y + 1) % 400 = 0
      · rw [if_pos (decide_eq_true ⟨h4, h⟩)]
        omega
      · rw [if_neg (by simp [h])]
        omega
    · have h_by4 : (y + 1) / 4 = y / 4 := by omega
      have h_by100 : (y + 1) / 100 = y / 100 := by omega
      have h_by400 : (y + 1) / 400 = y / 400 := by omega
      rw [if_neg (by simp [h4]), h_by4, h_by100, h_by400]
      omega

/-- The year after so many whole cycles of 400, 100, 4 and 1 years. -/
def cycleYear (n400 n100 n4 n1 : ℕ) : ℕ := n400 * 400 + 1 + (n100 * 100 + n4 * 4 + n1)

section Cycles

variable {n400 n100 n4 n1 : ℕ} (h100 : n100 ≤ 3) (h4 : n4 ≤ 24) (h1 : n1 ≤ 3)
include h100 h4 h1

/-- Each cycle has a fixed number of days. -/
theorem daysBeforeYear_cycleYear : daysBeforeYear (cycleYear n400 n100 n4 n1) =
    146097 * n400 + 36524 * n100 + 1461 * n4 + 365 * n1 := by
  have h_closed := daysBeforeYear_succ_eq (n400 * 400 + (n100 * 100 + n4 * 4 + n1))
  have h_year : cycleYear n400 n100 n4 n1 = n400 * 400 + (n100 * 100 + n4 * 4 + n1) + 1 := by
    rw [cycleYear]
    omega
  have h_by4 : (n400 * 400 + (n100 * 100 + n4 * 4 + n1)) / 4 = n400 * 100 + n100 * 25 + n4 := by
    omega
  have h_by100 : (n400 * 400 + (n100 * 100 + n4 * 4 + n1)) / 100 = n400 * 4 + n100 := by omega
  have h_by400 : (n400 * 400 + (n100 * 100 + n4 * 4 + n1)) / 400 = n400 := by omega
  rw [h_by4, h_by100, h_by400] at h_closed
  rw [h_year]
  omega

/-- The last year of four is a leap year, except at the end of three of four centuries. -/
theorem leap_cycleYear :
    leap (cycleYear n400 n100 n4 n1) = decide (n1 = 3 ∧ (n4 ≠ 24 ∨ n100 = 3)) := by
  have h_by4 : cycleYear n400 n100 n4 n1 % 4 = 0 ↔ n1 = 3 := by
    unfold cycleYear
    omega
  have h_by100 : cycleYear n400 n100 n4 n1 % 100 = 0 ↔ n1 = 3 ∧ n4 = 24 := by
    unfold cycleYear
    omega
  have h_by400 : cycleYear n400 n100 n4 n1 % 400 = 0 ↔ n1 = 3 ∧ n4 = 24 ∧ n100 = 3 := by
    unfold cycleYear
    omega
  rw [leap, decide_eq_decide, ne_eq, h_by4, h_by100, h_by400]
  omega

end Cycles

theorem daysBeforeYear_mono {y y' : ℕ} (hy : 1 ≤ y) (h : y ≤ y') :
    daysBeforeYear y ≤ daysBeforeYear y' := by
  induction h with
  | refl => exact le_refl _
  | step h ih =>
    rw [daysBeforeYear_succ (le_trans hy h)]
    omega

/-! ### Months -/

theorem monthLength_pos (year month : ℕ) : 0 < monthLength year month := by
  unfold monthLength
  split
  · split <;> omega
  · omega
  · omega
  · omega
  · omega
  · omega

theorem daysBeforeMonth_succ (year : ℕ) {month : ℕ} (h : 1 ≤ month) :
    daysBeforeMonth year (month + 1) =
      daysBeforeMonth year month + monthLength year month := by
  obtain ⟨m, rfl⟩ : ∃ m, month = m + 1 := ⟨month - 1, by omega⟩
  rfl

theorem daysBeforeMonth_mono (year : ℕ) {m m' : ℕ} (hm : 1 ≤ m) (h : m ≤ m') :
    daysBeforeMonth year m ≤ daysBeforeMonth year m' := by
  induction h with
  | refl => exact le_refl _
  | step h ih =>
    rw [daysBeforeMonth_succ year (le_trans hm h)]
    omega

/-- Twelve months make a year. -/
theorem daysBeforeMonth_thirteen (year : ℕ) : daysBeforeMonth year 13 = yearLength year := by
  simp only [daysBeforeMonth, monthLength, yearLength]
  split <;> rfl

/-! ### Dates -/

/-- A date of the calendar. -/
@[ext] structure Date where
  year : ℕ
  month : ℕ
  day : ℕ
  one_le_year : 1 ≤ year
  one_le_month : 1 ≤ month
  month_le : month ≤ 12
  one_le_day : 1 ≤ day
  day_le : day ≤ monthLength year month

namespace Date

variable (d : Date)

/-- The number of a date, counted from 1 January of the year 1 as day 1. -/
def dayNumber : ℕ := daysBeforeYear d.year + daysBeforeMonth d.year d.month + d.day

/-- The following date. -/
def next : Date :=
  if h : d.day < monthLength d.year d.month then
    { d with day := d.day + 1, one_le_day := by omega, day_le := h }
  else if hm : d.month < 12 then
    { d with month := d.month + 1, day := 1, one_le_month := by omega, month_le := hm,
             one_le_day := le_refl 1, day_le := monthLength_pos _ _ }
  else
    { year := d.year + 1, month := 1, day := 1, one_le_year := by omega,
      one_le_month := le_refl 1, month_le := by omega, one_le_day := le_refl 1,
      day_le := monthLength_pos _ _ }

/-- **The numbers count the dates.** -/
theorem dayNumber_next : d.next.dayNumber = d.dayNumber + 1 := by
  have h_le := d.day_le
  unfold next
  -- the next day is in this month, the first of the next one, or 1 January
  by_cases h : d.day < monthLength d.year d.month
  · rw [dif_pos h]
    show daysBeforeYear d.year + daysBeforeMonth d.year d.month + (d.day + 1) = _
    rw [dayNumber]
    omega
  · rw [dif_neg h]
    have h_day : d.day = monthLength d.year d.month := by omega
    by_cases hm : d.month < 12
    · rw [dif_pos hm]
      show daysBeforeYear d.year + daysBeforeMonth d.year (d.month + 1) + 1 = _
      rw [daysBeforeMonth_succ d.year d.one_le_month, dayNumber, h_day]
      omega
    · rw [dif_neg hm]
      show daysBeforeYear (d.year + 1) + daysBeforeMonth (d.year + 1) 1 + 1 = _
      have h_month : d.month = 12 := by have := d.month_le; omega
      -- the twelve months make the year
      have h_year := daysBeforeMonth_thirteen d.year
      rw [daysBeforeMonth_succ d.year (by omega : 1 ≤ 12)] at h_year
      rw [daysBeforeYear_succ d.one_le_year, dayNumber, h_day, h_month, ← h_year]
      show _ + 0 + 1 = _
      omega

/-- 31 December. -/
def lastOfYear {year : ℕ} (h : 1 ≤ year) : Date :=
  ⟨year, 12, 31, h, by omega, le_refl 12, by omega, le_refl 31⟩

theorem dayNumber_lastOfYear {year : ℕ} (h : 1 ≤ year) :
    (lastOfYear h).dayNumber = daysBeforeYear year + yearLength year :=
  calc daysBeforeYear year + daysBeforeMonth year 12 + 31
      = daysBeforeYear year + daysBeforeMonth year 13 := Nat.add_assoc _ _ _
    _ = daysBeforeYear year + yearLength year := by rw [daysBeforeMonth_thirteen]

/-- A date lies within its year. -/
theorem dayNumber_le : d.dayNumber ≤ daysBeforeYear (d.year + 1) := by
  have h_day := d.day_le
  have h_month := daysBeforeMonth_mono d.year (by omega : 1 ≤ d.month + 1)
    (by have := d.month_le; omega : d.month + 1 ≤ 13)
  rw [daysBeforeMonth_thirteen, daysBeforeMonth_succ d.year d.one_le_month] at h_month
  rw [daysBeforeYear_succ d.one_le_year, dayNumber]
  omega

theorem daysBeforeYear_lt_dayNumber : daysBeforeYear d.year < d.dayNumber := by
  have := d.one_le_day
  rw [dayNumber]
  omega

theorem one_le_dayNumber : 1 ≤ d.dayNumber := by
  have := d.one_le_day
  rw [dayNumber]
  omega

variable {d} {d' : Date}

/-- The year of a date can be read off its number. -/
theorem year_le_of_dayNumber_le (h : d.dayNumber ≤ d'.dayNumber) : d.year ≤ d'.year := by
  by_contra h_lt
  have h_mono := daysBeforeYear_mono (by omega : 1 ≤ d'.year + 1) (by omega : d'.year + 1 ≤ d.year)
  have h_low := d.daysBeforeYear_lt_dayNumber
  have h_up := d'.dayNumber_le
  omega

/-- **Different dates have different numbers.** -/
theorem dayNumber_injective : Function.Injective dayNumber := by
  intro d d' h
  have h_year : d.year = d'.year :=
    le_antisymm (year_le_of_dayNumber_le h.le) (year_le_of_dayNumber_le h.ge)
  have h_in_year : daysBeforeMonth d.year d.month + d.day =
      daysBeforeMonth d.year d'.month + d'.day := by
    rw [dayNumber, dayNumber, ← h_year] at h
    omega
  have h1 := d.day_le
  have h1' := d'.day_le
  have h2 := d.one_le_day
  have h2' := d'.one_le_day
  rw [← h_year] at h1'
  -- of two months in a year the later one begins after the end of the earlier
  have h_month : d.month = d'.month := by
    rcases Nat.lt_trichotomy d.month d'.month with hlt | heq | hlt
    · have := daysBeforeMonth_mono d.year (by omega : 1 ≤ d.month + 1) hlt
      rw [daysBeforeMonth_succ d.year d.one_le_month] at this
      omega
    · exact heq
    · have := daysBeforeMonth_mono d.year (by omega : 1 ≤ d'.month + 1) hlt
      rw [daysBeforeMonth_succ d.year d'.one_le_month] at this
      omega
  rw [h_month] at h_in_year
  exact Date.ext h_year h_month (by omega)

end Date

end Gregorian

end Laureline
