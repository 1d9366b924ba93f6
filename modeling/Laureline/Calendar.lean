import Laureline.Epoch
import Laureline.Lib.Gregorian
import Mathlib.Tactic.IntervalCases
import Mathlib.Tactic.Ring

/-!
# Civil dates of NTP seconds

The other direction of `epoch.c`: `ord_to_ymd` and `epoch_to_datetime`. A result `none`
is a failed assertion or a read outside a table. Once the ordinal is known to be positive
the offsets into the cycles of 400, 100, 4 and 1 years are natural numbers; the offset
into the month is an integer, as an assertion asks whether it is negative.

The functions are compared with the calendar of `Lib.Gregorian`:

* `ordToYmd_dayNumber` — `ord_to_ymd` inverts the numbering of the dates;
* `epochToDatetime_eq`, `datetimeToEpoch_eq` — both conversions in terms of it;
* `epoch_datetime_roundTrip` — they are inverse to each other up to the year 65535.
-/

namespace Laureline

/-- `_days_in_month`, with an unused entry 0. -/
def daysInMonthTable : List ℕ := [0, 31, 28, 31, 30, 31, 30, 31, 31, 30, 31, 30, 31]

/-- `days_in_month`; `none` is a failed assertion. -/
def daysInMonth (year month : ℕ) : Option ℕ :=
  if month ≥ 1 ∧ month ≤ 12 then
    if month = 2 ∧ isLeap year then some 29 else daysInMonthTable[month]?
  else none

/-- `DI4Y`. -/
def di4Y : ℕ := 1461

/-- `DI100Y`. -/
def di100Y : ℕ := 36524

/-- `DI400Y`. -/
def di400Y : ℕ := 146097

/-- The last two assertions of `ord_to_ymd` and its day. -/
def dayOfMonth (year month : ℕ) (n : ℤ) : Option (ℕ × ℕ) :=
  match daysInMonth year month with
  | some days => if 0 ≤ n ∧ n < days then some (month, (n + 1).toNat) else none
  | none => none

/-- The second half of `ord_to_ymd`: month and day of the `n`-th day of a year. -/
def monthAndDay (year : ℕ) (leapyear : Bool) (n : ℕ) : Option (ℕ × ℕ) :=
  let month := (n + 50) >>> 5
  match daysBeforeMonthTable[month]? with
  | none => none
  | some days =>
    let preceding : ℤ := days + if month > 2 ∧ leapyear then 1 else 0
    if preceding > n then
      -- "estimate is too large"
      match daysInMonth year (month - 1) with
      | some length => dayOfMonth year (month - 1) (n - (preceding - length))
      | none => none
    else dayOfMonth year month (n - preceding)

/-- `ord_to_ymd`: year, month and day. -/
def ordToYmd (ordinal : ℤ) : Option (ℕ × ℕ × ℕ) :=
  if ordinal < 1 then none
  else
    let n := (ordinal - 1).toNat
    let n400 := n / di400Y
    let n := n % di400Y
    let n100 := n / di100Y
    let n := n % di100Y
    let n4 := n / di4Y
    let n := n % di4Y
    let n1 := n / 365
    let n := n % 365
    let year := n400 * 400 + 1 + (n100 * 100 + n4 * 4 + n1)
    if n1 = 4 ∨ n100 = 4 then
      if n = 0 then some (year - 1, 12, 31) else none
    else
      let leapyear := decide (n1 = 3 ∧ (n4 ≠ 24 ∨ n100 = 3))
      if leapyear = isLeap year then
        (monthAndDay year leapyear n).map fun md => (year, md.1, md.2)
      else none

/-- The members of `struct tm` that are filled in. `tm_year` is the year itself and
`tm_mon` counts from 1. -/
structure Tm where
  sec : ℕ
  min : ℕ
  hour : ℕ
  mday : ℕ
  mon : ℕ
  year : ℕ
  deriving DecidableEq, Repr

/-- `epoch_to_datetime`. -/
def epochToDatetime (time : ℕ) : Option Tm :=
  let tod := time % 86400
  let ordinal := u32 (time / 86400 + ntpEpochOrdinal)
  (ordToYmd (i32 ordinal)).map fun (year, mon, mday) =>
    { sec := tod % 60, min := tod / 60 % 60, hour := tod / 60 / 60 % 24, mday, mon, year }

/-- A date-time that occurs in the calendar. -/
structure Tm.Valid (tm : Tm) : Prop where
  mon : 1 ≤ tm.mon ∧ tm.mon ≤ 12
  mday : 1 ≤ tm.mday ∧ tm.mday ≤ Gregorian.monthLength tm.year tm.mon
  hour : tm.hour < 24
  min : tm.min < 60
  sec : tm.sec < 60

/-- `datetime_to_epoch` of the members of a `struct tm`. -/
def Tm.toEpoch (tm : Tm) : Option ℕ :=
  datetimeToEpoch tm.year tm.mon tm.mday tm.hour tm.min tm.sec

/-! ### The tables and the calendar -/

theorem isLeap_eq (year : ℕ) : isLeap year = Gregorian.leap year := by
  rw [isLeap, Gregorian.leap, Bool.eq_iff_iff]
  simp

theorem daysInMonth_eq (year : ℕ) {month : ℕ} (h : 1 ≤ month) (h' : month ≤ 12) :
    daysInMonth year month = some (Gregorian.monthLength year month) := by
  rw [daysInMonth, if_pos ⟨h, h'⟩, isLeap_eq]
  by_cases h2 : month = 2
  · subst h2
    cases hl : Gregorian.leap year <;> simp [Gregorian.monthLength, hl, daysInMonthTable]
  · rw [if_neg (by simp [h2])]
    interval_cases month <;> first | rfl | exact absurd rfl h2

/-- The days before a month as the tables have them. -/
theorem daysBeforeMonthTable_eq (year : ℕ) {month : ℕ} (h : 1 ≤ month) (h' : month ≤ 12) :
    ∃ days, daysBeforeMonthTable[month]? = some days ∧
      days + (if month > 2 ∧ isLeap year then 1 else 0) = Gregorian.daysBeforeMonth year month := by
  rw [isLeap_eq]
  cases hl : Gregorian.leap year <;> interval_cases month <;>
    exact ⟨_, rfl, by simp [Gregorian.daysBeforeMonth, Gregorian.monthLength, hl]⟩

theorem daysBeforeMonth_eq (year : ℕ) {month : ℕ} (h : 1 ≤ month) (h' : month ≤ 12) :
    daysBeforeMonth year month = some (Gregorian.daysBeforeMonth year month) := by
  obtain ⟨days, h_table, h_days⟩ := daysBeforeMonthTable_eq year h h'
  rw [daysBeforeMonth, h_table, Option.map_some, ← h_days]
  split <;> rfl

theorem daysBeforeYear_eq {year : ℕ} (h : 1 ≤ year) :
    daysBeforeYear year = Gregorian.daysBeforeYear year := by
  obtain ⟨y, rfl⟩ : ∃ y, year = y + 1 := ⟨year - 1, by omega⟩
  have h_closed := Gregorian.daysBeforeYear_succ_eq y
  have h_pred : ((y + 1 : ℕ) : ℤ) - 1 = y := by omega
  simp only [daysBeforeYear, h_pred]
  rw [Int.tdiv_eq_ediv_of_nonneg (by omega), Int.tdiv_eq_ediv_of_nonneg (by omega),
    Int.tdiv_eq_ediv_of_nonneg (by omega)]
  omega

/-! ### The day within the year -/

theorem dayOfMonth_eq {year month : ℕ} {n : ℤ} (h : 1 ≤ month) (h' : month ≤ 12) (hn : 0 ≤ n)
    (hn' : n < Gregorian.monthLength year month) :
    dayOfMonth year month n = some (month, (n + 1).toNat) := by
  rw [dayOfMonth, daysInMonth_eq year h h']
  exact if_pos ⟨hn, hn'⟩

/-- The estimate `(n + 50) >> 5` is the month or the following one. -/
theorem month_estimate {year n : ℕ} (hn : n < Gregorian.yearLength year) :
    let month := (n + 50) / 32
    1 ≤ month ∧ month ≤ 12 ∧
      n < Gregorian.daysBeforeMonth year (month + 1) ∧
      (n < Gregorian.daysBeforeMonth year month →
        2 ≤ month ∧ Gregorian.daysBeforeMonth year (month - 1) ≤ n) := by
  intro month
  have h_year : n < 366 := by
    unfold Gregorian.yearLength at hn
    split at hn <;> omega
  have h_month : month = (n + 50) / 32 := rfl
  have h1 : 1 ≤ month := by omega
  have h12 : month ≤ 12 := by omega
  clear_value month
  refine ⟨h1, h12, ?_⟩
  unfold Gregorian.yearLength at hn
  -- twelve months of a common and of a leap year
  cases hl : Gregorian.leap year <;> rw [hl] at hn <;> interval_cases month <;>
    simp [Gregorian.daysBeforeMonth, Gregorian.monthLength, hl] at hn ⊢ <;> omega

/-- **Month and day of the `n`-th day of a year.** No assertion fails, and the days before
the month and the day add up to the day of the year. -/
theorem monthAndDay_spec {year n : ℕ} (hn : n < Gregorian.yearLength year) :
    ∃ month day, monthAndDay year (isLeap year) n = some (month, day) ∧
      (1 ≤ month ∧ month ≤ 12) ∧ (1 ≤ day ∧ day ≤ Gregorian.monthLength year month) ∧
      Gregorian.daysBeforeMonth year month + day = n + 1 := by
  obtain ⟨h1, h12, h_lt, h_large⟩ := month_estimate hn
  obtain ⟨days, h_table, h_days⟩ := daysBeforeMonthTable_eq year h1 h12
  have h_shift : (n + 50) >>> 5 = (n + 50) / 32 := Nat.shiftRight_eq_div_pow _ 5
  unfold monthAndDay
  simp only [h_shift, h_table]
  generalize (n + 50) / 32 = month at *
  have h_preceding : (days : ℤ) + (if month > 2 ∧ isLeap year then 1 else 0) =
      Gregorian.daysBeforeMonth year month := by
    rw [← h_days]
    split <;> simp
  rw [h_preceding]
  by_cases h_est : (Gregorian.daysBeforeMonth year month : ℤ) > n
  · -- the estimate is one too large
    rw [if_pos h_est]
    obtain ⟨h2, h_le⟩ := h_large (by omega)
    obtain ⟨m, rfl⟩ : ∃ m, month = m + 1 := ⟨month - 1, by omega⟩
    simp only [Nat.add_sub_cancel] at h_le ⊢
    have h_succ := Gregorian.daysBeforeMonth_succ year (by omega : 1 ≤ m)
    rw [daysInMonth_eq year (by omega) (by omega)]
    refine ⟨m, n - Gregorian.daysBeforeMonth year m + 1, ?_, by omega, by omega, by omega⟩
    show dayOfMonth year m _ = _
    rw [dayOfMonth_eq (by omega) (by omega) (by omega) (by omega)]
    congr 2
    omega
  · rw [if_neg h_est]
    have h_succ := Gregorian.daysBeforeMonth_succ year h1
    refine ⟨month, n - Gregorian.daysBeforeMonth year month + 1, ?_, by omega, by omega,
      by omega⟩
    rw [dayOfMonth_eq h1 h12 (by omega) (by omega)]
    congr 2
    omega

/-! ### `ord_to_ymd` -/

/-- `ord_to_ymd` finds a date with the given number. -/
theorem exists_ordToYmd {N : ℕ} (hN : 1 ≤ N) :
    ∃ d : Gregorian.Date, ordToYmd N = some (d.year, d.month, d.day) ∧ d.dayNumber = N := by
  have h_pos : ¬ ((N : ℤ) < 1) := by omega
  have h_pred : ((N : ℤ) - 1).toNat = N - 1 := by omega
  unfold ordToYmd
  simp only [if_neg h_pos, h_pred, di400Y, di100Y, di4Y]
  -- the four divisions, each with its remainder
  obtain ⟨n400, r400, h400, h_r400⟩ : ∃ q r, N - 1 = 146097 * q + r ∧ r < 146097 :=
    ⟨(N - 1) / 146097, (N - 1) % 146097, by omega, by omega⟩
  obtain ⟨n100, r100, h100, h_r100⟩ : ∃ q r, r400 = 36524 * q + r ∧ r < 36524 :=
    ⟨r400 / 36524, r400 % 36524, by omega, by omega⟩
  obtain ⟨n4, r4, h4, h_r4⟩ : ∃ q r, r100 = 1461 * q + r ∧ r < 1461 :=
    ⟨r100 / 1461, r100 % 1461, by omega, by omega⟩
  obtain ⟨n1, n, h1, h_n⟩ : ∃ q r, r4 = 365 * q + r ∧ r < 365 :=
    ⟨r4 / 365, r4 % 365, by omega, by omega⟩
  rw [show (N - 1) / 146097 = n400 by omega, show (N - 1) % 146097 = r400 by omega,
    show r400 / 36524 = n100 by omega, show r400 % 36524 = r100 by omega,
    show r100 / 1461 = n4 by omega, show r100 % 1461 = r4 by omega,
    show r4 / 365 = n1 by omega, show r4 % 365 = n by omega]
  by_cases h_last : n1 = 4 ∨ n100 = 4
  · -- 31 December at the end of a cycle of 4 or 400 years
    have h_zero : n = 0 := by omega
    rw [if_pos h_last, if_pos h_zero]
    obtain ⟨c100, c4, h_year, hc100, hc4, h_cycle, h_sum⟩ : ∃ c100 c4,
        n400 * 400 + 1 + (n100 * 100 + n4 * 4 + n1) - 1 = Gregorian.cycleYear n400 c100 c4 3 ∧
        c100 ≤ 3 ∧ c4 ≤ 24 ∧ (c4 ≠ 24 ∨ c100 = 3) ∧
        146097 * n400 + 36524 * c100 + 1461 * c4 + 365 * 3 + 366 = N := by
      unfold Gregorian.cycleYear
      by_cases h100' : n100 = 4
      · exact ⟨3, 24, by omega, le_rfl, le_rfl, .inr rfl, by omega⟩
      · exact ⟨n100, n4, by omega, by omega, by omega, .inl (by omega), by omega⟩
    have h_pos' : 1 ≤ Gregorian.cycleYear n400 c100 c4 3 := by
      unfold Gregorian.cycleYear
      omega
    have h_leap : Gregorian.leap (Gregorian.cycleYear n400 c100 c4 3) = true := by
      rw [Gregorian.leap_cycleYear hc100 hc4 le_rfl, decide_eq_true_iff]
      exact ⟨rfl, h_cycle⟩
    rw [h_year]
    refine ⟨.lastOfYear h_pos', rfl, ?_⟩
    rw [Gregorian.Date.dayNumber_lastOfYear, Gregorian.yearLength, if_pos h_leap,
      Gregorian.daysBeforeYear_cycleYear hc100 hc4 le_rfl, h_sum]
  · -- any other day: `n` counts the days before it in its year
    have hc100 : n100 ≤ 3 := by omega
    have hc4 : n4 ≤ 24 := by omega
    have hc1 : n1 ≤ 3 := by omega
    have h_leap : Gregorian.leap (Gregorian.cycleYear n400 n100 n4 n1) = _ :=
      Gregorian.leap_cycleYear hc100 hc4 hc1
    rw [if_neg h_last, ← Gregorian.cycleYear, ← h_leap, isLeap_eq, if_pos rfl, ← isLeap_eq]
    have h_in_year : n < Gregorian.yearLength (Gregorian.cycleYear n400 n100 n4 n1) := by
      rw [Gregorian.yearLength]
      split <;> omega
    obtain ⟨month, day, h_eq, hm, hd, h_sum⟩ := monthAndDay_spec h_in_year
    rw [h_eq]
    refine ⟨⟨_, month, day, ?_, hm.1, hm.2, hd.1, hd.2⟩, rfl, ?_⟩
    · unfold Gregorian.cycleYear
      omega
    · show Gregorian.daysBeforeYear (Gregorian.cycleYear n400 n100 n4 n1) +
        Gregorian.daysBeforeMonth (Gregorian.cycleYear n400 n100 n4 n1) month + day = N
      rw [Gregorian.daysBeforeYear_cycleYear hc100 hc4 hc1]
      omega

/-- **`ord_to_ymd` inverts the numbering of the dates.** -/
theorem ordToYmd_dayNumber (d : Gregorian.Date) :
    ordToYmd d.dayNumber = some (d.year, d.month, d.day) := by
  obtain ⟨d', h_eq, h_num⟩ := exists_ordToYmd d.one_le_dayNumber
  obtain rfl := Gregorian.Date.dayNumber_injective h_num
  exact h_eq

/-! ### The two conversions -/

/-- Up to the year 65535 the day numbers stay far below the range of `int`. -/
theorem dayNumber_le_of_year {d : Gregorian.Date} (hy : d.year ≤ 65535) :
    d.dayNumber ≤ 23936166 := by
  have h_le := d.dayNumber_le
  have h_mono := Gregorian.daysBeforeYear_mono (by omega : 1 ≤ d.year + 1)
    (by omega : d.year + 1 ≤ 65535 + 1)
  have h_closed := Gregorian.daysBeforeYear_succ_eq 65535
  omega

/-- `epoch_to_datetime` yields the date of the day and the time of the day. -/
theorem epochToDatetime_eq {time : ℕ} {d : Gregorian.Date}
    (hd : d.dayNumber = (time / 86400 : ℕ) + ntpEpochOrdinal) (hy : d.year ≤ 65535) :
    epochToDatetime time = some
      { sec := time % 60, min := time / 60 % 60, hour := time / 3600 % 24,
        mday := d.day, mon := d.month, year := d.year } := by
  have h_bound := dayNumber_le_of_year hy
  have h_u32 : (u32 d.dayNumber : ℤ) = d.dayNumber := by unfold u32; omega
  have h_ord : i32 (u32 ((time : ℤ) / 86400 + ntpEpochOrdinal)) = d.dayNumber := by
    rw [show (time : ℤ) / 86400 + ntpEpochOrdinal = d.dayNumber by omega, h_u32]
    exact i32_of_range (by omega) (by omega)
  simp only [epochToDatetime, h_ord, ordToYmd_dayNumber, Option.map_some, Option.some.injEq,
    Tm.mk.injEq, and_true]
  omega

/-- `datetime_to_epoch` of a date from 1900 on and a time of the day. -/
theorem datetimeToEpoch_eq {d : Gregorian.Date} {hour minute second : ℕ}
    (hy : 1900 ≤ d.year) (hy' : d.year ≤ 65535) (hh : hour < 24) (hm : minute < 60)
    (hs : second < 60) :
    ∃ time, datetimeToEpoch d.year d.month d.day hour minute second = some time ∧
      (time : ℤ) = (d.dayNumber - ntpEpochOrdinal) * 86400 +
        (hour * 3600 + minute * 60 + second) ∧
      d.dayNumber = (time / 86400 : ℕ) + ntpEpochOrdinal := by
  have h_bound := dayNumber_le_of_year hy'
  -- from 1900 on a day number is not below that of the epoch, so nothing wraps
  have h_low : 693596 ≤ d.dayNumber := by
    have h_year := d.daysBeforeYear_lt_dayNumber
    have h_mono := Gregorian.daysBeforeYear_mono (by omega : 1 ≤ 1899 + 1) hy
    have h_closed := Gregorian.daysBeforeYear_succ_eq 1899
    omega
  rw [datetimeToEpoch, daysBeforeMonth_eq _ d.one_le_month d.month_le,
    daysBeforeYear_eq d.one_le_year]
  refine ⟨_, rfl, ?_⟩
  dsimp only
  rw [show (Gregorian.daysBeforeYear d.year : ℤ) + Gregorian.daysBeforeMonth d.year d.month +
    d.day = d.dayNumber by rw [Gregorian.Date.dayNumber]; omega]
  -- neither does the product
  have h_eq := @u64_of_range ((d.dayNumber - ntpEpochOrdinal) * 86400 +
    (hour * 3600 + minute * 60 + second : ℕ)) (by unfold ntpEpochOrdinal; omega)
    (by unfold ntpEpochOrdinal; omega)
  constructor
  · rw [h_eq]
    push_cast
    ring
  · unfold ntpEpochOrdinal at *
    omega

/-- The date of a valid date-time. -/
def Tm.Valid.date {tm : Tm} (h : tm.Valid) (hy : 1 ≤ tm.year) : Gregorian.Date :=
  ⟨tm.year, tm.mon, tm.mday, hy, h.mon.1, h.mon.2, h.mday.1, h.mday.2⟩

/-- **The two conversions are inverse.** For a time on a date of the calendar up to the year
65535, `epoch_to_datetime` succeeds with a valid date-time on that date, and
`datetime_to_epoch` takes it back; for a valid date-time from 1900 to 65535 it is the other
way round. -/
theorem epoch_datetime_roundTrip :
    (∀ (time : ℕ) (d : Gregorian.Date), d.dayNumber = (time / 86400 : ℕ) + ntpEpochOrdinal →
      d.year ≤ 65535 →
      ∃ tm, epochToDatetime time = some tm ∧ tm.Valid ∧
        (tm.year = d.year ∧ tm.mon = d.month ∧ tm.mday = d.day) ∧ tm.toEpoch = some time) ∧
    (∀ tm : Tm, tm.Valid → 1900 ≤ tm.year → tm.year ≤ 65535 →
      tm.toEpoch.bind epochToDatetime = some tm) := by
  constructor
  · intro time d hd hy
    have h_low : 1900 ≤ d.year := by
      -- an earlier year has a day number below that of the epoch
      by_contra h_lt
      have h_le := d.dayNumber_le
      have h_mono := Gregorian.daysBeforeYear_mono (by omega : 1 ≤ d.year + 1)
        (by omega : d.year + 1 ≤ 1899 + 1)
      have h_closed := Gregorian.daysBeforeYear_succ_eq 1899
      unfold ntpEpochOrdinal at hd
      omega
    refine ⟨_, epochToDatetime_eq hd hy,
      ⟨⟨d.one_le_month, d.month_le⟩, ⟨d.one_le_day, d.day_le⟩, ?_, ?_, ?_⟩, ⟨rfl, rfl, rfl⟩, ?_⟩
    · exact Nat.mod_lt _ (by omega)
    · exact Nat.mod_lt _ (by omega)
    · exact Nat.mod_lt _ (by omega)
    -- the remainders of the time are its hour, minute and second
    · obtain ⟨time', h_eq, h_val, -⟩ := datetimeToEpoch_eq h_low hy
        (Nat.mod_lt (time / 3600) (by omega)) (Nat.mod_lt (time / 60) (by omega))
        (Nat.mod_lt time (by omega))
      rw [Tm.toEpoch, h_eq]
      congr 1
      omega
  -- the time of a valid date-time lies on its date, so the date comes back
  · intro tm h_valid hy hy'
    obtain ⟨time, h_eq, h_val, h_day⟩ := @datetimeToEpoch_eq (h_valid.date (by omega)) _ _ _ hy hy'
      h_valid.hour h_valid.min h_valid.sec
    rw [Tm.toEpoch, show datetimeToEpoch tm.year tm.mon tm.mday tm.hour tm.min tm.sec = _ from h_eq,
      Option.bind_some, epochToDatetime_eq h_day hy', Option.some.injEq]
    have hh := h_valid.hour
    have hm := h_valid.min
    have hs := h_valid.sec
    obtain ⟨sec, min, hour, mday, mon, year⟩ := tm
    simp only [Tm.Valid.date, Tm.mk.injEq, and_true] at *
    omega

/-- Both directions on the leap day of 2000, one second before midnight. -/
theorem epoch_datetime_roundTrip_leapDay :
    (∃ tm, epochToDatetime 3160857599 = some tm ∧ tm.Valid ∧
      (tm.year = 2000 ∧ tm.mon = 2 ∧ tm.mday = 29) ∧ tm.toEpoch = some 3160857599) ∧
    (Tm.toEpoch ⟨59, 59, 23, 29, 2, 2000⟩).bind epochToDatetime =
      some ⟨59, 59, 23, 29, 2, 2000⟩ := by
  have h_closed : Gregorian.daysBeforeYear 2000 + 1999 / 100 = 1999 * 365 + 1999 / 4 + 1999 / 400 :=
    Gregorian.daysBeforeYear_succ_eq 1999
  constructor
  · refine epoch_datetime_roundTrip.1 3160857599
      ⟨2000, 2, 29, by decide, by decide, by decide, by decide, by decide⟩ ?_ (by decide)
    have h_month : Gregorian.daysBeforeMonth 2000 2 = 31 := rfl
    simp only [Gregorian.Date.dayNumber, h_month, ntpEpochOrdinal]
    omega
  · exact epoch_datetime_roundTrip.2 ⟨59, 59, 23, 29, 2, 2000⟩
      ⟨by decide, by decide, by decide, by decide, by decide⟩ (by decide) (by decide)

end Laureline
