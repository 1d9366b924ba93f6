import Laureline.Lib.CInt

/-!
# Epochs

`epoch.c` as far as received times of day need it: civil dates and GPS weeks to
NTP seconds. Arithmetic in `int` is exact for the 16-bit years that occur, with
divisions that truncate; results are `uint64_t`.

The table of days before a month has 13 entries and is read without a check
(`daysBeforeMonth`): a month outside it has no result.
-/

namespace Laureline

/-- `NTP_EPOCH_ORDINAL`. -/
def ntpEpochOrdinal : ℤ := 693596

/-- `NTP_GPS_EPOCH`. -/
def ntpGpsEpoch : ℕ := 2524953600

/-- `_days_before_month`, with an unused entry 0. -/
def daysBeforeMonthTable : List ℕ := [0, 0, 31, 59, 90, 120, 151, 181, 212, 243, 273, 304, 334]

/-- `is_leap`. -/
def isLeap (year : ℕ) : Bool := year % 4 == 0 && (year % 100 != 0 || year % 400 == 0)

/-- `days_before_month`; `none` is a read outside the table. -/
def daysBeforeMonth (year month : ℕ) : Option ℕ :=
  daysBeforeMonthTable[month]?.map fun days =>
    if month > 2 ∧ isLeap year then days + 1 else days

/-- `days_before_year`. -/
def daysBeforeYear (year : ℕ) : ℤ :=
  let y : ℤ := (year : ℤ) - 1
  y * 365 + y.tdiv 4 - y.tdiv 100 + y.tdiv 400

/-- `datetime_to_epoch`. -/
def datetimeToEpoch (year month day hour minute second : ℕ) : Option ℕ :=
  (daysBeforeMonth year month).map fun days =>
    let ordinal : ℤ := daysBeforeYear year + days + day - ntpEpochOrdinal
    u64 (ordinal * 86400 + (hour * 3600 + minute * 60 + second : ℕ))

/-- `gps_to_epoch`. -/
def gpsToEpoch (wkn tow : ℕ) : ℕ := u64 (ntpGpsEpoch + wkn * 604800 + tow)

/-- The table covers exactly the months up to 12. -/
theorem daysBeforeMonth_isSome {year month : ℕ} :
    (daysBeforeMonth year month).isSome ↔ month ≤ 12 := by
  rw [daysBeforeMonth, Option.isSome_map, Option.isSome_iff_ne_none, ne_eq,
    List.getElem?_eq_none_iff]
  simp only [daysBeforeMonthTable, List.length_cons, List.length_nil]
  omega

example : datetimeToEpoch 2014 1 30 0 0 0 = some 3600028800 := by decide

end Laureline
