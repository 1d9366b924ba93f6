import Laureline.DayCount
import Laureline.Vtimer.Clock

/-!
# Two ways to set the time

`vtimer_set_utc` takes a civil date-time and goes through the calendar, `vtimer_set_gps` takes
a week and the seconds of it and is linear in both, from `NTP_GPS_EPOCH` on. Both keep the low
32 bits of the NTP seconds. `setGps_eq_setUtc`: the date-time on the clock on the wall that many
seconds after 6 January 1980 leaves the same `utc_next`, for each of the 65536 weeks.
-/

namespace Laureline

/-- The first second of GPS time. -/
def gpsOrigin : Tm := ⟨0, 0, 0, 6, 1, 1980⟩

theorem gpsOrigin_valid : gpsOrigin.Valid :=
  ⟨by decide, by decide, by decide, by decide, by decide⟩

/-- `NTP_GPS_EPOCH` is the distance of the two epochs. -/
theorem gpsOrigin_seconds : gpsOrigin.seconds = ntpGpsEpoch + 693596 * 86400 := by
  have h_years : Gregorian.daysBeforeYear 1980 + 1979 / 100 = 1979 * 365 + 1979 / 4 + 1979 / 400 :=
    Gregorian.daysBeforeYear_succ_eq 1979
  have h_january : Gregorian.daysBeforeMonth 1980 1 = 0 := rfl
  simp only [Tm.seconds, Tm.dayNumber, Tm.tod, gpsOrigin, ntpGpsEpoch, h_january]
  generalize Gregorian.daysBeforeYear 1980 = days at h_years ⊢
  omega

/-- The date-time a number of seconds after the beginning of GPS time. -/
def gpsDate (seconds : ℕ) : Tm := Tm.next^[seconds] gpsOrigin

/-- A date-time before the beginning of a year. -/
theorem Tm.year_le_of_seconds {tm : Tm} {year : ℕ} (hy : 1 ≤ year)
    (h : tm.seconds < Gregorian.daysBeforeYear year * 86400) : tm.year < year := by
  by_contra h_year
  have h_mono : Gregorian.daysBeforeYear year ≤ Gregorian.daysBeforeYear tm.year :=
    Gregorian.daysBeforeYear_mono hy (not_lt.mp h_year)
  rw [Tm.seconds, Tm.dayNumber] at h
  omega

/-- The date-times of GPS weeks, and the NTP seconds of each. -/
theorem gpsDate_spec {seconds : ℕ} (h : seconds < 65537 * 604800) :
    (gpsDate seconds).Valid ∧ (gpsDate seconds).year ≤ 65535 ∧
      (gpsDate seconds).toEpoch = some (ntpGpsEpoch + seconds) := by
  obtain ⟨h_valid, h_later, h_seconds⟩ := gpsOrigin_valid.seconds_iterate (by decide) seconds
  rw [gpsOrigin_seconds] at h_seconds
  rw [← gpsDate] at h_valid h_later h_seconds
  have h_end : Gregorian.daysBeforeYear 4000 + 3999 / 100 = 3999 * 365 + 3999 / 4 + 3999 / 400 :=
    Gregorian.daysBeforeYear_succ_eq 3999
  -- 65537 weeks end before the year 4000
  have h_year : (gpsDate seconds).year < 4000 := by
    apply Tm.year_le_of_seconds (by decide)
    rw [h_seconds, ntpGpsEpoch]
    omega
  have h_origin : 1980 ≤ (gpsDate seconds).year := h_later
  -- the date-time has the NTP seconds that its own seconds give
  obtain ⟨time, h_eq, h_time⟩ := h_valid.toEpoch_eq (by omega) (by omega)
  refine ⟨h_valid, by omega, ?_⟩
  rw [h_eq]
  congr 1
  omega

/-- `gps_to_epoch` does not wrap. -/
theorem gpsToEpoch_eq {wkn tow : ℕ} (h_wkn : wkn < 2 ^ 16) (h_tow : tow < 604800) :
    gpsToEpoch wkn tow = ntpGpsEpoch + (wkn * 604800 + tow) := by
  rw [gpsToEpoch, ntpGpsEpoch]
  have h_sum : (2524953600 + wkn * 604800 + tow : ℤ) < 2 ^ 64 := by omega
  have := u64_of_range (x := (2524953600 : ℕ) + wkn * 604800 + tow) (by omega) (by omega)
  omega

namespace Vtimer

/-- `vtimer_set_utc`. -/
def setUtc (v : Vtimer) (year month day hour minute second : ℕ) : Option Vtimer :=
  (datetimeToEpoch year month day hour minute second).map fun ntpSeconds : ℕ =>
    { v with utcNext := u32 ntpSeconds }

/-- `vtimer_set_gps`. -/
def setGps (v : Vtimer) (wkn tow : ℕ) : Vtimer := { v with utcNext := u32 (gpsToEpoch wkn tow) }

/-- **Both ways agree.** For every week number and every second of the week, the date-time
that lies `7 * wkn` days and `tow` seconds after 6 January 1980 has the same NTP seconds and
leaves the same time of day. -/
theorem setGps_eq_setUtc (v : Vtimer) {wkn tow : ℕ} (h_wkn : wkn < 2 ^ 16)
    (h_tow : tow < 604800) {tm : Tm} (h : tm = gpsDate (7 * wkn * 86400 + tow)) :
    tm.Valid ∧ tm.year ≤ 65535 ∧ tm.toEpoch = some (gpsToEpoch wkn tow) ∧
      v.setUtc tm.year tm.mon tm.mday tm.hour tm.min tm.sec = some (v.setGps wkn tow) := by
  subst h
  -- both count the seconds since the beginning of GPS time
  have h_week : 7 * wkn * 86400 + tow = wkn * 604800 + tow := by omega
  rw [h_week]
  obtain ⟨h_valid, h_year, h_eq⟩ :=
    @gpsDate_spec (wkn * 604800 + tow) (by omega)
  rw [← gpsToEpoch_eq h_wkn h_tow] at h_eq
  refine ⟨h_valid, h_year, h_eq, ?_⟩
  rw [Tm.toEpoch] at h_eq
  rw [setUtc, h_eq, Option.map_some, setGps]

/-- Five seconds after the beginning of GPS time. -/
theorem setGps_eq_setUtc_five :
    (⟨5, 0, 0, 6, 1, 1980⟩ : Tm).toEpoch = some (gpsToEpoch 0 5) ∧
      (start 60000000).setUtc 1980 1 6 0 0 5 = some ((start 60000000).setGps 0 5) := by
  obtain ⟨-, -, h_epoch, h_set⟩ :=
    @setGps_eq_setUtc (start 60000000) 0 5 (by decide) (by decide) ⟨5, 0, 0, 6, 1, 1980⟩
      (by decide)
  exact ⟨h_epoch, h_set⟩

/-- The first second of the next era. -/
example (v : Vtimer) : v.setGps 2926 368896 = { v with utcNext := 0 } := rfl

end Vtimer
end Laureline
