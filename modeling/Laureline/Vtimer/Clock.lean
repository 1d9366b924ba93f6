import Laureline.Lib.CInt
import Laureline.Lib.Binary64

/-!
# The virtual timer

The state of `vtimer.c` and the functions that read and write it. Served time is a
base, taken at one monotonic reading, plus the rate times the ticks since. Rates
are in units of `2^-28` NTP fractions per tick.

* `getI` and `updateI` are `vtimer_getI` and `vtimer_updateI`: an unsigned 64-bit
  rate, a signed 32-bit difference, a product that wraps and an arithmetic shift.
* `kernFreq`, `step`, `now` and `stepTimeOfDay` follow the functions of these
  names and the time-of-day block of `pll_thread`. Where the C code converts a `double`
  that is out of range, they have no result.
* `getI_modEq`: as long as neither the difference nor the product overflows
  (`InRange`), a reading is the base plus the served fraction rounded down.
-/

namespace Laureline

/-- `VT_RATE_PREC`. -/
def vtRatePrec : ℕ := 28

/-- `NTP_TO_FLOAT`. -/
def ntpToFloat : ℚ := 4294967296

/-- The variables of `vtimer.c` that make up the clock. -/
structure Vtimer where
  /-- `vt_rate`, in `2^-28` NTP fractions per tick. -/
  vtRate : ℕ
  /-- `vt_rate_nominal`, the rate for the nominal system frequency. -/
  vtRateNominal : ℚ
  /-- `vt_last`, the time at the last update. -/
  vtLast : ℕ
  /-- `mono_last`, the monotonic time at the last update. -/
  monoLast : ℕ
  /-- `utc_next`, the received time of day, or 0. -/
  utcNext : ℕ
deriving DecidableEq

namespace Vtimer

/-- `vtimer_start`. -/
def start (systemFrequency : ℕ) : Vtimer where
  vtRate := 0
  vtRateNominal := Binary64.round (ntpToFloat / systemFrequency)
  vtLast := 0
  monoLast := 0
  utcNext := 0

/-- `vtimer_getI`. -/
def getI (v : Vtimer) (monoNext : ℕ) : ℕ :=
  let deltaTicks := i32 ((monoNext : ℤ) - v.monoLast)
  let fracPart := i64 (v.vtRate * deltaTicks)
  u64 (v.vtLast + fracPart / 2 ^ vtRatePrec)

/-- `vtimer_updateI`, with the value that `monotonic_now` returns to it. -/
def updateI (v : Vtimer) (monoNext : ℕ) : Vtimer :=
  { v with vtLast := v.getI monoNext, monoLast := monoNext }

/-- The literal `500e-6`. -/
def freqLimit : ℚ := Binary64.round (500 / 1000000)

/-- `kern_freq`. -/
def kernFreq (v : Vtimer) (f : Double) : Option Vtimer :=
  let f :=
    if f.gt freqLimit then .fin freqLimit
    else if f.lt (-freqLimit) then .fin (-freqLimit)
    else f
  match f with
  | .fin q =>
    let rate := Binary64.round (v.vtRateNominal * Binary64.round (1 + q))
    (Binary64.toUInt64 (Binary64.round (rate * 2 ^ vtRatePrec))).map
      fun vtRate => { v with vtRate }
  | _ => none

/-- The first line of `vtimer_step`. -/
def stepBase (v : Vtimer) (dd : ℚ) : Option Vtimer :=
  (Binary64.toInt64 (Binary64.round (dd * ntpToFloat))).map
    fun n => { v with vtLast := u64 (v.vtLast + n) }

/-- `vtimer_step`. -/
def step (v : Vtimer) (dd : ℚ) (monoNext : ℕ) : Option Vtimer :=
  (v.stepBase dd).map fun v => v.updateI monoNext

/-- `vtimer_now`. -/
def now (v : Vtimer) (monoNow : ℕ) : ℕ := v.getI monoNow

/-- `tmps` in `pll_thread`: the difference of the received time of day to the
seconds of the clock. -/
def timeOfDay (v : Vtimer) : ℤ :=
  if v.utcNext ≠ 0 then (v.utcNext : ℤ) - (v.vtLast / 2 ^ 32 : ℕ) else 0

/-- The step that `pll_thread` makes for a received time of day, before the
monotonic advance in `vtimer_step`. -/
def stepTimeOfDay (v : Vtimer) : Option Vtimer :=
  if v.timeOfDay ≠ 0 then v.stepBase (Binary64.round v.timeOfDay) else some v

/-! ### Readings -/

/-- The ticks from the base to a monotonic reading. -/
def elapsed (v : Vtimer) (mono : ℕ) : ℤ := (mono : ℤ) - v.monoLast

/-- The time served from the base to a monotonic reading, rounded down. -/
def served (v : Vtimer) (mono : ℕ) : ℤ := v.vtRate * v.elapsed mono / 2 ^ vtRatePrec

/-- Neither the difference nor the product overflows. -/
structure InRange (v : Vtimer) (mono : ℕ) : Prop where
  ticks : -2 ^ 31 ≤ v.elapsed mono ∧ v.elapsed mono < 2 ^ 31
  product : -2 ^ 63 ≤ v.vtRate * v.elapsed mono ∧ v.vtRate * v.elapsed mono < 2 ^ 63

theorem getI_lt (v : Vtimer) (mono : ℕ) : v.getI mono < 2 ^ 64 := u64_lt _

/-- In range, the conversions change nothing. -/
theorem getI_eq {v : Vtimer} {mono : ℕ} (h : v.InRange mono) :
    v.getI mono = u64 (v.vtLast + v.served mono) := by
  -- the 32-bit difference is the number of ticks
  have h_ticks : i32 ((mono : ℤ) - v.monoLast) = v.elapsed mono :=
    i32_of_range h.ticks.1 h.ticks.2
  simp only [getI, h_ticks, served]
  rw [i64_of_range h.product.1 h.product.2]

/-- **Readings.** In range, a reading is the base plus the served time, modulo the
era. -/
theorem getI_modEq {v : Vtimer} {mono : ℕ} (h : v.InRange mono) :
    (v.getI mono : ℤ) ≡ v.vtLast + v.served mono [ZMOD 2 ^ 64] := by
  have h_cast := cast_u64_modEq (v.vtLast + v.served mono)
  rw [← getI_eq h] at h_cast
  exact h_cast

/-- Away from the end of the era the sum is the reading itself. -/
theorem getI_exact {v : Vtimer} {mono : ℕ} (h : v.InRange mono)
    (hl : 0 ≤ v.vtLast + v.served mono) (hu : v.vtLast + v.served mono < 2 ^ 64) :
    (v.getI mono : ℤ) = v.vtLast + v.served mono := by
  have h_cast := u64_of_range hl hu
  rw [← getI_eq h] at h_cast
  exact h_cast

@[simp] theorem updateI_vtRate (v : Vtimer) (mono : ℕ) :
    (v.updateI mono).vtRate = v.vtRate := by simp only [updateI]

@[simp] theorem updateI_monoLast (v : Vtimer) (mono : ℕ) :
    (v.updateI mono).monoLast = mono := by simp only [updateI]

@[simp] theorem updateI_vtLast (v : Vtimer) (mono : ℕ) :
    (v.updateI mono).vtLast = v.getI mono := by simp only [updateI]

end Vtimer
end Laureline
