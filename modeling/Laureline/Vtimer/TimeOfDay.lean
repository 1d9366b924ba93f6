import Laureline.Vtimer.Clock

/-!
# Stepping to a received time of day

`pll_thread` steps the clock by the difference of the received seconds to its own.
The difference travels through a `double`, scaled by `2^32`, into a signed 64-bit
integer. The arithmetic is exact (`round_seconds`); the conversion back is
defined as long as the difference fits a signed 32-bit integer.

* `stepBase_seconds`: a step in seconds, defined or not.
* `stepTimeOfDay_iff`: the step is defined, and sets the seconds and keeps the
  fraction, if and only if the difference is in that range.
* `stepTimeOfDay_first`: the first step after power-up, with the clock near 0 and
  a time of day in this century, is out of range.
-/

namespace Laureline
namespace Vtimer

/-- The step for the received time of day is in the range of the conversion, sets
the seconds field and keeps the fraction. -/
def StepsToTimeOfDay (v : Vtimer) : Prop :=
  (-2 ^ 63 ≤ v.timeOfDay * 2 ^ 32 ∧ v.timeOfDay * 2 ^ 32 < 2 ^ 63) ∧
    ∃ v', v.stepTimeOfDay = some v' ∧ v'.vtLast / 2 ^ 32 = v.utcNext ∧
      v'.vtLast % 2 ^ 32 = v.vtLast % 2 ^ 32

/-- Seconds scaled by `2^32` are exact in a `double`. -/
theorem round_seconds {t : ℤ} (ht : |t| < 2 ^ 53) :
    Binary64.round (Binary64.round t * ntpToFloat) = (t * 2 ^ 32 : ℤ) := by
  -- neither the conversion to `double` nor the scaling rounds
  have h_int : Binary64.round (t * 2 ^ (0 : ℤ)) = t * 2 ^ (0 : ℤ) :=
    Binary64.round_exact ht (by norm_num)
  have h_scaled : Binary64.round (t * 2 ^ (32 : ℤ)) = t * 2 ^ (32 : ℤ) :=
    Binary64.round_exact ht (by norm_num)
  have h_pow : ntpToFloat = 2 ^ (32 : ℤ) := by norm_num [ntpToFloat]
  rw [zpow_zero, mul_one] at h_int
  rw [h_int, h_pow, h_scaled]
  push_cast
  rfl

/-- **The step.** It adds the difference in whole seconds if the scaled difference
is in the range of `int64_t`, and is undefined otherwise. -/
theorem stepBase_seconds (v : Vtimer) {t : ℤ} (ht : |t| < 2 ^ 53) :
    v.stepBase (Binary64.round t) =
      if -2 ^ 63 ≤ t * 2 ^ 32 ∧ t * 2 ^ 32 < 2 ^ 63 then
        some { v with vtLast := u64 (v.vtLast + t * 2 ^ 32) }
      else none := by
  rw [stepBase, round_seconds ht, Binary64.toInt64, Binary64.trunc_intCast]
  split <;> rfl

/-- **The time of day.** For every clock and every received time of day, the step
is defined and right if and only if the received seconds differ from those of the
clock by a signed 32-bit integer. -/
theorem stepTimeOfDay_iff (v : Vtimer) (h_range : v.utcNext < 2 ^ 32) (h_utc : v.utcNext ≠ 0) :
    v.StepsToTimeOfDay ↔
      -2 ^ 31 ≤ (v.utcNext : ℤ) - (v.vtLast / 2 ^ 32 : ℕ) ∧
        (v.utcNext : ℤ) - (v.vtLast / 2 ^ 32 : ℕ) < 2 ^ 31 := by
  have h_tod : v.timeOfDay = (v.utcNext : ℤ) - (v.vtLast / 2 ^ 32 : ℕ) := if_pos h_utc
  rw [← h_tod]
  constructor
  · rintro ⟨h_product, -⟩
    omega
  · intro h_fits
    have h_product : -2 ^ 63 ≤ v.timeOfDay * 2 ^ 32 ∧ v.timeOfDay * 2 ^ 32 < 2 ^ 63 := by omega
    refine ⟨h_product, ?_⟩
    unfold stepTimeOfDay
    by_cases h_zero : v.timeOfDay = 0
    · -- the seconds are equal, and no step is made
      rw [if_neg (not_not.mpr h_zero)]
      exact ⟨v, rfl, by omega, rfl⟩
    · rw [if_pos h_zero, v.stepBase_seconds (by rw [abs_lt]; omega), if_pos h_product]
      -- the sum has the seconds received, so it does not wrap
      have h_sum := u64_of_range (x := v.vtLast + v.timeOfDay * 2 ^ 32) (by omega) (by omega)
      refine ⟨_, rfl, ?_, ?_⟩ <;> dsimp only <;> omega

/-- A second after power-up a time of day half a minute ahead arrives. -/
theorem stepTimeOfDay_iff_near :
    StepsToTimeOfDay { start 60000000 with vtLast := 2 ^ 32 + 5, utcNext := 31 } :=
  (stepTimeOfDay_iff _ (by decide) (by decide)).mpr (by decide)

/-- The first time of day after power-up is that of a day in 2014. -/
theorem stepTimeOfDay_first :
    ¬ ∀ v : Vtimer, v.vtLast < 2 ^ 64 → v.utcNext < 2 ^ 32 → v.utcNext ≠ 0 →
      v.StepsToTimeOfDay := by
  intro h_all
  obtain ⟨h_product, -⟩ := h_all { start 60000000 with utcNext := 3600000000 }
    (by decide) (by decide) (by decide)
  exact absurd h_product (by decide)

end Vtimer
end Laureline
