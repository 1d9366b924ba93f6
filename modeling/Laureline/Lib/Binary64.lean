import Mathlib.Data.Int.Log
import Mathlib.Data.Rat.Floor
import Mathlib.Tactic.Linarith
import Mathlib.Tactic.FieldSimp
import Mathlib.Tactic.Positivity

/-!
# Binary64 arithmetic

A finite `double` is the rational number it denotes, and an operation rounds its
exact result to the nearest one, ties to even (`Binary64.round`). The grid is that
of 53 significant bits, with the exponent clipped where numbers become subnormal;
results in this development stay far below the overflow threshold, and the sign of
zero is not modelled.

* `Binary64.round_exact`: a number `n * 2 ^ k` with `|n| < 2 ^ 53` is its own
  rounding. Scaling by a power of two is exact for this reason.
* `Binary64.toInt64` and `Binary64.toUInt64` are the conversions to integers. They
  truncate, and are undefined outside the range of the type.
-/

namespace Laureline

/-- A value of type `double`. -/
inductive Double
  | nan
  | inf (negative : Bool)
  | fin (q : ℚ)
deriving DecidableEq

namespace Double

/-- `x > q` for a finite constant `q`. -/
def gt (q : ℚ) : Double → Bool
  | nan => false
  | inf negative => !negative
  | fin x => q < x

/-- `x < q` for a finite constant `q`. -/
def lt (q : ℚ) : Double → Bool
  | nan => false
  | inf negative => negative
  | fin x => x < q

/-- `-x`. -/
def neg : Double → Double
  | nan => nan
  | inf negative => inf !negative
  | fin x => fin (-x)

end Double

namespace Binary64

/-- The nearest integer, ties to even. -/
def roundEven (q : ℚ) : ℤ :=
  if q - ⌊q⌋ < 1 / 2 then ⌊q⌋
  else if q - ⌊q⌋ = 1 / 2 ∧ ⌊q⌋ % 2 = 0 then ⌊q⌋
  else ⌊q⌋ + 1

/-- The distance of the `double` values around `q`. -/
def ulp (q : ℚ) : ℚ := 2 ^ max (Int.log 2 |q| - 52) (-1074)

/-- Rounding to nearest, ties to even. -/
def round (q : ℚ) : ℚ := roundEven (q / ulp q) * ulp q

/-- Truncation. -/
def trunc (q : ℚ) : ℤ := if 0 ≤ q then ⌊q⌋ else ⌈q⌉

/-- Conversion to `int64_t`. -/
def toInt64 (q : ℚ) : Option ℤ :=
  if -2 ^ 63 ≤ trunc q ∧ trunc q < 2 ^ 63 then some (trunc q) else none

/-- Conversion to `uint64_t`. -/
def toUInt64 (q : ℚ) : Option ℕ :=
  if 0 ≤ trunc q ∧ trunc q < 2 ^ 64 then some (trunc q).toNat else none

@[simp] theorem roundEven_intCast (n : ℤ) : roundEven n = n := by
  simp [roundEven]

@[simp] theorem trunc_intCast (n : ℤ) : trunc n = n := by
  unfold trunc; split <;> simp

theorem ulp_pos (q : ℚ) : 0 < ulp q := zpow_pos (by norm_num) _

/-- Multiples of the grid distance are not rounded. -/
theorem round_of_grid {q : ℚ} {m : ℤ} (h : q = m * ulp q) : round q = q := by
  have h_pos := ulp_pos q
  have h_div : q / ulp q = m := by rw [div_eq_iff h_pos.ne']; exact h
  rw [round, h_div, roundEven_intCast]
  exact h.symm

/-- The grid around a number with at most 53 significant bits is no coarser than
its last bit. -/
theorem grid_le {n k : ℤ} (h0 : n ≠ 0) (hn : |n| < 2 ^ 53) (hk : -1074 ≤ k) :
    max (Int.log 2 |(n * 2 ^ k : ℚ)| - 52) (-1074) ≤ k := by
  refine max_le ?_ hk
  have h_pow : (0 : ℚ) < 2 ^ k := zpow_pos (by norm_num) k
  have h_ne : (n : ℚ) * 2 ^ k ≠ 0 := mul_ne_zero (Int.cast_ne_zero.mpr h0) h_pow.ne'
  -- the number is at least the power of two that its logarithm names, and below 2 ^ (53 + k)
  have h_lower : (2 : ℚ) ^ Int.log 2 |(n * 2 ^ k : ℚ)| ≤ |(n * 2 ^ k : ℚ)| := by
    exact_mod_cast Int.zpow_log_le_self (b := 2) (by norm_num) (abs_pos.mpr h_ne)
  have h_upper : |(n * 2 ^ k : ℚ)| < 2 ^ (53 + k) := by
    rw [abs_mul, abs_of_pos h_pow, zpow_add₀ (by norm_num)]
    refine mul_lt_mul_of_pos_right ?_ h_pow
    exact_mod_cast hn
  have h_lt := (zpow_lt_zpow_iff_right₀ (by norm_num : (1 : ℚ) < 2)).mp
    (h_lower.trans_lt h_upper)
  omega

/-- **Exactness.** A number with at most 53 significant bits is not rounded. -/
theorem round_exact {n k : ℤ} (hn : |n| < 2 ^ 53) (hk : -1074 ≤ k) :
    round (n * 2 ^ k) = n * 2 ^ k := by
  rcases eq_or_ne n 0 with rfl | h0
  · exact round_of_grid (m := 0) (by simp)
  · -- the grid distance is 2 ^ k divided by some 2 ^ d, so the number is on the grid
    have h_le := grid_le h0 hn hk
    obtain ⟨d, hd⟩ := Int.eq_ofNat_of_zero_le (Int.sub_nonneg_of_le h_le)
    refine round_of_grid (m := n * 2 ^ d) ?_
    have h_exp : k = d + max (Int.log 2 |(n * 2 ^ k : ℚ)| - 52) (-1074) := by omega
    unfold ulp
    nth_rewrite 1 [h_exp]
    rw [zpow_add₀ (by norm_num), zpow_natCast]
    push_cast
    ring

end Binary64

end Laureline
