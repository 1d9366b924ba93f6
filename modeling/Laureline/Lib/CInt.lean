import Mathlib.Tactic.Common
import Mathlib.Data.Int.ModEq

/-!
# Fixed-width integers of C

Values of unsigned types are natural numbers, values of signed types integers.
`u64`, `u32`, `i32` and `i64` are the conversions; the signed ones wrap. A conversion
changes nothing in the range of its type (`i32_of_range`, `i64_of_range`).
-/

namespace Laureline

/-- Conversion to `uint64_t`. -/
def u64 (x : ℤ) : ℕ := (x % 2 ^ 64).toNat

/-- Conversion to `uint32_t`. -/
def u32 (x : ℤ) : ℕ := (x % 2 ^ 32).toNat

/-- Conversion to `int32_t`. -/
def i32 (x : ℤ) : ℤ := x.bmod (2 ^ 32)

/-- Conversion to `int64_t`. -/
def i64 (x : ℤ) : ℤ := x.bmod (2 ^ 64)

theorem i32_of_range {x : ℤ} (hl : -2 ^ 31 ≤ x) (hu : x < 2 ^ 31) : i32 x = x := by
  unfold i32
  rw [Int.bmod_def]
  omega

theorem i64_of_range {x : ℤ} (hl : -2 ^ 63 ≤ x) (hu : x < 2 ^ 63) : i64 x = x := by
  unfold i64
  rw [Int.bmod_def]
  omega

theorem u64_lt (x : ℤ) : u64 x < 2 ^ 64 := by
  unfold u64; omega

theorem cast_u64 (x : ℤ) : (u64 x : ℤ) = x % 2 ^ 64 := by
  unfold u64; omega

theorem cast_u64_modEq (x : ℤ) : (u64 x : ℤ) ≡ x [ZMOD 2 ^ 64] := by
  rw [cast_u64]; exact Int.mod_modEq _ _

theorem u64_of_range {x : ℤ} (hl : 0 ≤ x) (hu : x < 2 ^ 64) : (u64 x : ℤ) = x := by
  rw [cast_u64]; omega

end Laureline
