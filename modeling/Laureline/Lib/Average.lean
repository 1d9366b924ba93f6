import Mathlib.Tactic.FieldSimp
import Mathlib.Tactic.Linarith
import Mathlib.Tactic.Positivity
import Mathlib.Tactic.Ring

/-!
# Running averages

An average that moves towards each new value by a part `1 / j` of the distance stays between its
bounds and those of the values, whatever the parts are (`le_approach`, `approach_le`). `lowest` and
`highest` are the extremes of the values and 0.
-/

namespace Laureline

namespace Average

/-! ### Extremes -/

section
variable {K : Type*} [LinearOrder K] [Zero K]

/-- The least of 0 and the values. -/
def lowest (vs : List K) : K := vs.foldr min 0

/-- The greatest of 0 and the values. -/
def highest (vs : List K) : K := vs.foldr max 0

theorem lowest_cons_le (v : K) (vs : List K) : lowest (v :: vs) ≤ v := min_le_left _ _

theorem lowest_cons_le_lowest (v : K) (vs : List K) : lowest (v :: vs) ≤ lowest vs :=
  min_le_right _ _

theorem le_highest_cons (v : K) (vs : List K) : v ≤ highest (v :: vs) := le_max_left _ _

theorem highest_le_highest_cons (v : K) (vs : List K) : highest vs ≤ highest (v :: vs) :=
  le_max_right _ _

end

/-! ### Steps -/

variable {K : Type*} [Field K] [LinearOrder K] [IsStrictOrderedRing K]

/-- A step of a part `1 / j` from `x` to `v`. -/
def approach (j : ℕ) (x v : K) : K := x + (v - x) / j

theorem approach_eq {j : ℕ} (hj : 0 < j) (x v : K) :
    approach j x v = x * (1 - 1 / (j : K)) + v * (1 / (j : K)) := by
  have h_ne : (j : K) ≠ 0 := Nat.cast_ne_zero.mpr hj.ne'
  unfold approach
  field_simp
  ring

variable {j : ℕ} {x v lo hi : K}

theorem le_approach (hj : 0 < j) (hx : lo ≤ x) (hv : lo ≤ v) : lo ≤ approach j x v := by
  have h_one : (1 : K) ≤ j := by exact_mod_cast hj
  have h_part : 1 / (j : K) ≤ 1 := by rw [div_le_one (by linarith)]; exact h_one
  have h_nonneg : 0 ≤ 1 / (j : K) := by positivity
  rw [approach_eq hj]
  calc lo = lo * (1 - 1 / (j : K)) + lo * (1 / (j : K)) := by ring
    _ ≤ x * (1 - 1 / (j : K)) + v * (1 / (j : K)) :=
      add_le_add (mul_le_mul_of_nonneg_right hx (by linarith))
        (mul_le_mul_of_nonneg_right hv h_nonneg)

theorem approach_le (hj : 0 < j) (hx : x ≤ hi) (hv : v ≤ hi) : approach j x v ≤ hi := by
  have h_neg := le_approach hj (neg_le_neg hx) (neg_le_neg hv)
  have h_eq : approach j (-x) (-v) = -approach j x v := by unfold approach; ring
  rw [h_eq] at h_neg
  exact neg_le_neg_iff.mp h_neg

variable {vs : List K}

/-- An average between the extremes stays there. -/
theorem approach_mem (hj : 0 < j) (h_lo : lowest vs ≤ x) (h_hi : x ≤ highest vs) (v : K) :
    lowest (v :: vs) ≤ approach j x v ∧ approach j x v ≤ highest (v :: vs) :=
  ⟨le_approach hj ((lowest_cons_le_lowest v vs).trans h_lo) (lowest_cons_le v vs),
    approach_le hj (h_hi.trans (highest_le_highest_cons v vs)) (le_highest_cons v vs)⟩

/-- So does an average of values that are not negative. -/
theorem approach_nonneg_le (hj : 0 < j) (h_nonneg : 0 ≤ x) (h_hi : x ≤ highest vs)
    (hv : 0 ≤ v) : 0 ≤ approach j x v ∧ approach j x v ≤ highest (v :: vs) :=
  ⟨le_approach hj h_nonneg hv,
    approach_le hj (h_hi.trans (highest_le_highest_cons v vs)) (le_highest_cons v vs)⟩

end Average

end Laureline
