import Mathlib.Data.Nat.Notation

/-!
# Fields of four bits

The registers of a peripheral often hold a field of four bits for each channel. `nibble` reads one,
`clearNibble` and `orNibble` change one; bit by bit, they do what the names say
(`getLsbD_nibble` and its companions), so that the fields at different places do not touch.
-/

namespace Laureline

namespace Nibble

variable {w : ℕ}

/-- The field at `k`. -/
def nibble (r : BitVec w) (k : ℕ) : BitVec w := (r >>> k) &&& 15#w

/-- The field at `k` is cleared. -/
def clearNibble (r : BitVec w) (k : ℕ) : BitVec w := r &&& ~~~(15#w <<< k)

/-- The bits of `f` are set in the field at `k`. -/
def orNibble (r : BitVec w) (k : ℕ) (f : BitVec 4) : BitVec w := r ||| (f.setWidth w <<< k)

/-- The bits of `0xF`. -/
theorem getLsbD_mask (n : ℕ) : (15#w).getLsbD n = (decide (n < w) && decide (n < 4)) := by
  have h_bits : Nat.testBit 15 n = decide (n < 4) := Nat.testBit_two_pow_sub_one 4 n
  rw [BitVec.getLsbD_ofNat, h_bits]

theorem getLsbD_nibble (r : BitVec w) (k n : ℕ) :
    (nibble r k).getLsbD n = (decide (n < 4) && r.getLsbD (k + n)) := by
  rw [nibble, BitVec.getLsbD_and, getLsbD_mask, BitVec.getLsbD_ushiftRight]
  by_cases h : k + n < w
  · have h_n : n < w := by omega
    simp [h_n, Bool.and_comm]
  · rw [BitVec.getLsbD_of_ge _ _ (Nat.not_lt.mp h)]
    simp

theorem getLsbD_clearNibble (r : BitVec w) (k n : ℕ) :
    (clearNibble r k).getLsbD n = (r.getLsbD n && decide (n < k ∨ k + 4 ≤ n)) := by
  rw [clearNibble, BitVec.getLsbD_and, BitVec.getLsbD_not, BitVec.getLsbD_shiftLeft, getLsbD_mask]
  by_cases h : n < w
  · congr 1
    have h_sub : n - k < w := by omega
    rw [Bool.eq_iff_iff]
    simp only [h, h_sub, decide_true, Bool.true_and, Bool.not_and, Bool.not_not, Bool.or_eq_true,
      decide_eq_true_eq, Bool.not_eq_true', decide_eq_false_iff_not]
    omega
  · rw [BitVec.getLsbD_of_ge r _ (Nat.not_lt.mp h)]
    simp

theorem getLsbD_orNibble (r : BitVec w) (k : ℕ) (f : BitVec 4) (n : ℕ) :
    (orNibble r k f).getLsbD n =
      (r.getLsbD n || (decide (n < w) && (decide (k ≤ n) && f.getLsbD (n - k)))) := by
  rw [orNibble, BitVec.getLsbD_or, BitVec.getLsbD_shiftLeft, BitVec.getLsbD_setWidth]
  grind

/-- Places of different fields. -/
def Apart (k k' : ℕ) : Prop := k + 4 ≤ k' ∨ k' + 4 ≤ k

variable {r : BitVec w} {k k' : ℕ} {f : BitVec 4}

theorem nibble_clearNibble_self : nibble (clearNibble r k) k = 0 := by
  refine BitVec.eq_of_getLsbD_eq fun n _ => ?_
  rw [getLsbD_nibble, getLsbD_clearNibble]
  grind

theorem nibble_clearNibble_of_apart (h : Apart k k') :
    nibble (clearNibble r k) k' = nibble r k' := by
  refine BitVec.eq_of_getLsbD_eq fun n _ => ?_
  rw [getLsbD_nibble, getLsbD_nibble, getLsbD_clearNibble]
  unfold Apart at h
  grind

theorem nibble_orNibble_of_apart (h : Apart k k') : nibble (orNibble r k f) k' = nibble r k' := by
  refine BitVec.eq_of_getLsbD_eq fun n _ => ?_
  rw [getLsbD_nibble, getLsbD_nibble, getLsbD_orNibble]
  unfold Apart at h
  have h_f : k ≤ k' + n → n < 4 → f.getLsbD (k' + n - k) = false := fun h_le h_n =>
    BitVec.getLsbD_of_ge _ _ (by omega)
  grind

/-- Where the field fits into the register. -/
theorem nibble_orNibble_self (h : k + 4 ≤ w) :
    nibble (orNibble r k f) k = nibble r k ||| f.setWidth w := by
  refine BitVec.eq_of_getLsbD_eq fun n _ => ?_
  rw [getLsbD_nibble, BitVec.getLsbD_or, getLsbD_nibble, getLsbD_orNibble, BitVec.getLsbD_setWidth,
    Nat.add_sub_cancel_left]
  by_cases h_n : n < 4
  · grind
  · rw [BitVec.getLsbD_of_ge f _ (Nat.not_lt.mp h_n)]
    simp

end Nibble

end Laureline
