import Mathlib

/-!
# Cyclic redundancy checks

A CRC of width `w` over bit strings, most significant bit first. The generator is the polynomial
`X ^ w + val g` over the field of two elements, of which a program keeps the low coefficients `g`.

* `poly bits` is the polynomial of a bit string, and `val c` that of a register.
* `shiftIn` is the shift register, one bit at a time; `shiftAll` runs it over a bit string.
* `dvd_codeword`: a bit string with its CRC behind it is a multiple of the generator. So
  `shiftAll_eq_of_dvd` decides equality of registers by a congruence.
* `not_dvd_of_errors`: a code whose generator has the constant term 1 detects one wrong bit, and
  two wrong bits that are closer than the order of `X`.
-/

namespace Laureline

namespace Crc

open Polynomial

variable {w : ℕ}

/-- A bit as a coefficient. -/
def bit (b : Bool) : ZMod 2 := if b then 1 else 0

theorem bit_xor (a b : Bool) : bit (a ^^ b) = bit a + bit b := by
  cases a <;> cases b <;> decide

theorem bit_injective : Function.Injective bit := by
  intro a b h
  revert a b
  decide

/-- The polynomial with the first `n` values of `f` as its coefficients. -/
noncomputable def sumOf (n : ℕ) (f : ℕ → Bool) : (ZMod 2)[X] :=
  ∑ i ∈ Finset.range n, C (bit (f i)) * X ^ i

/-- The polynomial of a register. -/
noncomputable def val (c : BitVec w) : (ZMod 2)[X] := sumOf w c.getLsbD

/-- The polynomial of a bit string, which begins with the leading coefficient. -/
noncomputable def poly (bits : List Bool) : (ZMod 2)[X] :=
  bits.foldl (fun p b => p * X + C (bit b)) 0

/-- The bits of a register, most significant bit first. -/
def bitsOf (c : BitVec w) : List Bool := (List.range w).reverse.map c.getLsbD

/-- One step of the shift register with the generator `X ^ w + val g`. -/
def shiftIn (g c : BitVec w) (b : Bool) : BitVec w :=
  if c.getLsbD (w - 1) ^^ b then (c <<< 1) ^^^ g else c <<< 1

/-- The register after a bit string. -/
def shiftAll (g c : BitVec w) (bits : List Bool) : BitVec w := bits.foldl (shiftIn g) c

/-- The generator of a CRC. -/
noncomputable def generator (g : BitVec w) : (ZMod 2)[X] := X ^ w + val g

/-! ### Bit strings -/

@[simp] theorem poly_nil : poly [] = 0 := rfl

theorem poly_concat (bits : List Bool) (b : Bool) :
    poly (bits ++ [b]) = poly bits * X + C (bit b) := by
  rw [poly, List.foldl_append]
  rfl

/-- What comes first has the higher powers. -/
theorem poly_append (as bs : List Bool) : poly (as ++ bs) = poly as * X ^ bs.length + poly bs := by
  induction bs using List.reverseRecOn with
  | nil => simp
  | append_singleton bs b ih =>
    rw [← List.append_assoc, poly_concat, poly_concat, ih, List.length_append,
      List.length_singleton, pow_succ]
    ring

theorem poly_cons (b : Bool) (bits : List Bool) :
    poly (b :: bits) = C (bit b) * X ^ bits.length + poly bits := by
  have h_one : poly [b] = C (bit b) := by simp [poly]
  rw [← List.singleton_append, poly_append, h_one]

/-- Errors add up. -/
theorem poly_zipWith_xor {as bs : List Bool} (h : as.length = bs.length) :
    poly (List.zipWith xor as bs) = poly as + poly bs := by
  induction as generalizing bs with
  | nil =>
    obtain rfl := List.length_eq_zero_iff.mp h.symm
    simp
  | cons a as ih =>
    cases bs with
    | nil => exact absurd h (by simp)
    | cons b bs =>
      have h_len : as.length = bs.length := Nat.succ.inj h
      rw [List.zipWith_cons_cons, poly_cons, poly_cons, poly_cons, ih h_len, List.length_zipWith,
        h_len, min_self, bit_xor, C_add]
      ring

theorem poly_map_reverse (f : ℕ → Bool) (n : ℕ) :
    poly ((List.range n).reverse.map f) = sumOf n f := by
  induction n with
  | zero => simp [sumOf]
  | succ n ih =>
    rw [List.range_succ, List.reverse_append, List.reverse_singleton, List.singleton_append,
      List.map_cons, poly_cons, ih, List.length_map, List.length_reverse, List.length_range, sumOf,
      sumOf, Finset.sum_range_succ, add_comm]

theorem poly_bitsOf (c : BitVec w) : poly (bitsOf c) = val c := poly_map_reverse c.getLsbD w

@[simp] theorem length_bitsOf (c : BitVec w) : (bitsOf c).length = w := by
  simp [bitsOf]

theorem degree_poly_lt (bits : List Bool) : (poly bits).degree < bits.length := by
  induction bits with
  | nil => simp
  | cons b bits ih =>
    have h_lead := degree_C_mul_X_pow_le bits.length (bit b)
    have h_lt : (bits.length : WithBot ℕ) < (b :: bits).length := by
      exact_mod_cast Nat.lt_succ_self _
    rw [poly_cons]
    exact lt_of_le_of_lt (degree_add_le _ _) (max_lt (lt_of_le_of_lt h_lead h_lt) (ih.trans h_lt))

theorem bitsOf_concat (c : BitVec w) (b : Bool) : bitsOf (c.concat b) = bitsOf c ++ [b] := by
  rw [bitsOf, List.range_succ_eq_map, List.reverse_cons, List.map_append, ← List.map_reverse,
    List.map_map, List.map_singleton, BitVec.getLsbD_concat_zero, bitsOf]
  congr 1
  refine List.map_congr_left fun i _ => ?_
  exact BitVec.getLsbD_concat_succ

/-! ### Registers -/

theorem sumOf_xor (n : ℕ) (f f' : ℕ → Bool) :
    sumOf n (fun i => f i ^^ f' i) = sumOf n f + sumOf n f' := by
  rw [sumOf, sumOf, sumOf, ← Finset.sum_add_distrib]
  refine Finset.sum_congr rfl fun i _ => ?_
  rw [bit_xor, C_add]
  ring

theorem sumOf_congr {n : ℕ} {f f' : ℕ → Bool} (h : ∀ i < n, f i = f' i) :
    sumOf n f = sumOf n f' :=
  Finset.sum_congr rfl fun i hi => by rw [h i (Finset.mem_range.mp hi)]

theorem coeff_sumOf {n i : ℕ} (f : ℕ → Bool) (hi : i < n) : (sumOf n f).coeff i = bit (f i) := by
  rw [sumOf, finsetSum_coeff]
  simp only [coeff_C_mul, coeff_X_pow, mul_ite, mul_one, mul_zero]
  rw [Finset.sum_ite_eq, if_pos (Finset.mem_range.mpr hi)]

theorem degree_sumOf_lt (n : ℕ) (f : ℕ → Bool) : (sumOf n f).degree < n := by
  refine lt_of_le_of_lt (degree_sum_le _ _) ?_
  rw [Finset.sup_lt_iff (by exact WithBot.bot_lt_coe n)]
  intro i hi
  refine lt_of_le_of_lt (degree_C_mul_X_pow_le i _) ?_
  exact_mod_cast Finset.mem_range.mp hi

theorem val_xor (a b : BitVec w) : val (a ^^^ b) = val a + val b := by
  rw [val, val, val, ← sumOf_xor]
  exact sumOf_congr fun i _ => BitVec.getLsbD_xor

theorem val_injective : Function.Injective (val (w := w)) := by
  intro a b h
  apply BitVec.eq_of_getLsbD_eq
  intro i hi
  apply bit_injective
  rw [← coeff_sumOf a.getLsbD hi, ← coeff_sumOf b.getLsbD hi]
  exact congrArg (coeff · i) h

/-- A bit behind a register. -/
theorem val_concat (c : BitVec w) (b : Bool) : val (c.concat b) = X * val c + C (bit b) := by
  rw [val, sumOf, Finset.sum_range_succ', val, sumOf, Finset.mul_sum]
  apply congrArg₂ (· + ·)
  · refine Finset.sum_congr rfl fun i _ => ?_
    rw [BitVec.getLsbD_concat_succ]
    ring
  · rw [BitVec.getLsbD_concat_zero, pow_zero, mul_one]

/-- A shift is a multiplication by `X`, but for the bit that leaves the register. -/
theorem X_mul_val (c : BitVec w) (hw : 0 < w) :
    X * val c = val (c <<< 1) + C (bit (c.getLsbD (w - 1))) * X ^ w := by
  obtain ⟨n, rfl⟩ : ∃ n, w = n + 1 := ⟨w - 1, by omega⟩
  have h_shift (i : ℕ) (hi : i < n) : (c <<< 1).getLsbD (i + 1) = c.getLsbD i := by
    rw [BitVec.getLsbD_shiftLeft, Nat.add_sub_cancel, decide_eq_true (by omega), Bool.true_and]
    cases c.getLsbD i <;> simp
  -- a zero comes in at the bottom
  have h_zero : (c <<< 1).getLsbD 0 = false := by simp
  -- the other bits go up by one
  have h_terms : ∑ i ∈ Finset.range n, C (bit ((c <<< 1).getLsbD (i + 1))) * X ^ (i + 1) =
      ∑ i ∈ Finset.range n, X * (C (bit (c.getLsbD i)) * X ^ i) := by
    refine Finset.sum_congr rfl fun i hi => ?_
    rw [h_shift i (Finset.mem_range.mp hi)]
    ring
  rw [val, val, sumOf, sumOf, Finset.sum_range_succ, Finset.sum_range_succ', h_zero, h_terms,
    Nat.add_sub_cancel, mul_add, Finset.mul_sum]
  have h_bit : C (bit false) = (0 : (ZMod 2)[X]) := C_0
  rw [h_bit]
  ring

theorem monic_generator (g : BitVec w) : (generator g).Monic :=
  monic_X_pow_add (degree_sumOf_lt w _)

theorem degree_generator (g : BitVec w) : (generator g).degree = w := by
  have h_val : (val g).degree < (X ^ w : (ZMod 2)[X]).degree := by
    rw [degree_X_pow]
    exact degree_sumOf_lt w _
  rw [generator, degree_add_eq_left_of_degree_lt h_val, degree_X_pow]

section Register

variable (g : BitVec w) (hw : 0 < w)

include hw

theorem val_shiftIn (c : BitVec w) (b : Bool) :
    generator g ∣ X * val c + C (bit b) * X ^ w - val (shiftIn g c b) := by
  have h_shift := X_mul_val c hw
  unfold shiftIn
  cases h_top : c.getLsbD (w - 1) ^^ b with
  | true =>
    -- the bit that leaves the register and the new one differ
    have h_bits : bit (c.getLsbD (w - 1)) + bit b = 1 := by rw [← bit_xor, h_top]; rfl
    have h_C : C (bit (c.getLsbD (w - 1))) + C (bit b) = (1 : (ZMod 2)[X]) := by
      rw [← C_add, h_bits, C_1]
    rw [if_pos rfl, val_xor, h_shift]
    refine ⟨1, ?_⟩
    have h_two : (2 : (ZMod 2)[X]) = 0 := CharTwo.two_eq_zero
    unfold generator
    linear_combination X ^ w * h_C - val g * h_two
  | false =>
    have h_bits : bit (c.getLsbD (w - 1)) + bit b = 0 := by rw [← bit_xor, h_top]; rfl
    have h_C : C (bit (c.getLsbD (w - 1))) + C (bit b) = (0 : (ZMod 2)[X]) := by
      rw [← C_add, h_bits, C_0]
    rw [if_neg (by simp), h_shift]
    refine ⟨0, ?_⟩
    linear_combination X ^ w * h_C

/-- **The register is the remainder.** -/
theorem dvd_shiftAll (c : BitVec w) (bits : List Bool) :
    generator g ∣ val c * X ^ bits.length + poly bits * X ^ w - val (shiftAll g c bits) := by
  induction bits using List.reverseRecOn with
  | nil => simp [shiftAll]
  | append_singleton bits b ih =>
    -- a shift multiplies by `X`, and takes the generator off if a bit falls out
    have h_step := val_shiftIn g hw (shiftAll g c bits) b
    have h_next : shiftAll g c (bits ++ [b]) = shiftIn g (shiftAll g c bits) b := by
      simp [shiftAll]
    have h_sum := dvd_add (ih.mul_left X) h_step
    rw [h_next, poly_concat, List.length_append, List.length_singleton, pow_succ]
    convert h_sum using 1
    ring

omit hw in
/-- Two registers that are congruent are equal. -/
theorem eq_of_dvd {a b : BitVec w} (h : generator g ∣ val a - val b) : a = b := by
  apply val_injective
  by_contra h_ne
  -- the difference has a smaller degree than the generator
  have h_degree : (val a - val b).degree < (generator g).degree := by
    rw [degree_generator]
    exact lt_of_le_of_lt (degree_sub_le _ _) (max_lt (degree_sumOf_lt w _) (degree_sumOf_lt w _))
  exact (monic_generator g).not_dvd_of_degree_lt (sub_ne_zero.mpr h_ne) h_degree h

theorem shiftAll_eq_of_dvd {c d : BitVec w} {bits : List Bool}
    (h : generator g ∣ val c * X ^ bits.length + poly bits * X ^ w - val d) :
    shiftAll g c bits = d := by
  apply eq_of_dvd g
  have h_diff := dvd_sub h (dvd_shiftAll g hw c bits)
  convert h_diff using 1
  ring

/-- **Codewords** are multiples of the generator. -/
theorem dvd_codeword (bits : List Bool) :
    generator g ∣ poly (bits ++ bitsOf (shiftAll g 0 bits)) := by
  have h_all := dvd_shiftAll g hw 0 bits
  have h_zero : val (0 : BitVec w) = 0 := by simp [val, sumOf, bit]
  rw [h_zero, zero_mul, zero_add] at h_all
  rw [poly_append, poly_bitsOf, length_bitsOf]
  -- a sum is a difference
  rwa [CharTwo.sub_eq_add] at h_all

end Register

/-! ### Errors -/

theorem poly_eq_zero {e : List Bool} (h : e.count true = 0) : poly e = 0 := by
  induction e with
  | nil => rfl
  | cons b e ih =>
    cases b with
    | true => exact absurd h (by simp)
    | false =>
      rw [poly_cons, ih (by simpa using h)]
      simp [bit]

theorem poly_eq_pow {e : List Bool} (h : e.count true = 1) : ∃ i < e.length, poly e = X ^ i := by
  induction e with
  | nil => exact absurd h (by simp)
  | cons b e ih =>
    cases b with
    | true =>
      -- the wrong bit is at the head
      have h_rest : e.count true = 0 := by simpa using h
      refine ⟨e.length, Nat.lt_succ_self _, ?_⟩
      rw [poly_cons, poly_eq_zero h_rest]
      simp [bit]
    | false =>
      obtain ⟨i, hi, h_poly⟩ := ih (by simpa using h)
      refine ⟨i, Nat.lt_succ_of_lt hi, ?_⟩
      rw [poly_cons, h_poly]
      simp [bit]

theorem poly_eq_pow_mul {e : List Bool} (h : e.count true = 2) :
    ∃ i d, 1 ≤ d ∧ d < e.length ∧ poly e = X ^ i * (X ^ d + 1) := by
  induction e with
  | nil => exact absurd h (by simp)
  | cons b e ih =>
    cases b with
    | true =>
      -- the first wrong bit is at the head, the second one in the rest
      obtain ⟨i, hi, h_poly⟩ := poly_eq_pow (e := e) (by simpa using h)
      refine ⟨i, e.length - i, by omega, by simp, ?_⟩
      rw [poly_cons, h_poly, mul_add, ← pow_add, Nat.add_sub_cancel' hi.le]
      simp [bit]
    | false =>
      obtain ⟨i, d, h_pos, h_lt, h_poly⟩ := ih (by simpa using h)
      refine ⟨i, d, h_pos, Nat.lt_succ_of_lt h_lt, ?_⟩
      rw [poly_cons, h_poly]
      simp [bit]

theorem poly_ne_zero {e : List Bool} (h : true ∈ e) : poly e ≠ 0 := by
  induction e with
  | nil => exact absurd h (by simp)
  | cons b e ih =>
    rw [poly_cons]
    cases b with
    | true =>
      have h_monic : (X ^ e.length + poly e).Monic := monic_X_pow_add (degree_poly_lt e)
      simpa [bit] using h_monic.ne_zero
    | false => simpa [bit] using ih (by simpa using h)

section Errors

variable {g : BitVec w} (hw : 0 < w) (hg : g.getLsbD 0 = true)

include hw

theorem val_one : val (1 : BitVec w) = 1 := by
  obtain ⟨n, rfl⟩ : ∃ n, w = n + 1 := ⟨w - 1, by omega⟩
  rw [val, sumOf, Finset.sum_range_succ']
  simp [bit]

include hg

theorem isCoprime_pow (i : ℕ) : IsCoprime (generator g) (X ^ i) := by
  have h_coeff : (generator g).coeff 0 = 1 := by
    rw [generator, coeff_add, val, coeff_sumOf _ hw, hg, coeff_X_pow, if_neg (by omega), zero_add]
    rfl
  -- the generator has the constant term 1
  have h_dvd : X ∣ generator g - 1 := by
    rw [X_dvd_iff, coeff_sub, h_coeff, coeff_one_zero, sub_self]
  obtain ⟨q, hq⟩ := h_dvd
  refine IsCoprime.pow_right ⟨1, -q, ?_⟩
  linear_combination hq

/-- **One or two wrong bits** are noticed, in a code word that is not longer than the order of
`X` modulo the generator. -/
theorem not_dvd_of_errors {n : ℕ}
    (h_order : ∀ d, 1 ≤ d → d < n → shiftAll g 1 (List.replicate d false) ≠ 1) {e : List Bool}
    (h_length : e.length ≤ n) (h_pos : 1 ≤ e.count true) (h_le : e.count true ≤ 2) :
    ¬generator g ∣ poly e := by
  intro h_dvd
  obtain h_one | h_two : e.count true = 1 ∨ e.count true = 2 := by omega
  · obtain ⟨i, -, h_poly⟩ := poly_eq_pow h_one
    rw [h_poly, ← mul_one (X ^ i)] at h_dvd
    -- a single bit would have the generator divide 1
    have h_unit := (isCoprime_pow hw hg i).dvd_of_dvd_mul_left h_dvd
    refine (monic_generator g).not_dvd_of_degree_lt one_ne_zero ?_ h_unit
    rw [degree_generator, degree_one]
    exact_mod_cast hw
  · obtain ⟨i, d, h_d, h_lt, h_poly⟩ := poly_eq_pow_mul h_two
    rw [h_poly] at h_dvd
    have h_pair := (isCoprime_pow hw hg i).dvd_of_dvd_mul_left h_dvd
    -- then `d` shifts lead from 1 back to 1
    refine h_order d h_d (by omega) (shiftAll_eq_of_dvd g hw ?_)
    have h_zero : poly (List.replicate d false) = 0 := poly_eq_zero (by simp [List.count_replicate])
    rw [List.length_replicate, h_zero, val_one hw, zero_mul, add_zero, one_mul,
      CharTwo.sub_eq_add]
    exact h_pair

/-- **Bursts** that are not longer than the CRC are noticed. -/
theorem not_dvd_of_burst {i k : ℕ} {b : List Bool} (h_length : b.length ≤ w) (h_wrong : true ∈ b) :
    ¬generator g ∣ poly (List.replicate i false ++ b ++ List.replicate k false) := by
  intro h_dvd
  have h_zero (n : ℕ) : poly (List.replicate n false) = 0 :=
    poly_eq_zero (by simp [List.count_replicate])
  rw [poly_append, poly_append, h_zero, h_zero, zero_mul, zero_add, add_zero,
    List.length_replicate, mul_comm] at h_dvd
  -- what is left has a smaller degree than the generator
  have h_burst := (isCoprime_pow hw hg k).dvd_of_dvd_mul_left h_dvd
  refine (monic_generator g).not_dvd_of_degree_lt (poly_ne_zero h_wrong) ?_ h_burst
  rw [degree_generator]
  exact lt_of_lt_of_le (degree_poly_lt b) (by exact_mod_cast h_length)

end Errors

end Crc

end Laureline
