import Mathlib.Data.Nat.Digits.Lemmas
import Mathlib.Tactic.Ring

/-!
# Numbers as text

`digitsBe b n` are the digits of a number to the base `b`, as they are written: the most
significant first, and a single 0 for zero. `value b` reads them back, and `valueMod b m` does
so in an integer type that holds residues modulo `m`.

* `value_digitsBe` — reading what was written;
* `valueMod_eq` — in a narrow type the residue is read;
* `length_digitsBe_le` — how long the text is.
-/

namespace Laureline

namespace Digits

/-- The digits of a number, most significant first. -/
def digitsBe (b n : ℕ) : List ℕ := if n = 0 then [0] else (Nat.digits b n).reverse

/-- The digits read on from a number. -/
def value (b a : ℕ) (ds : List ℕ) : ℕ := ds.foldl (fun a d => a * b + d) a

/-- The same, with a reduction after every digit. -/
def valueMod (b m a : ℕ) (ds : List ℕ) : ℕ := ds.foldl (fun a d => (a * b + d) % m) a

theorem value_append (b a : ℕ) (ds es : List ℕ) :
    value b a (ds ++ es) = value b (value b a ds) es := List.foldl_append

/-- Digits read from the other end. -/
theorem value_reverse (b : ℕ) (ds : List ℕ) : value b 0 ds.reverse = Nat.ofDigits b ds := by
  induction ds with
  | nil => rfl
  | cons d ds ih =>
    rw [List.reverse_cons, value_append, ih, Nat.ofDigits_cons]
    show Nat.ofDigits b ds * b + d = _
    ring

/-- **Reading what was written.** -/
theorem value_digitsBe (b n : ℕ) : value b 0 (digitsBe b n) = n := by
  unfold digitsBe
  split
  · next h => rw [h]; exact Nat.zero_mul b
  · rw [value_reverse, Nat.ofDigits_digits]

/-- In a narrow type the residue is read. -/
theorem valueMod_eq (b m a : ℕ) (ds : List ℕ) : valueMod b m (a % m) ds = value b a ds % m := by
  induction ds generalizing a with
  | nil => rfl
  | cons d ds ih =>
    show valueMod b m ((a % m * b + d) % m) ds = value b (a * b + d) ds % m
    rw [← ih]
    congr 1
    rw [Nat.add_mod, Nat.mod_mul_mod, ← Nat.add_mod]

/-- A number that fits into the type. -/
theorem valueMod_digitsBe {b m n : ℕ} (h : n < m) : valueMod b m 0 (digitsBe b n) = n := by
  have h_zero : 0 % m = 0 := Nat.zero_mod m
  rw [← h_zero, valueMod_eq, value_digitsBe, Nat.mod_eq_of_lt h]

theorem lt_of_mem_digitsBe {b n d : ℕ} (hb : 1 < b) (h : d ∈ digitsBe b n) : d < b := by
  unfold digitsBe at h
  split at h
  · rw [List.mem_singleton.mp h]; omega
  · exact Nat.digits_lt_base hb (List.mem_reverse.mp h)

/-- The length of the text. -/
theorem length_digitsBe_le {b n k : ℕ} (hb : 1 < b) (hk : 0 < k) (h : n < b ^ k) :
    (digitsBe b n).length ≤ k := by
  unfold digitsBe
  split
  · exact hk
  · rw [List.length_reverse]
    exact (Nat.digits_length_le_iff hb n).mpr h

/-- Two digits. -/
theorem digitsBe_two {b n : ℕ} (h : b ≤ n) (h' : n < b * b) : digitsBe b n = [n / b, n % b] := by
  have hb : 1 < b := by
    by_contra h_small
    interval_cases b <;> omega
  have h_quotient : n / b < b := Nat.div_lt_of_lt_mul h'
  have h_pos : 0 < n / b := Nat.div_pos h (by omega)
  rw [digitsBe, if_neg (by omega), Nat.digits_def' hb (by omega),
    Nat.digits_of_lt b _ h_pos.ne' h_quotient]
  rfl

theorem digitsBe_one {b n : ℕ} (h : n < b) : digitsBe b n = [n] := by
  unfold digitsBe
  split
  · next h_zero => rw [h_zero]
  · next h_ne => rw [Nat.digits_of_lt b n h_ne h]; rfl

end Digits

end Laureline
