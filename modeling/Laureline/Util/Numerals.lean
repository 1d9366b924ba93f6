import Laureline.Lib.Digits
import Laureline.Util.Parse

/-!
# Numerals

What `parse.c` reads, said by the characters: decimal texts and hexadecimal digits.
-/

namespace Laureline

open Digits

/-- The text is a decimal numeral of `n`. -/
def IsDecimal (s : List UInt8) (n : ℕ) : Prop :=
  (∀ c ∈ s, isDigit c = true) ∧ value 10 0 (s.map fun c => (c - 0x30).toNat) = n

instance (s : List UInt8) (n : ℕ) : Decidable (IsDecimal s n) :=
  have : Decidable (∀ c ∈ s, isDigit c = true) := List.decidableBAll _ s
  inferInstanceAs (Decidable (_ ∧ _))

/-- The text is a decimal numeral of two digits. -/
def IsTwoDigits (s : List UInt8) (n : ℕ) : Prop := s.length = 2 ∧ IsDecimal s n

instance (s : List UInt8) (n : ℕ) : Decidable (IsTwoDigits s n) :=
  inferInstanceAs (Decidable (_ ∧ _))

/-- The character is a hexadecimal digit of the value `v`, in upper or lower case. -/
def IsHexDigit (c : UInt8) (v : ℕ) : Prop :=
  v < 10 ∧ c = UInt8.ofNat (0x30 + v) ∨
    10 ≤ v ∧ v < 16 ∧ (c = UInt8.ofNat (0x41 + (v - 10)) ∨ c = UInt8.ofNat (0x61 + (v - 10)))

instance (c : UInt8) (v : ℕ) : Decidable (IsHexDigit c v) :=
  inferInstanceAs (Decidable (_ ∨ _))

/-! ### Decimal numerals -/

/-- Digits are read on, in a type of 32 bits. -/
theorem atoiDecimalFrom_eq {s : List UInt8} (h : ∀ c ∈ s, isDigit c = true) (ret : ℕ) :
    atoiDecimalFrom ret s = valueMod 10 (2 ^ 32) ret (s.map fun c => (c - 0x30).toNat) := by
  induction s generalizing ret with
  | nil => rfl
  | cons c s ih =>
    have h_c := h c List.mem_cons_self
    have h_dot : c ≠ 0x2E := by
      rintro rfl
      exact absurd h_c (by decide)
    rw [atoiDecimalFrom, if_neg h_dot, if_neg (by simp [h_c]),
      ih fun c hc => h c (List.mem_cons_of_mem _ hc)]
    rfl

theorem IsDecimal.atoi {s : List UInt8} {n : ℕ} (h : IsDecimal s n) (h_lt : n < 2 ^ 32) :
    atoiDecimal s = n := by
  have h_zero : 0 % 2 ^ 32 = 0 := Nat.zero_mod _
  rw [atoiDecimal, atoiDecimalFrom_eq h.1, ← h_zero, valueMod_eq, h.2, Nat.mod_eq_of_lt h_lt]

theorem IsTwoDigits.atoi {s : List UInt8} {n : ℕ} (h : IsTwoDigits s n) (rest : List UInt8) :
    atoi2dig (s ++ rest) = n := by
  obtain ⟨h_length, h_digits, h_value⟩ := h
  obtain ⟨c, d, rfl⟩ := List.length_eq_two.mp h_length
  have h_c := h_digits c (by simp)
  have h_d := h_digits d (by simp)
  rw [← h_value, List.cons_append, List.cons_append, List.nil_append, atoi2dig, if_pos ⟨h_c, h_d⟩]
  simp only [value, List.map_cons, List.map_nil, List.foldl_cons, List.foldl_nil, Nat.zero_mul]
  omega

theorem IsTwoDigits.length_append {s : List UInt8} {n : ℕ} (h : IsTwoDigits s n)
    (rest : List UInt8) : (s ++ rest).length = rest.length + 2 := by
  rw [List.length_append, h.1, Nat.add_comm]

theorem IsTwoDigits.drop_append {s : List UInt8} {n : ℕ} (h : IsTwoDigits s n)
    (rest : List UInt8) : (s ++ rest).drop 2 = rest := by
  rw [← h.1, List.drop_left]

/-! ### Hexadecimal digits -/

theorem IsHexDigit.parse {c : UInt8} {v : ℕ} (h : IsHexDigit c v) : parseHex c = UInt8.ofNat v := by
  obtain ⟨h_v, rfl⟩ | ⟨h_v, h_v', rfl | rfl⟩ := h <;> interval_cases v <;> decide

theorem IsHexDigit.lt {c : UInt8} {v : ℕ} (h : IsHexDigit c v) : v < 16 := by
  obtain ⟨h_v, -⟩ | ⟨-, h_v, -⟩ := h <;> omega

theorem IsHexDigit.ne_dollar {c : UInt8} {v : ℕ} (h : IsHexDigit c v) : c ≠ 0x24 := by
  obtain ⟨h_v, rfl⟩ | ⟨h_v, h_v', rfl | rfl⟩ := h <;> interval_cases v <;> decide

/-- Two digits of `parse_hex` side by side. -/
theorem shiftLeft_xor : ∀ hi < 16, ∀ lo < 16,
    (UInt8.ofNat hi <<< 4) ^^^ UInt8.ofNat lo = UInt8.ofNat (16 * hi + lo) := by decide +kernel

/-- Folding the two digits of its value into a checksum clears it. -/
theorem IsHexDigit.fold {k c d : UInt8} {hi lo : ℕ} (h_c : IsHexDigit c hi)
    (h_d : IsHexDigit d lo) :
    k ^^^ (parseHex c <<< 4) ^^^ parseHex d = 0 ↔ k.toNat = 16 * hi + lo := by
  have h_hi := h_c.lt
  have h_lo := h_d.lt
  rw [h_c.parse, h_d.parse, UInt8.xor_assoc, shiftLeft_xor hi h_hi lo h_lo, UInt8.xor_eq_zero_iff,
    ← UInt8.toNat_inj, UInt8.toNat_ofNat_of_lt' (by simp [UInt8.size]; omega)]

end Laureline
