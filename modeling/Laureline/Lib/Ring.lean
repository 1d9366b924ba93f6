import Mathlib.Data.Fin.Basic
import Mathlib.Data.Nat.ModEq
import Mathlib.Tactic.Common

/-!
# Positions in a ring

A ring of `n` slots is filled and emptied in order. Counting every entry that was ever
made, entry `i` lies in the slot `slot n i`. At most `n` consecutive entries are present
at a time, and these lie in different slots: `slot_inj_of_window`.
-/

namespace Laureline

namespace RingSlot

variable {n : ℕ} [NeZero n]

/-- The slot of the entry number `i`. -/
def slot (n : ℕ) [NeZero n] (i : ℕ) : Fin n := Fin.ofNat n i

theorem slot_succ (i : ℕ) : slot n (i + 1) = slot n i + 1 := by
  apply Fin.ext
  show (i + 1) % n = (i % n + 1 % n) % n
  exact Nat.add_mod i 1 n

theorem slot_eq_iff {i j : ℕ} : slot n i = slot n j ↔ i % n = j % n := Fin.ext_iff

/-- One round further is the same slot. -/
theorem slot_add_self (i : ℕ) : slot n (i + n) = slot n i := by
  rw [slot_eq_iff, Nat.add_mod_right]

private theorem eq_of_window_of_le {i j : ℕ} (h_le : i ≤ j) (h_lt : j < i + n)
    (h : slot n i = slot n j) : i = j := by
  rw [slot_eq_iff] at h
  have h_dvd : n ∣ j - i := (Nat.modEq_iff_dvd' h_le).mp h
  have h_zero := Nat.eq_zero_of_dvd_of_lt h_dvd (by omega)
  omega

/-- **Entries of one window lie in different slots.** -/
theorem slot_inj_of_window {k i j : ℕ} (hi : k ≤ i) (hi' : i < k + n) (hj : k ≤ j)
    (hj' : j < k + n) (h : slot n i = slot n j) : i = j := by
  rcases Nat.le_total i j with h_le | h_le
  · exact eq_of_window_of_le h_le (by omega) h
  · exact (eq_of_window_of_le h_le (by omega) h.symm).symm

end RingSlot

end Laureline
