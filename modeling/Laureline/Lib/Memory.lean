import Mathlib.Tactic.Common
import Mathlib.Logic.Function.Basic
import Mathlib.Order.Basic

/-!
# Memories

A memory is a function from addresses, and addresses are taken modulo `N`.
`Memory.write N m a xs` stores `xs` one after the other from `a` on, and
`Memory.overlay N m ws` does several such writes, the later ones over the earlier.

* `write_append`, `write_mod` — a write in parts, and at an address that has wrapped;
* `write_of_fits`, `write_of_disjoint` — reading what was written, and beside it.
-/

namespace Laureline

namespace Memory

variable {α : Type*} {N : ℕ}

/-- The elements stored one after the other from the address `a` on. -/
def write (N : ℕ) (m : ℕ → α) (a : ℕ) : List α → ℕ → α
  | [] => m
  | x :: xs => write N (Function.update m (a % N) x) (a + 1) xs

/-- Several writes, one after the other. -/
def overlay (N : ℕ) (m : ℕ → α) (ws : List (ℕ × List α)) : ℕ → α :=
  ws.foldl (fun m w => write N m w.1 w.2) m

@[simp] theorem overlay_nil (m : ℕ → α) : overlay N m [] = m := rfl

@[simp] theorem overlay_cons (m : ℕ → α) (w : ℕ × List α) (ws : List (ℕ × List α)) :
    overlay N m (w :: ws) = overlay N (write N m w.1 w.2) ws := rfl

theorem write_append (m : ℕ → α) (a : ℕ) (xs ys : List α) :
    write N m a (xs ++ ys) = write N (write N m a xs) (a + xs.length) ys := by
  induction xs generalizing m a with
  | nil => rfl
  | cons x xs ih =>
    show write N (Function.update m (a % N) x) (a + 1) (xs ++ ys) = _
    rw [ih, List.length_cons, show a + 1 + xs.length = a + (xs.length + 1) by omega]
    rfl

/-- Only the residue of the address matters. -/
theorem write_congr {a b : ℕ} (h : a % N = b % N) (m : ℕ → α) (xs : List α) :
    write N m a xs = write N m b xs := by
  induction xs generalizing m a b with
  | nil => rfl
  | cons x xs ih =>
    have h_succ : (a + 1) % N = (b + 1) % N := by rw [Nat.add_mod, h, ← Nat.add_mod]
    show write N (Function.update m (a % N) x) (a + 1) xs = _
    rw [ih h_succ, h]
    rfl

theorem write_mod (m : ℕ → α) (a : ℕ) (xs : List α) : write N m (a % N) xs = write N m a xs :=
  write_congr (Nat.mod_mod a N) m xs

/-- An address beside the ones written. -/
theorem write_of_disjoint {m : ℕ → α} {a b : ℕ} {xs : List α} (h_fits : a + xs.length ≤ N)
    (h : b < a ∨ a + xs.length ≤ b) : write N m a xs b = m b := by
  induction xs generalizing m a with
  | nil => rfl
  | cons x xs ih =>
    rw [List.length_cons] at h_fits h
    show write N (Function.update m (a % N) x) (a + 1) xs b = _
    rw [ih (by omega) (by omega), Nat.mod_eq_of_lt (by omega)]
    exact Function.update_of_ne (by omega) _ _

/-- An address that was written. -/
theorem write_of_fits {m : ℕ → α} {a i : ℕ} {xs : List α} (h_fits : a + xs.length ≤ N)
    (hi : i < xs.length) : write N m a xs (a + i) = xs[i] := by
  induction xs generalizing m a i with
  | nil => exact absurd hi (Nat.not_lt_zero i)
  | cons x xs ih =>
    rw [List.length_cons] at h_fits hi
    show write N (Function.update m (a % N) x) (a + 1) xs (a + i) = _
    cases i with
    | zero =>
      rw [write_of_disjoint (by omega) (by omega), Nat.mod_eq_of_lt (by omega)]
      exact Function.update_self _ _ _
    | succ i =>
      rw [show a + (i + 1) = a + 1 + i by omega, ih (by omega) (Nat.lt_of_succ_lt_succ hi)]
      rfl

end Memory

end Laureline
