import Laureline.Lib.Bytes

/-!
# Functions that work on blocks

A function `f` takes a state and a block of `B` elements to a state. `blocks` runs it over the
first blocks of a list, `absorb` over all the whole ones, and `rest` is what is left behind them.
What is left can be put in front of what comes later: `absorb_append`, `rest_append`.
-/

namespace Laureline

namespace BlockHash

open Bytes

variable {S α : Type*}

/-- The state after the first blocks of a list. -/
def blocks (f : S → List α → S) (B : ℕ) (h : S) (xs : List α) : ℕ → S
  | 0 => h
  | n + 1 => f (blocks f B h xs n) (slice (B * n) B xs)

/-- The state after all the whole blocks. -/
def absorb (f : S → List α → S) (B : ℕ) (h : S) (xs : List α) : S :=
  blocks f B h xs (xs.length / B)

/-- The elements behind the whole blocks. -/
def rest (B : ℕ) (xs : List α) : List α := xs.drop (B * (xs.length / B))

variable {f : S → List α → S} {B : ℕ} {h : S} {xs ys : List α}

theorem length_rest (B : ℕ) (xs : List α) : (rest B xs).length = xs.length % B := by
  rw [rest, List.length_drop]
  have h_div := Nat.div_add_mod xs.length B
  omega

/-- What comes behind the blocks does not matter. -/
theorem blocks_append_of_le {n : ℕ} (hn : B * n ≤ xs.length) :
    blocks f B h (xs ++ ys) n = blocks f B h xs n := by
  induction n with
  | zero => rfl
  | succ n ih =>
    rw [Nat.mul_succ] at hn
    have h_slice : slice (B * n) B (xs ++ ys) = slice (B * n) B xs := by
      rw [slice, slice, List.drop_append_of_le_length (by omega),
        List.take_append_of_le_length (by rw [List.length_drop]; omega)]
    rw [blocks, blocks, ih (by omega), h_slice]

theorem blocks_append {m : ℕ} (hm : xs.length = B * m) (n : ℕ) :
    blocks f B h (xs ++ ys) (m + n) = blocks f B (blocks f B h xs m) ys n := by
  induction n with
  | zero => exact blocks_append_of_le hm.ge
  | succ n ih =>
    have h_slice : slice (B * (m + n)) B (xs ++ ys) = slice (B * n) B ys := by
      rw [slice, slice, Nat.mul_add, ← hm, List.drop_length_add_append]
    rw [← Nat.add_assoc, blocks, blocks, ih, h_slice]

/-- The first block in front of the others. -/
theorem blocks_succ (hx : B ≤ xs.length) (n : ℕ) :
    blocks f B h xs (n + 1) = blocks f B (f h (xs.take B)) (xs.drop B) n := by
  have h_take : (xs.take B).length = B := List.length_take_of_le hx
  -- one block and the rest, put together again
  have h_append : blocks f B h (xs.take B ++ xs.drop B) (1 + n) =
      blocks f B (blocks f B h (xs.take B) 1) (xs.drop B) n :=
    blocks_append (h_take.trans (Nat.mul_one B).symm) n
  rw [List.take_append_drop, Nat.add_comm] at h_append
  rw [h_append, blocks, blocks, slice, Nat.mul_zero, List.drop_zero,
    List.take_of_length_le h_take.le]

/-- **Whole blocks in front** are absorbed first. -/
theorem absorb_append_of_dvd {m : ℕ} (hB : 0 < B) (hm : xs.length = B * m) :
    absorb f B h (xs ++ ys) = absorb f B (blocks f B h xs m) ys := by
  unfold absorb
  rw [List.length_append, hm, Nat.mul_add_div hB, blocks_append hm]

theorem rest_append_of_dvd {m : ℕ} (hB : 0 < B) (hm : xs.length = B * m) :
    rest B (xs ++ ys) = rest B ys := by
  unfold rest
  rw [List.length_append, hm, Nat.mul_add_div hB, Nat.mul_add, ← hm, List.drop_length_add_append]

theorem take_append_rest (B : ℕ) (xs : List α) : xs.take (B * (xs.length / B)) ++ rest B xs = xs :=
  List.take_append_drop ..

theorem length_take_blocks (B : ℕ) (xs : List α) :
    (xs.take (B * (xs.length / B))).length = B * (xs.length / B) :=
  List.length_take_of_le (Nat.mul_div_le xs.length B)

/-- **What is left is put in front of what comes later.** -/
theorem absorb_append (hB : 0 < B) (h : S) (xs ys : List α) :
    absorb f B h (xs ++ ys) = absorb f B (absorb f B h xs) (rest B xs ++ ys) := by
  have h_take := length_take_blocks B xs
  -- the whole blocks of `xs` are absorbed without its rest
  have h_blocks : blocks f B h (xs.take (B * (xs.length / B)) ++ rest B xs) (xs.length / B) =
      blocks f B h (xs.take (B * (xs.length / B))) (xs.length / B) :=
    blocks_append_of_le h_take.ge
  rw [take_append_rest] at h_blocks
  have h_absorb : absorb f B h xs =
      blocks f B h (xs.take (B * (xs.length / B))) (xs.length / B) := h_blocks
  rw [h_absorb, ← absorb_append_of_dvd hB h_take, ← List.append_assoc, take_append_rest]

theorem rest_append (hB : 0 < B) (xs ys : List α) :
    rest B (xs ++ ys) = rest B (rest B xs ++ ys) := by
  conv_lhs => rw [← take_append_rest B xs, List.append_assoc,
    rest_append_of_dvd hB (length_take_blocks B xs)]

theorem absorb_of_lt (hx : xs.length < B) : absorb f B h xs = h := by
  rw [absorb, Nat.div_eq_of_lt hx, blocks]

theorem rest_of_lt (hx : xs.length < B) : rest B xs = xs := by
  rw [rest, Nat.div_eq_of_lt hx, Nat.mul_zero, List.drop_zero]

end BlockHash

end Laureline
