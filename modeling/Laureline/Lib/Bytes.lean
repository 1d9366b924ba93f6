import Mathlib.Tactic.Common
import Mathlib.Data.List.Induction
import Mathlib.Tactic.Ring

/-!
# Buffers that are read and written in place

A buffer is a list; `slice off n l` are its `n` elements from the offset `off` on, and
`store l off xs` writes `xs` over it from there. A write changes no length
(`length_store`) and is lost where it leaves the buffer. Reading back what was written is
`slice_store_self`, and `slice_store_of_disjoint` reads beside it.

`be32` and `ofBe` are the big-endian byte order: `ofBe_be32`, `ofBe_append`. `le` and `ofLe`
are the little-endian one: `le_ofLe`, and `ofBe_eq` for the way from one to the other.
-/

namespace Laureline

namespace Bytes

variable {α : Type*}

/-- The `n` elements from the offset `off` on. -/
def slice (off n : ℕ) (l : List α) : List α := (l.drop off).take n

/-- The elements stored one after the other from the offset `off` on. -/
def store (l : List α) (off : ℕ) : List α → List α
  | [] => l
  | x :: xs => store (l.set off x) (off + 1) xs

/-! ### Reading and writing -/

@[simp] theorem length_store (l : List α) (off : ℕ) (xs : List α) :
    (store l off xs).length = l.length := by
  induction xs generalizing l off with
  | nil => rfl
  | cons x xs ih =>
    show (store (l.set off x) (off + 1) xs).length = _
    rw [ih, List.length_set]

/-- Two lists stored one behind the other. -/
theorem store_append (l : List α) (off : ℕ) (xs ys : List α) :
    store l off (xs ++ ys) = store (store l off xs) (off + xs.length) ys := by
  induction xs generalizing l off with
  | nil => rfl
  | cons x xs ih =>
    rw [List.length_cons, Nat.add_comm xs.length 1, ← Nat.add_assoc]
    exact ih (l.set off x) (off + 1)

theorem length_slice (off n : ℕ) (l : List α) :
    (slice off n l).length = min n (l.length - off) := by
  rw [slice, List.length_take, List.length_drop]

theorem getElem?_slice (off n : ℕ) (l : List α) (i : ℕ) :
    (slice off n l)[i]? = if i < n then l[off + i]? else none := by
  rw [slice, List.getElem?_take, List.getElem?_drop]

/-- An element before or after the ones written is unchanged. -/
theorem getElem?_store_of_disjoint {l : List α} {off i : ℕ} {xs : List α}
    (h : i < off ∨ off + xs.length ≤ i) : (store l off xs)[i]? = l[i]? := by
  induction xs generalizing l off with
  | nil => rfl
  | cons x xs ih =>
    rw [List.length_cons] at h
    show (store (l.set off x) (off + 1) xs)[i]? = _
    rw [ih (by omega), List.getElem?_set_ne (by omega)]

/-- An element that was written within the buffer is read back. -/
theorem getElem?_store_self {l : List α} {off i : ℕ} {xs : List α} (hi : i < xs.length)
    (h : off + i < l.length) : (store l off xs)[off + i]? = xs[i]? := by
  induction xs generalizing l off i with
  | nil => exact absurd hi (Nat.not_lt_zero i)
  | cons x xs ih =>
    show (store (l.set off x) (off + 1) xs)[off + i]? = _
    cases i with
    | zero =>
      -- the stores that follow are behind the first element
      rw [getElem?_store_of_disjoint (by omega), Nat.add_zero, List.getElem?_set_self (by omega)]
      rfl
    | succ i =>
      rw [List.length_cons] at hi
      rw [show off + (i + 1) = off + 1 + i by omega,
        ih (by omega) (by rw [List.length_set]; omega), List.getElem?_cons_succ]

/-- **What is stored is read back.** -/
theorem slice_store_self {l : List α} {off n : ℕ} {xs : List α} (hn : xs.length = n)
    (h : off + n ≤ l.length) : slice off n (store l off xs) = xs := by
  apply List.ext_getElem?
  intro i
  rw [getElem?_slice]
  by_cases hi : i < n
  · rw [if_pos hi, getElem?_store_self (by omega) (by omega)]
  · rw [if_neg hi, List.getElem?_eq_none (by omega)]

/-- **Stores beside a slice do not change it.** -/
theorem slice_store_of_disjoint {l : List α} {o n off : ℕ} {xs : List α}
    (h : o + n ≤ off ∨ off + xs.length ≤ o) : slice o n (store l off xs) = slice o n l := by
  apply List.ext_getElem?
  intro i
  rw [getElem?_slice, getElem?_slice]
  by_cases hi : i < n
  · rw [if_pos hi, if_pos hi, getElem?_store_of_disjoint (by omega)]
  · rw [if_neg hi, if_neg hi]

theorem slice_append_slice (off m n : ℕ) (l : List α) :
    slice off m l ++ slice (off + m) n l = slice off (m + n) l := by
  rw [slice, slice, slice, ← List.drop_drop, List.take_add]

theorem slice_take {off n k : ℕ} (h : off + n ≤ k) (l : List α) :
    slice off n (l.take k) = slice off n l := by
  rw [slice, slice, List.drop_take, List.take_take]
  congr 1
  omega

/-! ### Big-endian numbers -/

/-- The low 32 bits of a number, most significant byte first. -/
def be32 (x : ℕ) : List UInt8 :=
  [UInt8.ofNat (x / 2 ^ 24), UInt8.ofNat (x / 2 ^ 16), UInt8.ofNat (x / 2 ^ 8), UInt8.ofNat x]

/-- The number whose bytes are given, most significant byte first. -/
def ofBe (bs : List UInt8) : ℕ := bs.foldl (fun n b => n * 256 + b.toNat) 0

@[simp] theorem length_be32 (x : ℕ) : (be32 x).length = 4 := rfl

theorem ofBe_be32 (x : ℕ) : ofBe (be32 x) = x % 2 ^ 32 := by
  simp only [ofBe, be32, List.foldl_cons, List.foldl_nil, UInt8.toNat_ofNat']
  omega

/-- The bytes that come first weigh more. -/
theorem ofBe_append (as bs : List UInt8) :
    ofBe (as ++ bs) = ofBe as * 256 ^ bs.length + ofBe bs := by
  induction bs using List.reverseRecOn with
  | nil => simp [ofBe]
  | append_singleton bs b ih =>
    -- one byte more at the end
    have h_snoc (cs : List UInt8) : ofBe (cs ++ [b]) = ofBe cs * 256 + b.toNat := by
      simp [ofBe]
    rw [← List.append_assoc, h_snoc, h_snoc, ih, List.length_append, List.length_singleton,
      pow_succ]
    ring

/-! ### Little-endian numbers -/

/-- The low `n` bytes of a number, least significant byte first. -/
def le : ℕ → ℕ → List UInt8
  | 0, _ => []
  | n + 1, x => UInt8.ofNat x :: le n (x / 256)

/-- The number whose bytes are given, least significant byte first. -/
def ofLe : List UInt8 → ℕ
  | [] => 0
  | b :: bs => b.toNat + 256 * ofLe bs

@[simp] theorem length_le (n x : ℕ) : (le n x).length = n := by
  induction n generalizing x with
  | zero => rfl
  | succ n ih => rw [le, List.length_cons, ih]

theorem ofLe_lt (bs : List UInt8) : ofLe bs < 256 ^ bs.length := by
  induction bs with
  | nil => exact Nat.one_pos
  | cons b bs ih =>
    have h_byte := b.toNat_lt
    rw [ofLe, List.length_cons, pow_succ]
    omega

theorem ofLe_le (n x : ℕ) : ofLe (le n x) = x % 256 ^ n := by
  induction n generalizing x with
  | zero => rw [pow_zero, Nat.mod_one]; rfl
  | succ n ih =>
    rw [le, ofLe, ih, UInt8.toNat_ofNat', pow_succ' 256 n, Nat.mod_mul]

/-- The bytes of a number that was made of bytes. -/
theorem le_ofLe {n : ℕ} {bs : List UInt8} (h : bs.length = n) : le n (ofLe bs) = bs := by
  induction bs generalizing n with
  | nil => rw [← h]; rfl
  | cons b bs ih =>
    have h_byte := b.toNat_lt
    -- the lowest byte is the remainder, the others are the quotient
    have h_head : UInt8.ofNat (b.toNat + 256 * ofLe bs) = b := by
      apply UInt8.toNat_inj.mp
      rw [UInt8.toNat_ofNat']
      omega
    have h_tail : (b.toNat + 256 * ofLe bs) / 256 = ofLe bs := by omega
    rw [← h, List.length_cons, le, ofLe, h_head, h_tail, ih rfl]

/-- The same bytes from the other end. -/
theorem ofBe_eq (bs : List UInt8) : ofBe bs = ofLe bs.reverse := by
  induction bs using List.reverseRecOn with
  | nil => rfl
  | append_singleton bs b ih =>
    rw [ofBe_append, ih, List.reverse_append, List.reverse_singleton, List.singleton_append, ofLe]
    simp only [ofBe, List.foldl_cons, List.foldl_nil, List.length_singleton]
    ring

theorem ofBe_lt (bs : List UInt8) : ofBe bs < 256 ^ bs.length := by
  have h := ofLe_lt bs.reverse
  rwa [← ofBe_eq, List.length_reverse] at h

end Bytes

end Laureline
