import Laureline.Lib.BlockHash

/-!
# Message digests

`md32_common.h`: a digest over blocks of 64 bytes, for any chaining value, block function and byte
order. The macros that are defined before it is included are the members of `Alg`.

A message comes in any number of pieces. `Ctx.Holds` is the invariant between two calls: the
whole blocks are in the chaining value, the bytes behind them in the buffer, and the length is in
`Nh` and `Nl`. `foldl_update_holds` and `final_holds` are the results: the digest is that of the
padded message.
-/

namespace Laureline

namespace Md32

open Bytes BlockHash

/-- `HASH_LONG`. -/
abbrev Word := BitVec 32

/-- `DATA_ORDER_IS_BIG_ENDIAN` or `DATA_ORDER_IS_LITTLE_ENDIAN`. -/
inductive Order
  | big
  | little
deriving DecidableEq, Repr

/-- `(unsigned char)((l >> n) & 0xff)`. -/
def byte (l : Word) (n : ℕ) : UInt8 := UInt8.ofNat (l >>> n).toNat

/-- `HOST_l2c`. -/
def hostL2c : Order → Word → List UInt8
  | .big, l => [byte l 24, byte l 16, byte l 8, byte l 0]
  | .little, l => [byte l 0, byte l 8, byte l 16, byte l 24]

/-- `(unsigned long)b`. -/
def word (b : UInt8) : Word := .ofNat 32 b.toNat

/-- `HOST_c2l`, with the bytes at the pointer. -/
def hostC2l : Order → List UInt8 → Word
  | .big, c => word (c.getD 0 0) <<< 24 ||| word (c.getD 1 0) <<< 16 ||| word (c.getD 2 0) <<< 8 |||
      word (c.getD 3 0)
  | .little, c => word (c.getD 0 0) ||| word (c.getD 1 0) <<< 8 ||| word (c.getD 2 0) <<< 16 |||
      word (c.getD 3 0) <<< 24

/-- `HASH_CBLOCK`. -/
def cblock : ℕ := 64

/-- What a digest defines before it includes the header, with the chaining values `V`. -/
structure Alg (V : Type) where
  order : Order
  /-- The `INIT_DATA`. -/
  init : V
  /-- `HASH_BLOCK_DATA_ORDER`. -/
  blockDataOrder : V → List UInt8 → ℕ → V
  /-- The function that it computes, once for each block. -/
  block : V → List UInt8 → V
  blockDataOrder_eq : ∀ v data n, cblock * n ≤ data.length →
    blockDataOrder v data n = blocks block cblock v data n
  /-- The words of `HASH_MAKE_STRING`. -/
  words : V → List Word

/-- `HASH_CTX`. -/
structure Ctx (V : Type) where
  h : V
  Nl : Word
  Nh : Word
  data : List UInt8
  num : ℕ
deriving DecidableEq, Repr

section Code

variable {V : Type} (A : Alg V)

/-- `HASH_INIT`. -/
def init : Ctx V := ⟨A.init, 0, 0, List.replicate cblock 0, 0⟩

/-- `HASH_BLOCK_DATA_ORDER(c, data, n)`. -/
def blockDataOrder (c : Ctx V) (data : List UInt8) (n : ℕ) : Ctx V :=
  { c with h := A.blockDataOrder c.h data n }

/-- The end of `HASH_UPDATE`, when the buffer is empty. -/
def updateBlocks (c : Ctx V) (data : List UInt8) : Ctx V :=
  let n := data.length / cblock
  let c := if 0 < n then blockDataOrder A c data n else c
  let data := if 0 < n then data.drop (n * cblock) else data
  if data.length ≠ 0 then { c with num := data.length, data := store c.data 0 data } else c

/-- `len` bytes are added to the length. -/
def addLength (c : Ctx V) (len : ℕ) : Ctx V :=
  let l := c.Nl + BitVec.ofNat 32 len <<< 3
  -- overflow
  let Nh := if l < c.Nl then c.Nh + 1 else c.Nh
  { c with Nl := l, Nh := Nh + BitVec.ofNat 32 (len >>> 29) }

/-- `HASH_UPDATE` behind the length. -/
def updateBuffer (c : Ctx V) (data : List UInt8) : Ctx V :=
  let len := data.length
  let n := c.num
  if n ≠ 0 then
    if cblock ≤ len ∨ cblock ≤ len + n then
      let c := { c with data := store c.data n (data.take (cblock - n)) }
      let c := blockDataOrder A c c.data 1
      -- keep it zeroed
      updateBlocks A { c with num := 0, data := store c.data 0 (List.replicate cblock 0) }
        (data.drop (cblock - n))
    else { c with data := store c.data n data, num := n + len }
  else updateBlocks A c data

/-- `HASH_UPDATE`. -/
def update (c : Ctx V) (data : List UInt8) : Ctx V :=
  if data.length = 0 then c else updateBuffer A (addLength c data.length) data

/-- The two words of the length, as `HASH_FINAL` stores them. -/
def lengthWords (c : Ctx V) : List UInt8 :=
  match A.order with
  | .big => hostL2c A.order c.Nh ++ hostL2c A.order c.Nl
  | .little => hostL2c A.order c.Nl ++ hostL2c A.order c.Nh

/-- `HASH_MAKE_STRING`. -/
def makeString (h : V) : List UInt8 := (A.words h).flatMap (hostL2c A.order)

/-- `HASH_FINAL`: the digest, and the context. -/
def final (c : Ctx V) : List UInt8 × Ctx V :=
  let n := c.num
  let c := { c with data := store c.data n [0x80] }
  let n := n + 1
  let full := cblock - 8 < n
  let c := if full then
      let c := { c with data := store c.data n (List.replicate (cblock - n) 0) }
      blockDataOrder A c c.data 1
    else c
  let n := if full then 0 else n
  let c := { c with data := store c.data n (List.replicate (cblock - 8 - n) 0) }
  let c := { c with data := store c.data (cblock - 8) (lengthWords A c) }
  let c := blockDataOrder A c c.data 1
  let c := { c with num := 0, data := store c.data 0 (List.replicate cblock 0) }
  (makeString A c.h, c)

end Code

/-! ### The digest of a message -/

section Message

variable {V : Type} (A : Alg V)

/-- The length of a message in bits, as it stands behind the padding. -/
def bitLength : Order → ℕ → List UInt8
  | .big, n => be32 (8 * n / 2 ^ 32) ++ be32 (8 * n)
  | .little, n => le 8 (8 * n)

/-- A message, one bit and as many zeros as it takes, and the length: whole blocks. -/
def padded (o : Order) (m : List UInt8) : List UInt8 :=
  m ++ 0x80 :: List.replicate ((119 - m.length % cblock) % cblock) 0 ++ bitLength o m.length

/-- The digest of a message. -/
def hash (m : List UInt8) : List UInt8 :=
  makeString A (absorb A.block cblock A.init (padded A.order m))

/-- The message up to now, but for its length. -/
structure Ctx.Buffers (c : Ctx V) (m : List UInt8) : Prop where
  h : c.h = absorb A.block cblock A.init m
  num : c.num = m.length % cblock
  data : c.data.take c.num = rest cblock m
  length_data : c.data.length = cblock

/-- The message up to now. -/
structure Ctx.Holds (c : Ctx V) (m : List UInt8) : Prop extends c.Buffers A m where
  count : c.Nh.toNat * 2 ^ 32 + c.Nl.toNat = 8 * m.length % 2 ^ 64

theorem init_holds : (init A).Holds A [] :=
  ⟨⟨rfl, rfl, rfl, List.length_replicate⟩,
    show (0 : Word).toNat * 2 ^ 32 + (0 : Word).toNat = _ by decide⟩

variable {A} {c : Ctx V} {m xs : List UInt8}

/-- The start of a buffer is written and read back. -/
theorem take_store_zero {α : Type*} {l xs : List α} (h : xs.length ≤ l.length) :
    (store l 0 xs).take xs.length = xs := by
  have h_slice : slice 0 xs.length (store l 0 xs) = xs := slice_store_self rfl (by omega)
  exact h_slice

/-- A piece is put behind what is in the buffer. -/
theorem take_store_append {α : Type*} {l xs : List α} {n : ℕ} (h : n + xs.length ≤ l.length) :
    (store l n xs).take (n + xs.length) = l.take n ++ xs := by
  have h_parts := slice_append_slice 0 n xs.length (store l n xs)
  rw [Nat.zero_add, slice_store_of_disjoint (.inl (by omega)), slice_store_self rfl h] at h_parts
  exact h_parts.symm

theorem updateBlocks_holds (h_h : c.h = absorb A.block cblock A.init m)
    (h_m : m.length % cblock = 0) (h_num : c.num = 0) (h_data : c.data.length = cblock)
    (h_count : c.Nh.toNat * 2 ^ 32 + c.Nl.toNat = 8 * (m ++ xs).length % 2 ^ 64) :
    (updateBlocks A c xs).Holds A (m ++ xs) := by
  have h_pos : 0 < cblock := by decide
  -- the bytes so far are whole blocks, so the buffer is empty
  have h_rest : rest cblock m = [] := List.length_eq_zero_iff.mp ((length_rest _ _).trans h_m)
  have h_code : A.blockDataOrder c.h xs (xs.length / cblock) = absorb A.block cblock c.h xs :=
    A.blockDataOrder_eq _ _ _ (Nat.mul_div_le xs.length cblock)
  -- the call for no blocks at all would be the identity, so the test can go
  have h_blocks : (if 0 < xs.length / cblock then blockDataOrder A c xs (xs.length / cblock)
      else c) = { c with h := absorb A.block cblock c.h xs } := by
    rw [← h_code]
    split_ifs with h_n
    · rfl
    · rw [A.blockDataOrder_eq _ _ _ (Nat.mul_div_le xs.length cblock), Nat.eq_zero_of_not_pos h_n]
      rfl
  have h_drop : (if 0 < xs.length / cblock then xs.drop (xs.length / cblock * cblock) else xs) =
      rest cblock xs := by
    rw [rest, Nat.mul_comm]
    split_ifs with h_n
    · rfl
    · rw [Nat.eq_zero_of_not_pos h_n, Nat.mul_zero, List.drop_zero]
  -- what is hashed is the whole blocks of `xs`, and what is buffered the rest of it
  have h_absorb : absorb A.block cblock A.init (m ++ xs) = absorb A.block cblock c.h xs := by
    rw [absorb_append h_pos, h_rest, List.nil_append, h_h]
  have h_left : rest cblock (m ++ xs) = rest cblock xs := by
    rw [rest_append h_pos, h_rest, List.nil_append]
  have h_length : (m ++ xs).length % cblock = (rest cblock xs).length := by
    rw [length_rest, List.length_append, Nat.add_mod, h_m, Nat.zero_add, Nat.mod_mod]
  have h_lt : (rest cblock xs).length < cblock := by
    rw [length_rest]
    exact Nat.mod_lt _ h_pos
  unfold updateBlocks
  simp only [h_blocks, h_drop]
  -- a rest that is empty leaves the old buffer, of which nothing counts
  split_ifs with h_some
  · refine ⟨⟨h_absorb.symm, h_length.symm, ?_, ?_⟩, h_count⟩
    · rw [h_left]
      exact take_store_zero (h_lt.le.trans h_data.ge)
    · exact (length_store ..).trans h_data
  · rw [not_not] at h_some
    refine ⟨⟨h_absorb.symm, ?_, ?_, h_data⟩, h_count⟩
    · rw [h_length, h_some]
      exact h_num
    · rw [h_left, List.length_eq_zero_iff.mp h_some]
      show c.data.take c.num = []
      rw [h_num, List.take_zero]

theorem two_words {x r : ℕ} (hr : r < 2 ^ 32) :
    (x * 2 ^ 32 + r) % 2 ^ 64 = x % 2 ^ 32 * 2 ^ 32 + r := by
  omega

/-- The comparison is the carry from the low word. -/
theorem count_add {h l n len : ℕ} (hl : l < 2 ^ 32) (hn : h * 2 ^ 32 + l = 8 * n % 2 ^ 64) :
    ((if (l + 8 * len % 2 ^ 32) % 2 ^ 32 < l then (h + 1) % 2 ^ 32 else h) +
        8 * len / 2 ^ 32) % 2 ^ 32 * 2 ^ 32 + (l + 8 * len % 2 ^ 32) % 2 ^ 32 =
      8 * (n + len) % 2 ^ 64 := by
  have h_sum : 8 * (n + len) % 2 ^ 64 = (h * 2 ^ 32 + l + 8 * len) % 2 ^ 64 := by
    rw [hn, Nat.mul_add, Nat.mod_add_mod]
  have h_div := Nat.div_add_mod (8 * len) (2 ^ 32)
  have h_lt : 8 * len % 2 ^ 32 < 2 ^ 32 := Nat.mod_lt _ (by decide)
  rw [h_sum, ← two_words (Nat.mod_lt _ (by decide)), ← h_div]
  generalize 8 * len / 2 ^ 32 = a at *
  generalize 8 * len % 2 ^ 32 = b at *
  clear h_sum h_div hn
  split_ifs with h_carry
  · omega
  · omega

theorem addLength_count {n len : ℕ} (h_len : len < 2 ^ 32)
    (hn : c.Nh.toNat * 2 ^ 32 + c.Nl.toNat = 8 * n % 2 ^ 64) :
    (addLength c len).Nh.toNat * 2 ^ 32 + (addLength c len).Nl.toNat = 8 * (n + len) % 2 ^ 64 := by
  have h_l : (c.Nl + BitVec.ofNat 32 len <<< 3).toNat =
      (c.Nl.toNat + 8 * len % 2 ^ 32) % 2 ^ 32 := by
    rw [BitVec.toNat_add, BitVec.toNat_shiftLeft, BitVec.toNat_ofNat, Nat.shiftLeft_eq]
    omega
  have h_high : (BitVec.ofNat 32 (len >>> 29)).toNat = 8 * len / 2 ^ 32 := by
    rw [BitVec.toNat_ofNat, Nat.shiftRight_eq_div_pow]
    omega
  have h_add : (c.Nh + 1).toNat = (c.Nh.toNat + 1) % 2 ^ 32 := BitVec.toNat_add ..
  simp only [addLength, BitVec.toNat_add _ (BitVec.ofNat 32 (len >>> 29)), h_high,
    apply_ite BitVec.toNat, h_add, BitVec.lt_def, h_l]
  exact count_add c.Nl.isLt hn

theorem Ctx.Buffers.num_lt (h : c.Buffers A m) : c.num < cblock := by
  rw [h.num]
  exact Nat.mod_lt _ (by decide)

theorem Ctx.Buffers.length_rest (h : c.Buffers A m) : (rest cblock m).length = c.num := by
  rw [BlockHash.length_rest, h.num]

/-- A piece that fills the buffer. -/
theorem Ctx.Buffers.fill (h : c.Buffers A m) (hx : c.num + xs.length = cblock) :
    store c.data c.num xs = rest cblock m ++ xs := by
  have h_take : (store c.data c.num xs).take (c.num + xs.length) = c.data.take c.num ++ xs :=
    take_store_append (by rw [h.length_data, hx])
  rw [h.data, List.take_of_length_le (by rw [length_store, h.length_data, hx])] at h_take
  exact h_take

/-- The block is then the next one. -/
theorem Ctx.Buffers.block_fill (h : c.Buffers A m) (hx : c.num + xs.length = cblock) :
    A.blockDataOrder c.h (store c.data c.num xs) 1 = absorb A.block cblock A.init (m ++ xs) := by
  have h_length : (rest cblock m ++ xs).length = cblock := by
    rw [List.length_append, h.length_rest, hx]
  have h_one : (rest cblock m ++ xs).length / cblock = 1 := by
    rw [h_length]
    decide
  rw [A.blockDataOrder_eq _ _ _ (by rw [length_store, h.length_data, Nat.mul_one]),
    absorb_append (by decide), ← h.h, absorb, h_one, h.fill hx]

theorem updateBuffer_holds (h : c.Buffers A m)
    (h_count : c.Nh.toNat * 2 ^ 32 + c.Nl.toNat = 8 * (m ++ xs).length % 2 ^ 64) :
    (updateBuffer A c xs).Holds A (m ++ xs) := by
  have h_num := h.num_lt
  have h_rest := h.length_rest
  unfold updateBuffer
  by_cases h_some : c.num ≠ 0
  swap
  · have h_zero : c.num = 0 := not_not.mp h_some
    rw [if_neg h_some]
    exact updateBlocks_holds h.h (h.num.symm.trans h_zero) h_zero h.length_data h_count
  rw [if_pos h_some]
  by_cases h_full : cblock ≤ xs.length ∨ cblock ≤ xs.length + c.num
  · -- the buffer is filled
    rw [if_pos h_full]
    have h_fill : (xs.take (cblock - c.num)).length = cblock - c.num :=
      List.length_take_of_le (by omega)
    have h_whole : c.num + (xs.take (cblock - c.num)).length = cblock := by omega
    have h_block := h.block_fill h_whole
    have h_aligned : (m ++ xs.take (cblock - c.num)).length % cblock = 0 := by
      rw [List.length_append, h_fill, Nat.add_mod, ← h.num, Nat.add_mod_mod,
        Nat.add_sub_cancel' h_num.le, Nat.mod_self]
    have h_parts : m ++ xs = m ++ xs.take (cblock - c.num) ++ xs.drop (cblock - c.num) := by
      rw [List.append_assoc, List.take_append_drop]
    rw [h_parts] at h_count ⊢
    refine updateBlocks_holds h_block h_aligned rfl ?_ h_count
    simp only [blockDataOrder, length_store, h.length_data]
  · -- the piece fits into the buffer
    rw [if_neg h_full]
    have h_lt : (rest cblock m ++ xs).length < cblock := by
      rw [List.length_append]
      omega
    refine ⟨⟨?_, ?_, ?_, (length_store ..).trans h.length_data⟩, h_count⟩
    · rw [absorb_append (by decide), absorb_of_lt h_lt]
      exact h.h
    · show c.num + xs.length = _
      rw [List.length_append, Nat.add_mod, ← h.num, Nat.add_mod_mod, Nat.mod_eq_of_lt (by omega)]
    · rw [rest_append (by decide), rest_of_lt h_lt, ← h.data]
      exact take_store_append (by rw [h.length_data]; omega)

/-- **A piece of the message.** -/
theorem update_holds (h : c.Holds A m) (hx : xs.length < 2 ^ 32) :
    (update A c xs).Holds A (m ++ xs) := by
  have h_count := addLength_count hx h.count
  rw [← List.length_append] at h_count
  unfold update
  by_cases h_empty : xs.length = 0
  · rwa [if_pos h_empty, List.length_eq_zero_iff.mp h_empty, List.append_nil]
  · rw [if_neg h_empty]
    exact updateBuffer_holds ⟨h.h, h.num, h.data, h.length_data⟩ h_count

/-! ### The end of a message -/

theorem length_bitLength (o : Order) (n : ℕ) : (bitLength o n).length = 8 := by
  cases o <;> rfl

theorem byte_eq {l : Word} {x n : ℕ} (h : l.toNat = x % 2 ^ 32) (hn : n ∈ [0, 8, 16, 24]) :
    byte l n = UInt8.ofNat (x / 2 ^ n) := by
  simp only [List.mem_cons, List.not_mem_nil, or_false] at hn
  rw [← UInt8.toNat_inj, byte, UInt8.toNat_ofNat', UInt8.toNat_ofNat', BitVec.toNat_ushiftRight,
    Nat.shiftRight_eq_div_pow, h]
  obtain rfl | rfl | rfl | rfl := hn <;> omega

theorem hostL2c_big {l : Word} {x : ℕ} (h : l.toNat = x % 2 ^ 32) : hostL2c .big l = be32 x := by
  simp only [hostL2c, byte_eq h (List.mem_cons_self), byte_eq (n := 8) h (by decide),
    byte_eq (n := 16) h (by decide), byte_eq (n := 24) h (by decide), Nat.pow_zero, Nat.div_one]
  rfl

theorem hostL2c_little {l : Word} {x : ℕ} (h : l.toNat = x % 2 ^ 32) :
    hostL2c .little l = le 4 x := by
  simp only [hostL2c, byte_eq h (List.mem_cons_self), byte_eq (n := 8) h (by decide),
    byte_eq (n := 16) h (by decide), byte_eq (n := 24) h (by decide), Nat.pow_zero, Nat.div_one]
  simp only [le, Nat.div_div_eq_div_mul, Nat.reducePow, Nat.reduceMul]

theorem le_eight (x : ℕ) : le 8 x = le 4 x ++ le 4 (x / 2 ^ 32) := by
  simp only [le, Nat.div_div_eq_div_mul, Nat.reducePow, Nat.reduceMul, List.cons_append,
    List.nil_append]

theorem lengthWords_eq {n : ℕ} (h : c.Nh.toNat * 2 ^ 32 + c.Nl.toNat = 8 * n % 2 ^ 64) :
    lengthWords A c = bitLength A.order n := by
  have h_Nl := c.Nl.isLt
  have h_low : c.Nl.toNat = 8 * n % 2 ^ 32 := by omega
  have h_high : c.Nh.toNat = 8 * n / 2 ^ 32 % 2 ^ 32 := by omega
  unfold lengthWords bitLength
  cases A.order with
  | big => simp only [hostL2c_big h_low, hostL2c_big h_high]
  | little => simp only [hostL2c_little h_low, hostL2c_little h_high, le_eight]

/-- The last block, behind `c.num` bytes. -/
theorem final_block (h : c.Buffers A m) {len zs : List UInt8} (h_len : len.length = 8)
    (h_zs : c.num + 1 + zs.length = cblock - 8) :
    A.blockDataOrder c.h
        (store (store (store c.data c.num [0x80]) (c.num + 1) zs) (cblock - 8) len) 1 =
      absorb A.block cblock A.init (m ++ 0x80 :: zs ++ len) := by
  have h_store : store (store (store c.data c.num [0x80]) (c.num + 1) zs) (cblock - 8) len =
      store c.data c.num (0x80 :: zs ++ len) := by
    rw [store_append, List.length_cons, ← h_zs, Nat.add_right_comm, Nat.add_assoc c.num]
    rfl
  rw [h_store, List.append_assoc]
  refine h.block_fill ?_
  rw [List.length_append, List.length_cons, h_len]
  have h_cblock : cblock = 64 := rfl
  omega

/-- The last two blocks. -/
theorem final_blocks (h : c.Buffers A m) {len zs ws : List UInt8} (h_len : len.length = 8)
    (h_zs : c.num + 1 + zs.length = cblock) (h_ws : ws.length = cblock - 8) :
    A.blockDataOrder
        (A.blockDataOrder c.h (store (store c.data c.num [0x80]) (c.num + 1) zs) 1)
        (store (store (store (store c.data c.num [0x80]) (c.num + 1) zs) 0 ws) (cblock - 8) len) 1 =
      absorb A.block cblock A.init (m ++ 0x80 :: zs ++ ws ++ len) := by
  have h_fill : c.num + (0x80 :: zs).length = cblock := by
    rw [List.length_cons]
    omega
  have h_first : A.blockDataOrder c.h (store (store c.data c.num [0x80]) (c.num + 1) zs) 1 =
      absorb A.block cblock A.init (m ++ 0x80 :: zs) := h.block_fill h_fill
  have h_aligned : (m ++ 0x80 :: zs).length % cblock = 0 := by
    rw [List.length_append, Nat.add_mod, ← h.num, Nat.add_mod_mod, h_fill, Nat.mod_self]
  -- the buffer is empty again
  have h_empty : Ctx.Buffers A ⟨absorb A.block cblock A.init (m ++ 0x80 :: zs), c.Nl, c.Nh,
      store (store c.data c.num [0x80]) (c.num + 1) zs, 0⟩ (m ++ 0x80 :: zs) :=
    ⟨rfl, h_aligned.symm, (List.length_eq_zero_iff.mp ((length_rest _ _).trans h_aligned)).symm,
      by rw [length_store, length_store, h.length_data]⟩
  have h_cblock : cblock = 64 := rfl
  have h_whole : 0 + (ws ++ len).length = cblock := by
    rw [List.length_append, Nat.zero_add]
    omega
  have h_last := h_empty.block_fill h_whole
  rw [store_append, Nat.zero_add, h_ws] at h_last
  rw [h_first, List.append_assoc _ ws]
  exact h_last

/-- **The digest.** What is returned is the digest of the message, and the buffer is cleared. -/
theorem final_holds (h : c.Holds A m) :
    (final A c).1 = hash A m ∧ (final A c).2.num = 0 ∧
      (final A c).2.data = List.replicate cblock 0 := by
  have h_num := h.num_lt
  have h_len : (bitLength A.order m.length).length = 8 := length_bitLength _ _
  -- the buffer is cleared at the end in either case
  have h_zero {l : List UInt8} (hl : l.length = cblock) :
      store l 0 (List.replicate cblock 0) = List.replicate cblock 0 := by
    have h_zeros : (List.replicate cblock (0 : UInt8)).length ≤ l.length := by
      rw [List.length_replicate, hl]
    have h_take := take_store_zero h_zeros
    rwa [List.length_replicate, List.take_of_length_le (by rw [length_store, hl])] at h_take
  have h_length (v : V) (data : List UInt8) (n : ℕ) :
      lengthWords A ⟨v, c.Nl, c.Nh, data, n⟩ = bitLength A.order m.length := lengthWords_eq h.count
  have h_cblock : cblock = 64 := rfl
  unfold final
  -- the length does not fit behind the 0x80: one block more
  by_cases h_full : cblock - 8 < c.num + 1
  · simp only [if_pos h_full, blockDataOrder, Nat.sub_zero, h_length]
    refine ⟨congrArg (makeString A) ?_, trivial, h_zero ?_⟩
    · have h_zs : (119 - m.length % cblock) % cblock = cblock - (c.num + 1) + (cblock - 8) := by
        rw [← h.num, h_cblock]
        omega
      rw [padded, h_zs, ← List.replicate_append_replicate, ← List.cons_append,
        ← List.append_assoc m]
      exact final_blocks h.toBuffers h_len (by rw [List.length_replicate]; omega)
        List.length_replicate
    · simp only [length_store, h.length_data]
  · simp only [if_neg h_full, blockDataOrder, h_length]
    refine ⟨congrArg (makeString A) ?_, trivial, h_zero ?_⟩
    · have h_zs : (119 - m.length % cblock) % cblock = cblock - 8 - (c.num + 1) := by
        rw [← h.num, h_cblock]
        omega
      rw [padded, h_zs]
      exact final_block h.toBuffers h_len (by rw [List.length_replicate]; omega)
    · simp only [length_store, h.length_data]

theorem foldl_update_holds {pieces : List (List UInt8)} (h : c.Holds A m)
    (h_pieces : ∀ xs ∈ pieces, xs.length < 2 ^ 32) :
    (pieces.foldl (update A) c).Holds A (m ++ pieces.flatten) := by
  induction pieces generalizing c m with
  | nil => rwa [List.flatten_nil, List.append_nil]
  | cons xs pieces ih =>
    rw [List.flatten_cons, ← List.append_assoc]
    exact ih (update_holds h (h_pieces xs List.mem_cons_self)) fun ys hy =>
      h_pieces ys (List.mem_cons_of_mem xs hy)

end Message

end Md32

end Laureline
