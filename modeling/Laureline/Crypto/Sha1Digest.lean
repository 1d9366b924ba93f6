import Laureline.Crypto.Md32
import Laureline.Crypto.Sha1Blocks

/-!
# SHA-1 of a message

`sha1dgst.c` includes `md32_common.h` with big-endian words and with the routine of
`sha1_thumb.s` for a block. On the bytes of a text that routine is `alg.block`, once for each
block (`sha1_block_data_order_spec`), and the digest of a message in pieces is then that of the
padded message (`sha1_pieces`).
-/

namespace Laureline

namespace Sha1

open Thumb Thumb.Program Md32 BlockHash Bytes

/-- The words of a block of bytes. -/
def words (block : List UInt8) (t : ℕ) : Thumb.Word := hostC2l .big (block.drop (4 * t))

/-- What `sha1dgst.c` defines. -/
def alg : Alg Vars where
  order := .big
  init := ⟨0x67452301, 0xefcdab89, 0x98badcfe, 0x10325476, 0xc3d2e1f0⟩
  blockDataOrder := blocks (fun h data => compress (words data) h) cblock
  block h data := compress (words data) h
  blockDataOrder_eq _ _ _ _ := rfl
  words h := [h.a, h.b, h.c, h.d, h.e]

/-- The bytes are in the memory from the address on. -/
def BytesAt (mem : ℕ → Thumb.Word) (a : Thumb.Word) (bs : List UInt8) : Prop :=
  ∀ i < bs.length, byteAt mem (a + .ofNat 32 i) = word (bs.getD i 0)

instance (mem : ℕ → Thumb.Word) (a : Thumb.Word) (bs : List UInt8) : Decidable (BytesAt mem a bs) :=
  inferInstanceAs (Decidable (∀ i < bs.length, _))

theorem blocksAt_eq {mem : ℕ → Thumb.Word} {a : Thumb.Word} {bs : List UInt8} {j t : ℕ}
    (h : BytesAt mem a bs) (hj : 64 * j + 64 ≤ bs.length) (ht : t < 16) :
    blocksAt mem a j t = words (slice (cblock * j) cblock bs) t := by
  have h_cblock : cblock = 64 := rfl
  have h_byte (k : ℕ) (hk : k < 4) :
      byteAt mem (a + .ofNat 32 (64 * j) + .ofNat 32 (4 * t) + .ofNat 32 k) =
        word (((slice (cblock * j) cblock bs).drop (4 * t)).getD k 0) := by
    rw [BitVec.add_assoc, BitVec.add_assoc, ← BitVec.ofNat_add, ← BitVec.ofNat_add,
      h _ (by omega), List.getD_eq_getElem?_getD, List.getD_eq_getElem?_getD, List.getElem?_drop,
      getElem?_slice, if_pos (by omega), h_cblock]
  unfold blocksAt blockAt beWord words hostC2l
  rw [h_byte 0 (by decide), h_byte 1 (by decide), h_byte 2 (by decide), h_byte 3 (by decide)]

theorem hashBlocks_eq {mem : ℕ → Thumb.Word} {a : Thumb.Word} {bs : List UInt8} {n : ℕ}
    (h : BytesAt mem a bs) (hn : 64 * n ≤ bs.length) (v : Vars) :
    hashBlocks (blocksAt mem a) v n = blocks alg.block cblock v bs n := by
  induction n with
  | zero => rfl
  | succ n ih =>
    rw [hashBlocks, blocks, ih (by omega)]
    exact compress_congr (fun t ht => blocksAt_eq h (by omega) ht) _

/-- **The routine on bytes.** Called with the text `bs` of `N` blocks it comes back with the
chaining value that `HASH_BLOCK_DATA_ORDER` means, and with everything else that belongs to its
caller as before. -/
theorem sha1_block_data_order_spec {c top N : ℕ} {s : State} {o : Thumb.Word} {bs : List UInt8}
    (h : Called c top N s) (h_bytes : BytesAt s.mem s.r1 bs) (h_length : bs.length = 64 * N) :
    ∃ t, (program o).Steps (.place 0, s) ((program o).target s.lr, t) ∧
      contextAt t.mem c = alg.blockDataOrder (contextAt s.mem c) bs N ∧
      (∀ n, n < top - 90 ∨ top ≤ n → n < c ∨ c + 5 ≤ n → t.mem n = s.mem n) ∧
      t.sp = s.sp ∧ t.r4 = s.r4 ∧ t.r5 = s.r5 ∧ t.r6 = s.r6 ∧ t.r7 = s.r7 ∧ t.r8 = s.r8 ∧
      t.r9 = s.r9 ∧ t.r10 = s.r10 ∧ t.r11 = s.r11 := by
  obtain ⟨t, h_steps, h_hash, h_rest⟩ := routine_steps (o := o) h
  -- the words that the routine loads are those of the bytes
  rw [hashBlocks_eq h_bytes h_length.ge] at h_hash
  exact ⟨t, h_steps, h_hash, h_rest⟩

/-- A call for the padded text `abc`. -/
def abcCall : State where
  r0 := ptr 300
  r1 := ptr 384
  r2 := 1
  r3 := 0
  r4 := 4
  r5 := 5
  r6 := 6
  r7 := 7
  r8 := 8
  r9 := 9
  r10 := 10
  r11 := 11
  r12 := 12
  sp := ptr 200
  lr := 0x08000101
  z := none
  mem n := if n = 300 then 0x67452301 else if n = 301 then 0xefcdab89
    else if n = 302 then 0x98badcfe else if n = 303 then 0x10325476 else if n = 304 then 0xc3d2e1f0
    else if n = 384 then 0x80636261 else if n = 399 then 0x18000000 else 0

/-- The digest of `abc`. -/
def abcDigest : Vars := ⟨0xa9993e36, 0x4706816a, 0xba3e2571, 0x7850c26c, 0x9cd0d89d⟩

theorem sha1_block_data_order_abc : ∃ t,
    (program 0x08004000).Steps (.place 0, abcCall) (.out 0x08000101, t) ∧
      contextAt t.mem 300 = abcDigest ∧ t.sp = ptr 200 := by
  have h_called : Called 300 200 1 abcCall :=
    ⟨rfl, rfl, rfl, by decide, by decide, by decide, by decide, by decide, by decide, by decide⟩
  have h_bytes : BytesAt abcCall.mem abcCall.r1 (padded .big [0x61, 0x62, 0x63]) := by
    decide +kernel
  obtain ⟨t, h_steps, h_hash, -, h_sp, -⟩ :=
    sha1_block_data_order_spec (o := 0x08004000) h_called h_bytes (by decide)
  have h_target : (program 0x08004000).target abcCall.lr = .out 0x08000101 := by decide +kernel
  have h_digest : alg.blockDataOrder (contextAt abcCall.mem 300)
      (padded .big [0x61, 0x62, 0x63]) 1 = abcDigest := by decide +kernel
  rw [h_target] at h_steps
  exact ⟨t, h_steps, h_hash.trans h_digest, h_sp⟩

/-- **SHA-1.** `SHA1_Init`, any number of calls of `SHA1_Update` and `SHA1_Final` give the digest
of the whole message, however it is cut into pieces, and leave no byte of it in the buffer. -/
theorem sha1_pieces {pieces : List (List UInt8)} (h : ∀ xs ∈ pieces, xs.length < 2 ^ 32) :
    let c := pieces.foldl (update alg) (Md32.init alg)
    (final alg c).1 = hash alg pieces.flatten ∧ (final alg c).2.num = 0 ∧
      (final alg c).2.data = List.replicate cblock 0 :=
  final_holds (foldl_update_holds (init_holds alg) h)

theorem sha1_pieces_abc :
    (final alg ([[0x61], [], [0x62, 0x63]].foldl (update alg) (Md32.init alg))).1 =
      makeString alg abcDigest := by
  have h_short : ∀ xs ∈ [[0x61], [], [(0x62 : UInt8), 0x63]], xs.length < 2 ^ 32 := by
    simp
  have h_hash : hash alg [[0x61], [], [0x62, 0x63]].flatten = makeString alg abcDigest := by
    decide +kernel
  exact (sha1_pieces h_short).1.trans h_hash

end Sha1

end Laureline
