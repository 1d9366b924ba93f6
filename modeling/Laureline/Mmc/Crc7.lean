import Laureline.Lib.Crc

/-!
# The checksum of a command

`crc7_update` of `crc7.c`, which is driven by a table, and `mmc_ll_send_header` of `mmc.c`, which
puts the CRC behind the command and its argument. A register of the generator `X ^ 7 + X ^ 3 + 1`
is kept in the upper seven bits of a byte (`left`).
-/

namespace Laureline

namespace Mmc

open Crc Polynomial

/-! ### crc7.c -/

/-- `crc_table`. -/
def crcTable : List UInt8 := [
  0x00, 0x12, 0x24, 0x36, 0x48, 0x5a, 0x6c, 0x7e, 0x90, 0x82, 0xb4, 0xa6, 0xd8, 0xca, 0xfc, 0xee,
  0x32, 0x20, 0x16, 0x04, 0x7a, 0x68, 0x5e, 0x4c, 0xa2, 0xb0, 0x86, 0x94, 0xea, 0xf8, 0xce, 0xdc,
  0x64, 0x76, 0x40, 0x52, 0x2c, 0x3e, 0x08, 0x1a, 0xf4, 0xe6, 0xd0, 0xc2, 0xbc, 0xae, 0x98, 0x8a,
  0x56, 0x44, 0x72, 0x60, 0x1e, 0x0c, 0x3a, 0x28, 0xc6, 0xd4, 0xe2, 0xf0, 0x8e, 0x9c, 0xaa, 0xb8,
  0xc8, 0xda, 0xec, 0xfe, 0x80, 0x92, 0xa4, 0xb6, 0x58, 0x4a, 0x7c, 0x6e, 0x10, 0x02, 0x34, 0x26,
  0xfa, 0xe8, 0xde, 0xcc, 0xb2, 0xa0, 0x96, 0x84, 0x6a, 0x78, 0x4e, 0x5c, 0x22, 0x30, 0x06, 0x14,
  0xac, 0xbe, 0x88, 0x9a, 0xe4, 0xf6, 0xc0, 0xd2, 0x3c, 0x2e, 0x18, 0x0a, 0x74, 0x66, 0x50, 0x42,
  0x9e, 0x8c, 0xba, 0xa8, 0xd6, 0xc4, 0xf2, 0xe0, 0x0e, 0x1c, 0x2a, 0x38, 0x46, 0x54, 0x62, 0x70,
  0x82, 0x90, 0xa6, 0xb4, 0xca, 0xd8, 0xee, 0xfc, 0x12, 0x00, 0x36, 0x24, 0x5a, 0x48, 0x7e, 0x6c,
  0xb0, 0xa2, 0x94, 0x86, 0xf8, 0xea, 0xdc, 0xce, 0x20, 0x32, 0x04, 0x16, 0x68, 0x7a, 0x4c, 0x5e,
  0xe6, 0xf4, 0xc2, 0xd0, 0xae, 0xbc, 0x8a, 0x98, 0x76, 0x64, 0x52, 0x40, 0x3e, 0x2c, 0x1a, 0x08,
  0xd4, 0xc6, 0xf0, 0xe2, 0x9c, 0x8e, 0xb8, 0xaa, 0x44, 0x56, 0x60, 0x72, 0x0c, 0x1e, 0x28, 0x3a,
  0x4a, 0x58, 0x6e, 0x7c, 0x02, 0x10, 0x26, 0x34, 0xda, 0xc8, 0xfe, 0xec, 0x92, 0x80, 0xb6, 0xa4,
  0x78, 0x6a, 0x5c, 0x4e, 0x30, 0x22, 0x14, 0x06, 0xe8, 0xfa, 0xcc, 0xde, 0xa0, 0xb2, 0x84, 0x96,
  0x2e, 0x3c, 0x0a, 0x18, 0x66, 0x74, 0x42, 0x50, 0xbe, 0xac, 0x9a, 0x88, 0xf6, 0xe4, 0xd2, 0xc0,
  0x1c, 0x0e, 0x38, 0x2a, 0x54, 0x46, 0x70, 0x62, 0x8c, 0x9e, 0xa8, 0xba, 0xc4, 0xd6, 0xe0, 0xf2]

/-- `crc7_init`. -/
def crc7Init : UInt8 := (0x00 : UInt8) <<< 1

/-- The loop of `crc7_update`. -/
def crc7Loop (crc : UInt8) : List UInt8 → UInt8
  | [] => crc
  | data :: rest =>
    let tblIdx := ((crc >>> 0) ^^^ data) &&& 0xff
    let crc := crcTable.getD tblIdx.toNat 0 ^^^ (crc <<< (8 - 1))
    crc7Loop (crc &&& ((0x7f : UInt8) <<< 1)) rest

/-- `crc7_update`. -/
def crc7Update (crc : UInt8) (data : List UInt8) : UInt8 :=
  crc7Loop crc data &&& ((0x7f : UInt8) <<< 1)

/-- `crc7_finalize`. -/
def crc7Finalize (crc : UInt8) : UInt8 := (crc >>> 1) ^^^ 0x00

/-! ### mmc.c -/

/-- The six bytes that `mmc_ll_send_header` sends. -/
def mmcLlSendHeader (cmd : UInt8) (arg : UInt32) : List UInt8 :=
  let buf := [0x40 ||| cmd, (arg >>> 24).toUInt8, (arg >>> 16).toUInt8, (arg >>> 8).toUInt8,
    arg.toUInt8]
  let crc := crc7Update crc7Init buf
  buf ++ [(crc7Finalize crc <<< 1) ||| 0x01]

/-! ### The register -/

/-- The low coefficients of `X ^ 7 + X ^ 3 + 1`. -/
def poly7 : BitVec 7 := 0x09

/-- Where a register is kept. -/
def left (c : BitVec 7) : UInt8 := ⟨c.concat false⟩

/-- The bits in the order in which they are sent. -/
def bitsOfBytes (bs : List UInt8) : List Bool := bs.flatMap fun b => bitsOf b.toBitVec

theorem generator_poly7 : generator poly7 = X ^ 7 + X ^ 3 + 1 := by
  have h_val : val poly7 = X ^ 3 + 1 := by
    simp [val, sumOf, Finset.sum_range_succ, poly7, bit, add_comm]
  rw [generator, h_val, add_assoc]

/-- Every entry of the table is the CRC of its index. -/
theorem crcTable_eq : crcTable =
    (List.range 256).map fun i => left (shiftAll poly7 0 (bitsOf (BitVec.ofNat 8 i))) := by
  decide +kernel

theorem crcTable_getD (i : UInt8) :
    crcTable.getD i.toNat 0 = left (shiftAll poly7 0 (bitsOf i.toBitVec)) := by
  have h_lt : i.toNat < (List.range 256).length := by
    rw [List.length_range]
    exact i.toNat_lt
  have h_bits : BitVec.ofNat 8 i.toNat = i.toBitVec := by
    rw [← UInt8.toNat_toBitVec, BitVec.ofNat_toNat, BitVec.setWidth_eq]
  rw [crcTable_eq, List.getD_eq_getElem?_getD, List.getElem?_map, List.getElem?_eq_getElem h_lt,
    List.getElem_range, Option.map_some, Option.getD_some, h_bits]

/-- The register has nothing in the lowest bit. -/
theorem left_masked : ∀ c, left c <<< (8 - 1) = 0 ∧ left c &&& ((0x7f : UInt8) <<< 1) = left c := by
  decide +kernel

theorem last_byte : ∀ c, (crc7Finalize (left c) <<< 1) ||| 0x01 = ⟨c.concat true⟩ := by
  decide +kernel

/-- The contents of the register are as much as seven bits that come first. -/
theorem shiftAll_left (c : BitVec 7) (b : BitVec 8) :
    shiftAll poly7 c (bitsOf b) = shiftAll poly7 0 (bitsOf (c.concat false ^^^ b)) := by
  refine shiftAll_eq_of_dvd poly7 (by decide) ?_
  have h_dvd := dvd_shiftAll poly7 (by decide) 0 (bitsOf (c.concat false ^^^ b))
  have h_zero : val (0 : BitVec 7) = 0 := by simp [val, sumOf, bit]
  have h_xor : val (c.concat false ^^^ b) = X * val c + val b := by
    rw [val_xor, val_concat]
    simp [bit]
  rw [h_zero, zero_mul, zero_add, poly_bitsOf, h_xor] at h_dvd
  rw [length_bitsOf, poly_bitsOf]
  convert h_dvd using 1
  ring

/-- **The table does eight steps at once.** -/
theorem crc7Loop_eq (c : BitVec 7) (bs : List UInt8) :
    crc7Loop (left c) bs = left (shiftAll poly7 c (bitsOfBytes bs)) := by
  induction bs generalizing c with
  | nil => rfl
  | cons b bs ih =>
    have h_index : ((left c >>> 0) ^^^ b) &&& 0xff = left c ^^^ b := by
      rw [UInt8.shiftRight_zero]
      exact UInt8.and_neg_one
    -- an entry of the table is what eight shifts do
    have h_entry : crcTable.getD (left c ^^^ b).toNat 0 =
        left (shiftAll poly7 c (bitsOf b.toBitVec)) := by
      rw [crcTable_getD, shiftAll_left c]
      rfl
    -- the bits of the bytes are those of the first one and of the rest
    have h_split : shiftAll poly7 c (bitsOfBytes (b :: bs)) =
        shiftAll poly7 (shiftAll poly7 c (bitsOf b.toBitVec)) (bitsOfBytes bs) := by
      rw [bitsOfBytes, List.flatMap_cons, shiftAll, List.foldl_append]
      rfl
    rw [crc7Loop, h_index, h_entry, (left_masked c).1, UInt8.xor_zero, (left_masked _).2, ih,
      h_split]

theorem length_bitsOfBytes (bs : List UInt8) : (bitsOfBytes bs).length = 8 * bs.length := by
  induction bs with
  | nil => rfl
  | cons b bs ih =>
    rw [bitsOfBytes, List.flatMap_cons, List.length_append, length_bitsOf, List.length_cons]
    rw [bitsOfBytes] at ih
    omega

/-- The bits in front of the last one are a code word. -/
theorem mmcLlSendHeader_codeword (cmd : UInt8) (arg : UInt32) :
    ∃ bits, bitsOfBytes (mmcLlSendHeader cmd arg) = bits ++ [true] ∧ bits.length = 47 ∧
      generator poly7 ∣ poly bits := by
  have h_zero : crc7Init = left 0 := rfl
  let buf := [0x40 ||| cmd, (arg >>> 24).toUInt8, (arg >>> 16).toUInt8, (arg >>> 8).toUInt8,
    arg.toUInt8]
  refine ⟨bitsOfBytes buf ++ bitsOf (shiftAll poly7 0 (bitsOfBytes buf)), ?_, ?_,
    dvd_codeword poly7 (by decide) _⟩
  · show bitsOfBytes (buf ++ [(crc7Finalize (crc7Update crc7Init buf) <<< 1) ||| 0x01]) = _
    rw [crc7Update, h_zero, crc7Loop_eq, (left_masked _).2, last_byte, bitsOfBytes,
      List.flatMap_append, List.flatMap_singleton, bitsOf_concat, ← List.append_assoc]
    rfl
  · rw [List.length_append, length_bitsOfBytes, length_bitsOf]
    rfl

/-- The powers of `X` up to the length of a frame. -/
theorem order_poly7 :
    ∀ d, 1 ≤ d → d < 47 → shiftAll poly7 1 (List.replicate d false) ≠ 1 := by
  decide +kernel

/-- **What a card can notice.** The 48 bits of a command end with a 1, and the ones in front of it
are a multiple of `X ^ 7 + X ^ 3 + 1`. What has one or two wrong bits is no multiple, and neither
is what has a burst of wrong bits within seven. -/
theorem mmc_header_detects (cmd : UInt8) (arg : UInt32) :
    ∃ bits, bitsOfBytes (mmcLlSendHeader cmd arg) = bits ++ [true] ∧ bits.length = 47 ∧
      (X ^ 7 + X ^ 3 + 1 : (ZMod 2)[X]) ∣ poly bits ∧
      (∀ e, e.length = 47 → 1 ≤ e.count true → e.count true ≤ 2 →
        ¬(X ^ 7 + X ^ 3 + 1 : (ZMod 2)[X]) ∣ poly (List.zipWith xor bits e)) ∧
      ∀ i b k, i + b.length + k = 47 → b.length ≤ 7 → true ∈ b →
        ¬(X ^ 7 + X ^ 3 + 1 : (ZMod 2)[X]) ∣
          poly (List.zipWith xor bits (List.replicate i false ++ b ++ List.replicate k false)) := by
  obtain ⟨bits, h_frame, h_length, h_dvd⟩ := mmcLlSendHeader_codeword cmd arg
  -- what is received is a multiple exactly if the errors are one
  have h_errors (e : List Bool) (he : e.length = 47) (h_not : ¬generator poly7 ∣ poly e) :
      ¬generator poly7 ∣ poly (List.zipWith xor bits e) := by
    rw [poly_zipWith_xor (h_length.trans he.symm), dvd_add_right h_dvd]
    exact h_not
  rw [← generator_poly7]
  refine ⟨bits, h_frame, h_length, h_dvd, ?_, ?_⟩
  · intro e he h_pos h_le
    exact h_errors e he (not_dvd_of_errors (by decide) (by decide) order_poly7 he.le h_pos h_le)
  · intro i b k h_sum h_le h_wrong
    refine h_errors _ ?_ (not_dvd_of_burst (by decide) (by decide) h_le h_wrong)
    rw [List.length_append, List.length_append, List.length_replicate, List.length_replicate, h_sum]

end Mmc

end Laureline
