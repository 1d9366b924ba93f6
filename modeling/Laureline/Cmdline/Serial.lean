import Laureline.Cmdline.Editor
import Laureline.Cmdline.RoundTrip

/-!
# The serial number

`fsnum.py` prints a command line for a serial number, `cli_cmd_fsnum` stores what it says in
`snum`, and `cli_print_serial` prints the number. The hardware version is packed in
little-endian order and the serial number in big-endian order.

* `encodeHex_hexText` — what was printed in hexadecimal is stored;
* `digitLoop_eq` — the digits are filled in from the right;
* `fsnum_serial` — from the host to what the device prints.
-/

namespace Laureline
namespace Cmdline

open Bytes

/-! ### fsnum.py -/

/-- `.encode('hex')`. -/
def encodeHex (bs : List UInt8) : List UInt8 := bs.flatMap fun b => fmt02x b.toNat

/-- The hardware version of the command line. -/
def hwver : ℕ := 0x0701

/-- `struct.pack('<H', hwver) + struct.pack('>Q', serial)[2:]`. -/
def pack (serial : ℕ) : List UInt8 := le 2 hwver ++ (le 8 serial).reverse.drop 2

/-- The command line that `fsnum.py` prints, without its newline. -/
def fsnum (serial : ℕ) : List UInt8 := ascii "fsnum" ++ 0x20 :: encodeHex (pack serial)

/-! ### The device -/

/-- `snumv2_t`, which is packed. -/
structure Snum where
  bytes : List UInt8
  h_size : bytes.length = 8

/-- `snum.hwver`. -/
def Snum.hwver (snum : Snum) : ℕ := ofLe (slice 0 2 snum.bytes)

/-- `snum.serial`. -/
def Snum.serial (snum : Snum) : List UInt8 := slice 2 6 snum.bytes

theorem length_hexText (n : ℕ) (str : List UInt8) : (hexText n str).length = n := by
  induction n, str using hexText.induct with
  | case1 => rfl
  | case2 n hi lo str ih => rw [hexText, List.length_cons, ih]
  | case3 n str h_short => rw [hexText.eq_3 str n h_short, List.length_replicate]

/-- `cli_cmd_fsnum`: `cliSetVar` for the eight bytes of `snum`. They are then written to the page 0
of the EEPROM, and printed if that succeeds. -/
def cliCmdFsnum (cmdline : List UInt8) : Snum := ⟨hexText 8 cmdline, length_hexText 8 cmdline⟩

/-- `snum` after calls from the console. No other command stores to it. -/
def Snum.after (snum : Snum) (calls : List (Command × List UInt8)) : Snum :=
  calls.foldl (fun snum call => if call.1 = .cliCmdFsnum then cliCmdFsnum call.2 else snum) snum

/-- `formatted`, with the indices at which it has been written. -/
structure Formatted where
  chars : Vector UInt8 16
  written : List ℕ

/-- `formatted[i] = c`. -/
def Formatted.store (f : Formatted) (i : ℕ) (c : UInt8) : Formatted :=
  ⟨f.chars.setIfInBounds i c, f.written ++ [i]⟩

/-- `strcpy` from the index `i` on. -/
def Formatted.strcpy (f : Formatted) (i : ℕ) : List UInt8 → Formatted
  | [] => f.store i 0
  | c :: s => (f.store i c).strcpy (i + 1) s

/-- The loop that fills in the digits, from the index before `i` down. The second result is
`ptr`. -/
def digitLoop : ℕ → ℕ → Formatted → Formatted × ℕ
  | 0, _, f => (f, 0)
  | i + 1, serial, f =>
    let f := f.store i (UInt8.ofNat (0x30 + serial % 10))
    let serial := serial / 10
    if serial = 0 then (f, i) else digitLoop i serial f

/-- The loop over `snum.serial`: `serial`. -/
def serialOf (bs : List UInt8) : ℕ :=
  bs.foldl (fun serial b => serial <<< 8 % 2 ^ 64 ||| b.toNat) 0

/-- `cli_print_serial`, on what is in `formatted` before. The second result is printed. -/
def cliPrintSerial (snum : Snum) (chars : Vector UInt8 16) : Formatted × List UInt8 :=
  let r :=
    if snum.serial.all (· == 0xFF) then ((Formatted.mk chars []).strcpy 0 (ascii "not set!"), 0)
    else
      let r := digitLoop 15 (serialOf snum.serial) ⟨chars, []⟩
      (r.1.store 15 0, r.2)
  (r.1, cliPrintf (ascii "Serial number:  " ++ cstr r.1.chars.toList r.2 ++ ascii "\r\n"))

/-! ### Packing and storing -/

theorem encodeHex_hexText (bs : List UInt8) : hexText bs.length (encodeHex bs) = bs := by
  have h_print : encodeHex bs = bs.flatMap fun b => cliPrintf (fmt02x b.toNat) := by
    refine List.flatMap_congr fun b _ => (cliPrintf_of_short ?_).symm
    rw [fmt02x_eq]
    exact (by decide : 2 < 64)
  rw [h_print, hexText_print]

theorem length_pack (serial : ℕ) : (pack serial).length = 8 := rfl

theorem pack_serial (serial : ℕ) : slice 2 6 (pack serial) = (le 6 serial).reverse := rfl

/-- What `fsnum.py` packs is stored. -/
theorem cliCmdFsnum_pack (serial : ℕ) :
    (cliCmdFsnum (encodeHex (pack serial))).bytes = pack serial :=
  encodeHex_hexText (pack serial)

/-- Eight bytes fit into `serial`. -/
theorem serialOf_eq {bs : List UInt8} (h : bs.length ≤ 8) : serialOf bs = ofBe bs := by
  induction bs using List.reverseRecOn with
  | nil => rfl
  | append_singleton bs b ih =>
    rw [List.length_append, List.length_singleton] at h
    have h_lt : ofBe bs < 2 ^ 56 :=
      (ofBe_lt bs).trans_le (Nat.pow_le_pow_right (by decide) (by omega : bs.length ≤ 7))
    have h_fits : ofBe bs <<< 8 % 2 ^ 64 = ofBe bs <<< 8 := by
      rw [Nat.shiftLeft_eq]
      omega
    rw [serialOf, List.foldl_append, ← serialOf, ih (by omega)]
    simp only [List.foldl_cons, List.foldl_nil]
    rw [h_fits, shift_octet b.toNat_lt, ofBe_append]
    simp [ofBe]

/-- Six bytes of 255 are the largest number that they hold. -/
theorem all_ff {bs : List UInt8} (h_size : bs.length = 6) (h : ofBe bs < 2 ^ 48 - 1) :
    bs.all (· == 0xFF) = false := by
  rw [Bool.eq_false_iff]
  intro h_all
  have h_bytes : bs = List.replicate 6 0xFF := by
    refine List.eq_replicate_iff.mpr ⟨h_size, fun b h_b => ?_⟩
    exact beq_iff_eq.mp (List.all_eq_true.mp h_all b h_b)
  rw [h_bytes] at h
  exact absurd h (by decide)

/-! ### Printing -/

/-- The decimal representation. -/
def decimal (n : ℕ) : List UInt8 := ascii n.repr

theorem digitChar_toNat : ∀ d < 10, UInt8.ofNat (Nat.digitChar d).toNat = UInt8.ofNat (0x30 + d) :=
  by decide

theorem decimal_snoc (n : ℕ) :
    decimal n = (if n / 10 = 0 then [] else decimal (n / 10)) ++ [UInt8.ofNat (0x30 + n % 10)] := by
  have h_digit := digitChar_toNat (n % 10) (Nat.mod_lt n (by decide))
  unfold decimal ascii
  rw [Nat.toList_repr, Nat.toList_repr]
  by_cases h : n < 10
  · rw [Nat.toDigits_of_lt_base h, if_pos (Nat.div_eq_of_lt h), ← h_digit, Nat.mod_eq_of_lt h]
    rfl
  · rw [Nat.toDigits_of_base_le (by decide) (by omega), if_neg (by omega), List.map_append,
      ← h_digit]
    rfl

theorem decimal_ne_zero (n : ℕ) : ∀ c ∈ decimal n, c ≠ 0 := by
  induction n using Nat.strong_induction_on with
  | h n ih =>
    have h_digit : ∀ d < 10, UInt8.ofNat (0x30 + d) ≠ 0 := by decide
    intro c h_c
    rw [decimal_snoc] at h_c
    rcases List.mem_append.mp h_c with h_c | h_c
    · split_ifs at h_c with h_last
      · exact absurd h_c List.not_mem_nil
      · exact ih (n / 10) (by omega) c h_c
    · rw [List.mem_singleton.mp h_c]
      exact h_digit (n % 10) (Nat.mod_lt n (by decide))

/-- **The digit loop.** It stops at the first digit of the number. -/
theorem digitLoop_eq {i serial : ℕ} (h_i : i ≤ 15) (h_pos : 0 < i) (h : serial < 10 ^ i)
    (f : Formatted) :
    let r := digitLoop i serial f
    r.2 < i ∧ r.1.chars.toList.drop r.2 = decimal serial ++ f.chars.toList.drop i ∧
      ∃ ws, r.1.written = f.written ++ ws ∧ ∀ k ∈ ws, k < i := by
  induction i generalizing serial f with
  | zero => exact absurd h_pos (Nat.lt_irrefl 0)
  | succ i ih =>
    generalize h_c : UInt8.ofNat (0x30 + serial % 10) = c
    have h_size : i < f.chars.toList.length := by
      rw [Vector.length_toList]
      omega
    have h_store : (f.store i c).chars.toList.drop i = c :: f.chars.toList.drop (i + 1) := by
      rw [Formatted.store, Vector.toList_setIfInBounds,
        List.drop_eq_getElem_cons (by rwa [List.length_set]), List.getElem_set_self,
        List.drop_set_of_lt (Nat.lt_succ_self i)]
    rw [decimal_snoc, h_c, digitLoop, h_c]
    dsimp only
    split_ifs with h_last
    · -- the first digit of the number
      refine ⟨Nat.lt_succ_self i, h_store, [i], rfl, fun k h_k => ?_⟩
      rw [List.mem_singleton.mp h_k]
      exact Nat.lt_succ_self i
    · -- more digits before this one: there is room, since the rest is below `10 ^ i`
      have h_pos' : 0 < i := by
        rcases Nat.eq_zero_or_pos i with rfl | h_pos'
        · omega
        · exact h_pos'
      have h_less : serial / 10 < 10 ^ i := by
        rw [pow_succ] at h
        omega
      obtain ⟨h_ptr, h_chars, ws, h_ws, h_lt⟩ := ih (by omega) h_pos' h_less (f.store i c)
      refine ⟨Nat.lt_succ_of_lt h_ptr, ?_, i :: ws, ?_, ?_⟩
      · rw [h_chars, h_store, List.append_assoc, List.singleton_append]
      · rw [h_ws, Formatted.store, List.append_assoc, List.singleton_append]
      · rintro k (_ | ⟨_, h_k⟩)
        · exact Nat.lt_succ_self i
        · exact Nat.lt_succ_of_lt (h_lt k h_k)

/-- What is printed for six bytes that are not all 255. -/
theorem cliPrintSerial_eq {snum : Snum} {n : ℕ} (h_n : ofBe snum.serial = n)
    (h : n < 2 ^ 48 - 1) (chars : Vector UInt8 16) :
    let r := cliPrintSerial snum chars
    r.2 = ascii "Serial number:  " ++ decimal n ++ ascii "\r\n" ∧ ∀ k ∈ r.1.written, k < 16 := by
  have h_size : snum.serial.length = 6 := by
    rw [Snum.serial, length_slice, snum.h_size]
    rfl
  have h_serial : serialOf snum.serial = n := (serialOf_eq (by omega)).trans h_n
  obtain ⟨h_ptr, h_chars, ws, h_ws, h_lt⟩ := digitLoop_eq (Nat.le_refl 15) (by decide)
    (by omega : n < 10 ^ 15) ⟨chars, []⟩
  simp only [cliPrintSerial, all_ff h_size (h_n ▸ h), Bool.false_eq_true, if_false, h_serial]
  generalize digitLoop 15 n ⟨chars, []⟩ = r at h_ptr h_chars h_ws
  obtain ⟨f, ptr⟩ := r
  dsimp only at h_ptr h_chars h_ws ⊢
  -- the digits end before the last byte, which becomes a NUL
  obtain ⟨last, h_last⟩ : ∃ last, chars.toList.drop 15 = [last] := by
    refine List.length_eq_one_iff.mp ?_
    rw [List.length_drop, Vector.length_toList]
  rw [h_last] at h_chars
  have h_length := congrArg List.length h_chars
  rw [List.length_drop, Vector.length_toList, List.length_append, List.length_singleton] at h_length
  have h_nul : (f.store 15 0).chars.toList.drop ptr = decimal n ++ 0 :: [] := by
    rw [Formatted.store, Vector.toList_setIfInBounds, List.drop_set, if_neg (by omega), h_chars,
      show 15 - ptr = (decimal n).length by omega,
      List.set_append_right _ _ (Nat.le_refl _), Nat.sub_self]
    rfl
  refine ⟨?_, fun k h_k => ?_⟩
  · rw [cstr, h_nul, text_append_nul (fun h_zero => decimal_ne_zero n 0 h_zero rfl)]
    refine cliPrintf_of_short ?_
    have h_front : (ascii "Serial number:  ").length = 16 := by decide
    have h_back : (ascii "\r\n").length = 2 := by decide
    rw [List.length_append, List.length_append, h_front, h_back]
    omega
  · rw [Formatted.store, h_ws] at h_k
    rcases List.mem_append.mp h_k with h_k | h_k
    · exact Nat.lt_succ_of_lt (h_lt k h_k)
    · rw [List.mem_singleton.mp h_k]
      decide

/-! ### From the host to the device -/

theorem length_encodeHex (bs : List UInt8) : (encodeHex bs).length = 2 * bs.length := by
  induction bs with
  | nil => rfl
  | cons b bs ih =>
    have h_cons : encodeHex (b :: bs) = fmt02x b.toNat ++ encodeHex bs := rfl
    rw [h_cons, fmt02x_eq, List.length_append, ih, List.length_cons]
    exact Nat.add_comm 2 (2 * bs.length)

theorem printable_encodeHex (bs : List UInt8) : ∀ c ∈ encodeHex bs, Printable c := by
  have h_digit : ∀ d < 16, Printable (digitChar d) := by decide
  intro c h_c
  obtain ⟨b, -, h_c⟩ := List.mem_flatMap.mp h_c
  have h_byte := b.toNat_lt
  rw [fmt02x_eq] at h_c
  rcases List.mem_pair.mp h_c with rfl | rfl
  · exact h_digit _ (by omega)
  · exact h_digit _ (by omega)

theorem typed_fsnum (n : ℕ) : Typed (fsnum n) where
  printable c h_c := by
    have h_word : ∀ c ∈ ascii "fsnum" ++ [0x20], Printable c :=
      @of_decide_eq_true _ (List.decidableBAll _ _) rfl
    rw [fsnum, List.append_cons] at h_c
    exact (List.mem_append.mp h_c).elim (h_word c) (printable_encodeHex (pack n) c)
  word := by
    show some _ ≠ some _
    decide
  short := by
    have h_word : (ascii "fsnum").length = 5 := by decide
    rw [fsnum, List.length_append, List.length_cons, h_word, length_encodeHex, length_pack]
    decide

theorem callOf_fsnum (n : ℕ) : callOf (fsnum n) = some (.cliCmdFsnum, encodeHex (pack n)) := by
  rfl

/-- **The serial number.** The command line of `fsnum.py`, typed at a prompt, stores the hardware
version, and the serial number is then printed as it was given. -/
theorem fsnum_serial {n : ℕ} (h : n < 2 ^ 48 - 1) {s : Cli} (h_on : s.clEnabled = true)
    (h_empty : s.clCount = 0) {c : UInt8} (h_key : IsEnter c) (snum : Snum)
    (chars : Vector UInt8 16) :
    let snum' := snum.after (s.run (fsnum n ++ [c])).calls
    let r := cliPrintSerial snum' chars
    snum'.hwver = 0x0701 ∧ r.2 = ascii "Serial number:  " ++ decimal n ++ ascii "\r\n" ∧
      ∀ k ∈ r.1.written, k < 16 := by
  have h_calls := run_typed h_on h_empty (typed_fsnum n) (by simp [fsnum]) h_key
  rw [callOf_fsnum] at h_calls
  have h_bytes := cliCmdFsnum_pack n
  -- the line is one call of the command, and none of the others stores to `snum`
  have h_after : snum.after (s.run (fsnum n ++ [c])).calls = cliCmdFsnum (encodeHex (pack n)) := by
    rw [h_calls, Snum.after, List.foldl_append]
    rfl
  dsimp only
  rw [h_after]
  refine ⟨?_, cliPrintSerial_eq ?_ h chars⟩
  · rw [Snum.hwver, h_bytes]
    rfl
  · rw [Snum.serial, h_bytes, pack_serial, ofBe_eq, List.reverse_reverse, ofLe_le]
    omega

/-- The largest serial number, over eight bytes of 255. -/
theorem fsnum_serial_largest :
    let snum' := (Snum.mk (List.replicate 8 0xFF) rfl).after
      ((Cli.powerUp true).run (fsnum (2 ^ 48 - 2) ++ [0x0A])).calls
    let r := cliPrintSerial snum' (Vector.replicate 16 0xAA)
    snum'.hwver = 0x0701 ∧
      r.2 = ascii "Serial number:  " ++ decimal (2 ^ 48 - 2) ++ ascii "\r\n" ∧
      ∀ k ∈ r.1.written, k < 16 :=
  fsnum_serial (by decide) rfl rfl (Or.inr rfl) _ _

end Cmdline
end Laureline
