import Laureline.Cmdline.Settings
import Laureline.Util.Numerals
import Mathlib.Data.Nat.Bitwise

/-!
# What is printed is stored again

`cliSetVar` on the text of `cliPrintVar`, for every setting in the table.

* `atoiDecimal_fmtU`, `ip4Text_print`, `ip6Text_print`, `hexText_print` — one lemma for each
  format, against the digits of `Lib.Digits`;
* `cliSetVar_print` — every setting but the flags: the bytes are stored as they were;
* `flagText_print` — the flags: one bit is stored, and the others stay;
* `cliSetVar_cliPrintVar` — the table.
-/

namespace Laureline
namespace Cmdline

open Bytes Digits

/-! ### Digits -/

theorem isDigit_digitChar : ∀ d < 10, isDigit (digitChar d) = true ∧
    (digitChar d - 0x30).toNat = d ∧ digitChar d ≠ 0x2E := by decide

theorem parseHex_digitChar : ∀ d < 16, parseHex (digitChar d) = UInt8.ofNat d ∧
    (parseHex (digitChar d)).toNat = d ∧ digitChar d ≠ 0x3A := by decide

/-- A hexadecimal digit that is shifted in. -/
theorem shift_or {a d : ℕ} (h : d < 16) : a <<< 4 ||| d = a * 16 + d := by
  rw [← Nat.shiftLeft_add_eq_or_of_lt (i := 4) h, Nat.shiftLeft_eq]

/-- The longest texts still fit into the buffer of `serial_printf`. -/
theorem cliPrintf_of_short {text : List UInt8} (h : text.length < 64) : cliPrintf text = text :=
  if_pos h

theorem length_sepBy_le {sep : UInt8} {k : ℕ} {ts : List (List UInt8)}
    (h : ∀ t ∈ ts, t.length ≤ k) : (sepBy sep ts).length ≤ ts.length * (k + 1) := by
  induction ts with
  | nil => exact Nat.zero_le _
  | cons t ts ih =>
    have h_t := h t List.mem_cons_self
    have h_ts := ih fun t ht => h t (List.mem_cons_of_mem _ ht)
    cases ts with
    | nil =>
      show t.length ≤ 1 * (k + 1)
      omega
    | cons t' ts =>
      show (t ++ sep :: sepBy sep (t' :: ts)).length ≤ ((t' :: ts).length + 1) * (k + 1)
      rw [List.length_append, List.length_cons, Nat.succ_mul]
      omega

theorem length_fmtU_le {n k : ℕ} (hk : 0 < k) (h : n < 10 ^ k) : (fmtU n).length ≤ k := by
  rw [fmtU, List.length_map]
  exact length_digitsBe_le (by decide) hk h

theorem length_fmtX_le {n k : ℕ} (hk : 0 < k) (h : n < 16 ^ k) : (fmtX n).length ≤ k := by
  rw [fmtX, List.length_map]
  exact length_digitsBe_le (by decide) hk h

/-! ### Decimal numbers -/

theorem atoiDecimalFrom_digits {ds : List ℕ} (h : ∀ d ∈ ds, d < 10) (ret : ℕ) :
    atoiDecimalFrom ret (ds.map digitChar) = valueMod 10 (2 ^ 32) ret ds := by
  have h_digits : ∀ c ∈ ds.map digitChar, isDigit c = true := by
    intro c h_c
    obtain ⟨d, h_d, rfl⟩ := List.mem_map.mp h_c
    exact (isDigit_digitChar d (h d h_d)).1
  have h_values : (ds.map digitChar).map (fun c => (c - 0x30).toNat) = ds := by
    rw [List.map_map]
    exact (List.map_congr_left fun d h_d => (isDigit_digitChar d (h d h_d)).2.1).trans ds.map_id
  rw [atoiDecimalFrom_eq h_digits, h_values]

theorem atoiDecimal_fmtU {n : ℕ} (h : n < 2 ^ 32) : atoiDecimal (fmtU n) = n := by
  rw [atoiDecimal, fmtU, atoiDecimalFrom_digits fun d hd => lt_of_mem_digitsBe (by decide) hd,
    valueMod_digitsBe h]

/-! ### IPv4 addresses -/

theorem ip4Text_digits {ds : List ℕ} (h : ∀ d ∈ ds, d < 10) (val val2 : ℕ) (rest : List UInt8) :
    ip4Text val val2 (ds.map digitChar ++ rest) =
      ip4Text val (valueMod 10 (2 ^ 8) val2 ds) rest := by
  induction ds generalizing val2 with
  | nil => rfl
  | cons d ds ih =>
    obtain ⟨h_digit, h_value, h_dot⟩ := isDigit_digitChar d (h d List.mem_cons_self)
    rw [List.map_cons, List.cons_append, ip4Text, if_neg h_dot, if_pos h_digit, h_value,
      ih fun d hd => h d (List.mem_cons_of_mem _ hd)]
    rfl

/-- An octet. -/
theorem ip4Text_fmtU {n : ℕ} (h : n < 2 ^ 8) (val : ℕ) (rest : List UInt8) :
    ip4Text val 0 (fmtU n ++ rest) = ip4Text val n rest := by
  rw [fmtU, ip4Text_digits fun d hd => lt_of_mem_digitsBe (by decide) hd, valueMod_digitsBe h]

/-- An octet that is shifted in. -/
theorem shift_octet {a d : ℕ} (h : d < 2 ^ 8) : a <<< 8 ||| d = a * 256 + d := by
  rw [← Nat.shiftLeft_add_eq_or_of_lt (i := 8) h, Nat.shiftLeft_eq]

/-- The octet and its dot. -/
theorem ip4Text_dot {n : ℕ} (h : n < 2 ^ 8) (val : ℕ) (rest : List UInt8) :
    ip4Text val 0 (fmtU n ++ 0x2E :: rest) = ip4Text ((val * 256 + n) % 2 ^ 32) 0 rest := by
  rw [ip4Text_fmtU h, ip4Text, if_pos rfl, shift_octet h]

/-- Four octets. -/
theorem ip4Text_print {a b c d : ℕ} (ha : a < 256) (hb : b < 256) (hc : c < 256) (hd : d < 256) :
    ip4Text 0 0 (sepBy 0x2E [fmtU a, fmtU b, fmtU c, fmtU d]) =
      ((a * 256 + b) * 256 + c, d) := by
  simp only [sepBy]
  rw [ip4Text_dot ha, ip4Text_dot hb, ip4Text_dot hc, ← List.append_nil (fmtU d),
    ip4Text_fmtU hd, ip4Text]
  congr 1
  omega

/-! ### IPv6 addresses -/

theorem modify_length {done ws : List ℕ} {w : ℕ} (f : ℕ → ℕ) :
    (done ++ w :: ws).modify done.length f = done ++ f w :: ws := by
  induction done with
  | nil => rfl
  | cons d done ih => rw [List.cons_append, List.length_cons, List.modify_succ_cons, ih]; rfl

theorem ip6Text_digits {ds : List ℕ} (h : ∀ d ∈ ds, d < 16) (done ws : List ℕ) (w : ℕ)
    (rest : List UInt8) :
    ip6Text done.length (done ++ w :: ws) (ds.map digitChar ++ rest) =
      ip6Text done.length (done ++ valueMod 16 (2 ^ 16) w ds :: ws) rest := by
  induction ds generalizing w with
  | nil => rfl
  | cons d ds ih =>
    have h_d := h d List.mem_cons_self
    obtain ⟨-, h_value, h_colon⟩ := parseHex_digitChar d h_d
    rw [List.map_cons, List.cons_append, ip6Text, if_neg h_colon, modify_length, h_value,
      shift_or h_d, ih fun d hd => h d (List.mem_cons_of_mem _ hd)]
    rfl

/-- A group. -/
theorem ip6Text_fmtX {n : ℕ} (h : n < 2 ^ 16) (done ws : List ℕ) (rest : List UInt8) :
    ip6Text done.length (done ++ 0 :: ws) (fmtX n ++ rest) =
      ip6Text done.length (done ++ n :: ws) rest := by
  rw [fmtX, ip6Text_digits fun d hd => lt_of_mem_digitsBe (by decide) hd, valueMod_digitsBe h]

/-- The groups that are left. -/
theorem ip6Text_print {gs : List ℕ} (h : ∀ g ∈ gs, g < 2 ^ 16) (h_ne : gs ≠ []) (done : List ℕ)
    (h_eight : done.length + gs.length = 8) :
    ip6Text done.length (done ++ List.replicate gs.length 0) (sepBy 0x3A (gs.map fmtX)) =
      done ++ gs := by
  induction gs generalizing done with
  | nil => exact absurd rfl h_ne
  | cons g gs ih =>
    have h_g := h g List.mem_cons_self
    cases gs with
    | nil =>
      show ip6Text done.length (done ++ 0 :: []) (fmtX g) = _
      rw [← List.append_nil (fmtX g), ip6Text_fmtX h_g, ip6Text]
    | cons g' gs =>
      -- the colon behind the group goes to the next word, which is still 0
      have h_length : (done ++ [g]).length = done.length + 1 := by simp
      rw [List.length_cons] at h_eight
      have h_pos : 0 < (g' :: gs).length := Nat.succ_pos _
      show ip6Text done.length (done ++ 0 :: List.replicate (g' :: gs).length 0)
        (fmtX g ++ 0x3A :: sepBy 0x3A ((g' :: gs).map fmtX)) = _
      rw [ip6Text_fmtX h_g, ip6Text, if_pos rfl, if_neg (by omega)]
      have h_rest := ih (fun d hd => h d (List.mem_cons_of_mem _ hd)) (by simp) (done ++ [g])
        (by rw [h_length]; omega)
      rw [h_length, List.append_assoc, List.append_assoc] at h_rest
      exact h_rest

/-! ### Bytes -/

theorem fmt02x_eq (b : UInt8) :
    fmt02x b.toNat = [digitChar (b.toNat / 16), digitChar (b.toNat % 16)] := by
  have h_byte := b.toNat_lt
  by_cases h : b.toNat < 16
  · rw [fmt02x, fmtX, digitsBe_one h, Nat.div_eq_of_lt h, Nat.mod_eq_of_lt h]
    rfl
  · rw [fmt02x, fmtX, digitsBe_two (by omega) (by omega)]
    rfl

theorem nibbles : ∀ n < 256,
    UInt8.ofNat (n / 16) <<< 4 ||| UInt8.ofNat (n % 16) = UInt8.ofNat n := by
  decide +kernel

theorem hexText_print (bs : List UInt8) :
    hexText bs.length (bs.flatMap fun b => cliPrintf (fmt02x b.toNat)) = bs := by
  induction bs with
  | nil => rfl
  | cons b bs ih =>
    have h_byte := b.toNat_lt
    have h_hi := (parseHex_digitChar (b.toNat / 16) (by omega)).1
    have h_lo := (parseHex_digitChar (b.toNat % 16) (by omega)).1
    rw [List.flatMap_cons, fmt02x_eq, cliPrintf_of_short (by simp), List.length_cons,
      List.cons_append, List.cons_append, List.nil_append, hexText, ih, h_hi, h_lo,
      nibbles _ (by omega), UInt8.ofNat_toNat]

/-! ### Byte order -/

theorem htonl_ofLe {bs : List UInt8} (h : bs.length = 4) : htonl (ofLe bs) = ofBe bs := by
  rw [htonl, le_ofLe h]

/-- A number in network byte order. -/
theorem le_htonl {bs : List UInt8} (h : bs.length = 4) : le 4 (htonl (ofBe bs)) = bs := by
  have h_back : ofBe (le 4 (ofBe bs)) = ofLe bs := by
    rw [ofBe_eq bs, le_ofLe (by rw [List.length_reverse, h]), ofBe_eq, List.reverse_reverse]
  rw [htonl, h_back, le_ofLe h]

/-- The octets of an address. -/
theorem octets (a b c d : UInt8) :
    ofLe [a, b, c, d] &&& 0xFF = a.toNat ∧ ofLe [a, b, c, d] >>> 8 &&& 0xFF = b.toNat ∧
      ofLe [a, b, c, d] >>> 16 &&& 0xFF = c.toNat ∧
      ofLe [a, b, c, d] >>> 24 &&& 0xFF = d.toNat := by
  have h_and (n : ℕ) : n &&& 0xFF = n % 256 := Nat.and_two_pow_sub_one_eq_mod n 8
  have ha := a.toNat_lt
  have hb := b.toNat_lt
  have hc := c.toNat_lt
  have hd := d.toNat_lt
  simp only [h_and, Nat.shiftRight_eq_div_pow, ofLe]
  omega

/-- The text of an address, and the bytes that it is stored as. -/
theorem ip4_print {bs : List UInt8} (h : bs.length = 4) :
    let text := cliPrintf (sepBy 0x2E
      [fmtU (ofLe bs &&& 0xFF), fmtU (ofLe bs >>> 8 &&& 0xFF), fmtU (ofLe bs >>> 16 &&& 0xFF),
        fmtU (ofLe bs >>> 24 &&& 0xFF)])
    let val := ip4Text 0 0 text
    le 4 (htonl ((val.1 <<< 8 ||| val.2) % 2 ^ 32)) = bs := by
  match bs, h with
  | [a, b, c, d], _ =>
    have ha := a.toNat_lt
    have hb := b.toNat_lt
    have hc := c.toNat_lt
    have hd := d.toNat_lt
    -- four octets of at most three digits fit in the buffer of `cli_printf`
    have h_short : (sepBy 0x2E ([a, b, c, d].map fun x => fmtU x.toNat)).length < 64 := by
      refine Nat.lt_of_le_of_lt (length_sepBy_le (k := 3) fun t ht => ?_) (by simp)
      obtain ⟨x, -, rfl⟩ := List.mem_map.mp ht
      have h_octet := x.toNat_lt
      exact length_fmtU_le (by decide) (by omega)
    simp only [List.map_cons, List.map_nil] at h_short
    obtain ⟨h_1, h_2, h_3, h_4⟩ := octets a b c d
    dsimp only
    rw [h_1, h_2, h_3, h_4, cliPrintf_of_short h_short, ip4Text_print ha hb hc hd, shift_octet hd]
    -- what has been read are the octets from the highest on
    have h_be : (((a.toNat * 256 + b.toNat) * 256 + c.toNat) * 256 + d.toNat) % 2 ^ 32 =
        ofBe [a, b, c, d] := by
      simp only [ofBe, List.foldl_cons, List.foldl_nil]
      omega
    rw [h_be, le_htonl rfl]

/-- The two groups of a word. -/
theorem groups (a b c d : UInt8) :
    ofBe [a, b, c, d] >>> 16 &&& 0xFFFF = a.toNat * 256 + b.toNat ∧
      ofBe [a, b, c, d] &&& 0xFFFF = c.toNat * 256 + d.toNat := by
  have h_and (n : ℕ) : n &&& 0xFFFF = n % 65536 := Nat.and_two_pow_sub_one_eq_mod n 16
  have ha := a.toNat_lt
  have hb := b.toNat_lt
  have hc := c.toNat_lt
  have hd := d.toNat_lt
  simp only [h_and, Nat.shiftRight_eq_div_pow, ofBe, List.foldl_cons, List.foldl_nil]
  omega

/-- A word of an address is made of its groups again. -/
theorem htonl_groups {bs : List UInt8} (h : bs.length = 4) :
    le 4 (htonl ((htonl (ofLe bs) &&& 0xFFFF) |||
      (htonl (ofLe bs) >>> 16 &&& 0xFFFF) <<< 16)) = bs := by
  rw [htonl_ofLe h]
  match bs, h with
  | [a, b, c, d], _ =>
    have hc := c.toNat_lt
    have hd := d.toNat_lt
    obtain ⟨h_high, h_low⟩ := groups a b c d
    have h_lt : c.toNat * 256 + d.toNat < 2 ^ 16 := by omega
    have h_be : (a.toNat * 256 + b.toNat) * 2 ^ 16 + (c.toNat * 256 + d.toNat) =
        ofBe [a, b, c, d] := by
      simp only [ofBe, List.foldl_cons, List.foldl_nil]
      omega
    rw [h_high, h_low, Nat.or_comm, ← Nat.shiftLeft_add_eq_or_of_lt h_lt, Nat.shiftLeft_eq, h_be,
      le_htonl rfl]

/-- The groups that are printed are the ones that are read. -/
theorem ip6Text_blocks {addr : List ℕ} (h : addr.length = 4) :
    ip6Text 0 (List.replicate 8 0) (cliPrintf (sepBy 0x3A ((ip6AddrBlocks addr).map fmtX))) =
      ip6AddrBlocks addr := by
  have h_length : (ip6AddrBlocks addr).length = 8 := by
    match addr, h with
    | [_, _, _, _], _ => rfl
  have h_lt : ∀ g ∈ ip6AddrBlocks addr, g < 2 ^ 16 := by
    intro g hg
    obtain ⟨word, -, hg⟩ := List.mem_flatMap.mp hg
    have h_and (n : ℕ) : n &&& 0xFFFF = n % 65536 := Nat.and_two_pow_sub_one_eq_mod n 16
    simp only [h_and, List.mem_cons, List.not_mem_nil, or_false] at hg
    omega
  -- eight groups of four digits fit in the 64 bytes of the buffer
  have h_short : (sepBy 0x3A ((ip6AddrBlocks addr).map fmtX)).length < 64 := by
    refine Nat.lt_of_le_of_lt (length_sepBy_le (k := 4) fun t ht => ?_)
      (by rw [List.length_map, h_length]; decide)
    obtain ⟨g, hg, rfl⟩ := List.mem_map.mp ht
    exact length_fmtX_le (by decide) (h_lt g hg)
  have h_ne : ip6AddrBlocks addr ≠ [] := List.ne_nil_of_length_pos (by rw [h_length]; decide)
  have h_print := ip6Text_print h_lt h_ne [] (by rw [h_length]; rfl)
  rw [h_length, List.length_nil, List.nil_append, List.nil_append] at h_print
  rw [cliPrintf_of_short h_short, h_print]

/-- Four words of an object. -/
theorem load_words (c : Cfg) (off : ℕ) :
    c.load off 4 ++ c.load (off + 4) 4 ++ c.load (off + 8) 4 ++ c.load (off + 12) 4 =
      c.load off 16 := by
  simp only [Cfg.load]
  rw [slice_append_slice off 4 4, slice_append_slice off 8 4, slice_append_slice off 12 4]

/-! ### Flags -/

/-- A flag is stored, and the bits beside it stay. -/
theorem flagText_print (val : BitVec 32) (len : ℕ) (b : Bool) (mask : BitVec 32) :
    let val' := flagText val len (if b then ascii "true" else ascii "false")
    val' &&& BitVec.ofNat 32 len = (if b then BitVec.ofNat 32 len else 0#32) ∧
      (BitVec.ofNat 32 len &&& mask = 0#32 → val' &&& mask = val &&& mask) := by
  have h_true : flagText val len (ascii "true") = val ||| BitVec.ofNat 32 len := by
    rw [flagText, if_pos (by decide)]
  have h_false : flagText val len (ascii "false") = val &&& ~~~ BitVec.ofNat 32 len := by
    rw [flagText, if_neg (by decide), if_pos (by decide)]
  -- from here on the flag may be any mask; both parts hold bit by bit
  generalize BitVec.ofNat 32 len = flag at h_true h_false ⊢
  cases b with
  | true =>
    dsimp only
    rw [if_pos rfl, h_true, if_pos rfl]
    constructor
    · ext i hi
      simp only [BitVec.getElem_and, BitVec.getElem_or]
      grind
    · intro h_mask
      rw [BitVec.and_or_distrib_right, h_mask, BitVec.or_zero]
  | false =>
    dsimp only
    rw [if_neg (by decide), h_false, if_neg (by decide)]
    constructor
    · ext i hi
      simp
    · intro h_mask
      ext i hi
      have h_bit := congrArg (·[i]) h_mask
      simp only [BitVec.getElem_and, BitVec.getElem_zero, BitVec.getElem_not] at h_bit ⊢
      grind

/-! ### Settings -/

namespace CliValue

/-- The length of the object. -/
def size (var : CliValue) : ℕ :=
  match var.type with
  | .uint32 | .ip4 | .flag => 4
  | .uint16 => 2
  | .ip6 => 16
  | .hex => var.len

/-- The object lies in the configuration. -/
def Fits (var : CliValue) : Prop := var.ptr.offset + var.size ≤ cfgSize

/-- The bits of a flag, and nothing else. -/
def flag (var : CliValue) (c : Cfg) : BitVec 32 :=
  BitVec.ofNat 32 (load32 c var.ptr.offset) &&& BitVec.ofNat 32 var.len

/-- Two settings hold the same value. -/
def Same (var : CliValue) (c c' : Cfg) : Prop :=
  if var.type = .flag then var.flag c = var.flag c'
  else c.load var.ptr.offset var.size = c'.load var.ptr.offset var.size

/-- Two settings do not share a bit: their objects lie apart, or they are different flags of
one object. -/
def Apart (var var' : CliValue) : Prop :=
  var.ptr.offset + var.size ≤ var'.ptr.offset ∨ var'.ptr.offset + var'.size ≤ var.ptr.offset ∨
    (var.type = .flag ∧ var'.type = .flag ∧ var.ptr = var'.ptr ∧
      BitVec.ofNat 32 var.len &&& BitVec.ofNat 32 var'.len = 0#32)

instance (var : CliValue) : Decidable var.Fits := inferInstanceAs (Decidable (_ ≤ _))

instance (var var' : CliValue) : Decidable (var.Apart var') := inferInstanceAs (Decidable (_ ∨ _))

end CliValue

variable {var : CliValue} {v c : Cfg}

/-- **Every setting but the flags.** The bytes are stored as they were. -/
theorem cliSetVar_print (h_type : var.type ≠ .flag) (h_fits : var.Fits) :
    cliSetVar var (cliPrintVar var v) c =
      c.store var.ptr.offset (v.load var.ptr.offset var.size) := by
  unfold CliValue.Fits CliValue.size at h_fits
  unfold cliSetVar cliPrintVar CliValue.size
  cases h : var.type with
  | flag => exact absurd h h_type
  | uint32 =>
    rw [h] at h_fits
    have h_length : (v.load var.ptr.offset 4).length = 4 := Cfg.length_load h_fits
    have h_lt : load32 v var.ptr.offset < 2 ^ 32 := by
      have := ofLe_lt (v.load var.ptr.offset 4)
      rw [h_length] at this
      exact this
    -- ten digits at most, so nothing is cut off
    have h_short : (fmtU (load32 v var.ptr.offset)).length ≤ 10 :=
      length_fmtU_le (by decide) (by omega)
    dsimp only
    rw [cliPrintf_of_short (by omega), atoiDecimal_fmtU h_lt, load32, le_ofLe h_length]
  | uint16 =>
    rw [h] at h_fits
    have h_length : (v.load var.ptr.offset 2).length = 2 := Cfg.length_load h_fits
    have h_lt : ofLe (v.load var.ptr.offset 2) < 2 ^ 16 := by
      have := ofLe_lt (v.load var.ptr.offset 2)
      rw [h_length] at this
      exact this
    have h_short : (fmtU (ofLe (v.load var.ptr.offset 2))).length ≤ 5 :=
      length_fmtU_le (by decide) (by omega)
    dsimp only
    rw [cliPrintf_of_short (by omega), atoiDecimal_fmtU (by omega), le_ofLe h_length]
  | ip4 =>
    rw [h] at h_fits
    have h_text := ip4_print (Cfg.length_load (c := v) h_fits)
    dsimp only [load32] at h_text ⊢
    rw [h_text]
  | ip6 =>
    rw [h] at h_fits
    dsimp only at h_fits ⊢
    -- the four words of the address, each of which is made of its two groups again
    have h_word (k : ℕ) (hk : k ≤ 12) : (v.load (var.ptr.offset + k) 4).length = 4 :=
      Cfg.length_load (by omega)
    rw [ip6Text_blocks rfl]
    simp only [ip6AddrBlocks, List.flatMap_cons, List.flatMap_nil, List.cons_append,
      List.nil_append, List.getD_cons_zero, List.getD_cons_succ, Nat.mul_zero, load32]
    rw [htonl_groups (Cfg.length_load (by omega)), htonl_groups (h_word 4 (by omega)),
      htonl_groups (h_word 8 (by omega)), htonl_groups (h_word 12 (by omega)), load_words]
  | hex =>
    rw [h] at h_fits
    have h_length : (v.load var.ptr.offset var.len).length = var.len := Cfg.length_load h_fits
    have h_text := hexText_print (v.load var.ptr.offset var.len)
    rw [h_length] at h_text
    dsimp only
    rw [h_text]

/-- A single bit is there or not. -/
theorem single_bit (val k : ℕ) :
    BitVec.ofNat 32 val &&& BitVec.ofNat 32 (2 ^ k) =
      if val &&& 2 ^ k ≠ 0 then BitVec.ofNat 32 (2 ^ k) else 0#32 := by
  rw [← BitVec.ofNat_and, Nat.and_two_pow]
  cases val.testBit k <;> simp

/-- **The flags.** One bit is stored as it was; neither the other bits nor the other bytes
change. -/
theorem cliSetVar_print_flag (h_type : var.type = .flag) {k : ℕ}
    (h_bit : var.len = 2 ^ k) :
    ∃ val, cliSetVar var (cliPrintVar var v) c = c.store var.ptr.offset (le 4 val) ∧
      val < 2 ^ 32 ∧ BitVec.ofNat 32 val &&& BitVec.ofNat 32 var.len = var.flag v ∧
      ∀ mask, BitVec.ofNat 32 var.len &&& mask = 0#32 →
        BitVec.ofNat 32 val &&& mask = BitVec.ofNat 32 (load32 c var.ptr.offset) &&& mask := by
  -- a flag is printed as one of two words
  have h_print : cliPrintVar var v =
      if decide (load32 v var.ptr.offset &&& var.len ≠ 0) then ascii "true" else ascii "false" := by
    simp only [cliPrintVar, h_type, decide_eq_true_eq]
  -- which set or clear its bit and no other
  have h_text := flagText_print (BitVec.ofNat 32 (load32 c var.ptr.offset)) var.len
    (decide (load32 v var.ptr.offset &&& var.len ≠ 0))
  rw [← h_print] at h_text
  have h_set : cliSetVar var (cliPrintVar var v) c = c.store var.ptr.offset
      (le 4 (flagText (BitVec.ofNat 32 (load32 c var.ptr.offset)) var.len
        (cliPrintVar var v)).toNat) := by
    simp only [cliSetVar, h_type]
  refine ⟨_, h_set, BitVec.isLt _, ?_, fun mask h_mask => ?_⟩
  · rw [BitVec.ofNat_toNat, BitVec.setWidth_eq, (h_text 0#32).1, CliValue.flag, h_bit, single_bit]
    simp only [decide_eq_true_eq]
  · rw [BitVec.ofNat_toNat, BitVec.setWidth_eq, (h_text mask).2 h_mask]

/-- The settings of the table: they lie in the configuration, a flag is a single bit, and two
of them do not share a bit. -/
theorem valueTable_fits : ∀ var ∈ valueTable,
    var.Fits ∧ (var.type = .flag → ∃ k < 32, var.len = 2 ^ k) := by decide +kernel

theorem valueTable_apart : ∀ var ∈ valueTable, ∀ var' ∈ valueTable, var' ≠ var →
    var.Apart var' := by
  decide +kernel

namespace CliValue

/-- Equal objects hold equal values. -/
theorem same_of_load {c' : Cfg}
    (h : c'.load var.ptr.offset var.size = c.load var.ptr.offset var.size) : var.Same c' c := by
  unfold Same
  split
  · next h_type =>
    have h_size : var.size = 4 := by rw [size, h_type]
    rw [h_size] at h
    rw [flag, flag, load32, load32, h]
  · exact h

/-- The bits of a flag that the store of another one leaves. -/
def KeepsBits (var : CliValue) (c c' : Cfg) : Prop :=
  var.type = .flag → ∀ mask, BitVec.ofNat 32 var.len &&& mask = 0#32 →
    BitVec.ofNat 32 (load32 c' var.ptr.offset) &&& mask =
      BitVec.ofNat 32 (load32 c var.ptr.offset) &&& mask

/-- A setting that shares no bit with the one that is set. -/
theorem Apart.same {var' : CliValue} (h : var.Apart var') {xs : List UInt8}
    (h_length : xs.length = var.size) (h_bits : var.KeepsBits c (c.store var.ptr.offset xs)) :
    var'.Same (c.store var.ptr.offset xs) c := by
  rcases h with h | h | ⟨h_type, h_type', h_ptr, h_mask⟩
  · exact same_of_load (Cfg.load_store_of_disjoint (Or.inr (h_length ▸ h)))
  · exact same_of_load (Cfg.load_store_of_disjoint (Or.inl h))
  · rw [Same, if_pos h_type', flag, flag, ← h_ptr, h_bits h_type _ h_mask]

end CliValue

/-- Setting what was printed is one store. -/
theorem cliSetVar_store (h_fits : var.Fits) (h_bit : var.type = .flag → ∃ k < 32, var.len = 2 ^ k)
    (v c : Cfg) :
    ∃ xs, cliSetVar var (cliPrintVar var v) c = c.store var.ptr.offset xs ∧
      xs.length = var.size ∧ var.Same (c.store var.ptr.offset xs) v ∧
      var.KeepsBits c (c.store var.ptr.offset xs) := by
  by_cases h_type : var.type = .flag
  · -- a flag is stored with the rest of its word
    obtain ⟨k, -, h_len⟩ := h_bit h_type
    have h_size : var.size = 4 := by rw [CliValue.size, h_type]
    obtain ⟨val, h_set, h_lt, h_self, h_other⟩ :=
      cliSetVar_print_flag (v := v) (c := c) h_type h_len
    have h_room : var.ptr.offset + 4 ≤ cfgSize := h_size ▸ h_fits
    have h_val : load32 (c.store var.ptr.offset (le 4 val)) var.ptr.offset = val := by
      rw [load32, Cfg.load_store_self (length_le 4 val) h_room, ofLe_le]
      exact Nat.mod_eq_of_lt h_lt
    refine ⟨le 4 val, h_set, by rw [length_le, h_size], ?_, fun _ => ?_⟩
    · rw [CliValue.Same, if_pos h_type, CliValue.flag, h_val, h_self]
    · rw [h_val]; exact h_other
  · have h_length := Cfg.length_load (c := v) h_fits
    refine ⟨_, cliSetVar_print h_type h_fits, h_length, ?_, fun h => absurd h h_type⟩
    rw [CliValue.Same, if_neg h_type, Cfg.load_store_self h_length h_fits]

/-- **Printing and setting.** For every setting of the table and every value, calling
`cliSetVar` with the text of `cliPrintVar` stores the value again, whatever the configuration
held before. No other setting changes, in particular no other flag, and no byte outside the
object of the setting. -/
theorem cliSetVar_cliPrintVar {var : CliValue} (h : var ∈ valueTable) (v c : Cfg) :
    let c' := cliSetVar var (cliPrintVar var v) c
    var.Same c' v ∧ (∀ var' ∈ valueTable, var' ≠ var → var'.Same c' c) ∧ var.KeepsBits c c' ∧
      ∀ i, i < var.ptr.offset ∨ var.ptr.offset + var.size ≤ i → c'.bytes[i]? = c.bytes[i]? := by
  obtain ⟨h_fits, h_bit⟩ := valueTable_fits var h
  obtain ⟨xs, h_set, h_length, h_same, h_bits⟩ := cliSetVar_store h_fits h_bit v c
  dsimp only
  rw [h_set]
  refine ⟨h_same, fun var' h' h_ne => ?_, h_bits, fun i hi => ?_⟩
  · exact (valueTable_apart var h var' h' h_ne).same h_length h_bits
  · exact getElem?_store_of_disjoint (by rw [h_length]; exact hi)

/-- An address, over a configuration of zeroes. -/
theorem cliSetVar_cliPrintVar_ones :
    cliPrintVar ⟨ascii "syslog_ip", .ip4, .syslogIp, 0⟩ (Cfg.fill 1) = ascii "1.1.1.1" ∧
      (⟨ascii "syslog_ip", .ip4, .syslogIp, 0⟩ : CliValue).Same
        (cliSetVar ⟨ascii "syslog_ip", .ip4, .syslogIp, 0⟩ (ascii "1.1.1.1") (Cfg.fill 0))
        (Cfg.fill 1) := by
  have h_text : cliPrintVar ⟨ascii "syslog_ip", .ip4, .syslogIp, 0⟩ (Cfg.fill 1) =
      ascii "1.1.1.1" := by decide +kernel
  have h_mem : (⟨ascii "syslog_ip", .ip4, .syslogIp, 0⟩ : CliValue) ∈ valueTable := by decide
  have h_set := (cliSetVar_cliPrintVar h_mem (Cfg.fill 1) (Cfg.fill 0)).1
  rw [h_text] at h_set
  exact ⟨h_text, h_set⟩

end Cmdline
end Laureline
