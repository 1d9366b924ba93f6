import Mathlib.Tactic.Common
import Mathlib.Algebra.BigOperators.Group.List.Basic
import Mathlib.Algebra.Group.Nat.Defs
import Mathlib.Data.Nat.Basic
import Mathlib.Data.UInt
import Mathlib.Order.Basic

/-!
# The Intel HEX reader

`ihex.c`. `ihex_feed` takes the text in pieces and calls back for every data record. Its
variables are `Parser`; the callback has a state of its own.

Beside it stands what the text says: `lines` are its terminated lines, `decode` reads one
line, and `writes` are the data records before the EOF record with their addresses. An odd
last digit of a line is not looked at, by `decode` as by `ihex_feed`.

* `ihexFeed_append` — the pieces do not matter;
* `ihexFeed_eof` — a text that is read up to an EOF record has called back for its `writes`.
-/

namespace Laureline

namespace Ihex

/-! ### The parser -/

/-- `IHEX_CONTINUE`. -/
def ihexContinue : ℕ := 0

/-- `IHEX_EOF`. -/
def ihexEof : ℕ := 30

/-- `IHEX_INVALID`. -/
def ihexInvalid : ℕ := 31

/-- `IHEX_UNSUPPORTED`. -/
def ihexUnsupported : ℕ := 32

/-- `IHEX_CHECKSUM`. -/
def ihexChecksum : ℕ := 33

/-- What `ihex_feed` returns for a line that it does not take. -/
def ihexErrors : List ℕ := [ihexInvalid, ihexUnsupported, ihexChecksum]

theorem ihexErrors_ne {rv : ℕ} (h : rv ∈ ihexErrors) : rv ≠ 0 ∧ rv ≠ ihexEof := by
  revert rv
  decide

/-- `sizeof(ihex_buf)`. -/
def bufSize : ℕ := 70

/-- `ihex_state`. -/
inductive ParseState
  | start
  | copy1
  | copy2
deriving DecidableEq, Repr

/-- The variables of `ihex.c`. -/
structure Parser where
  base : ℕ
  buf : ℕ → UInt8
  cksum : UInt8
  count : ℕ
  state : ParseState

/-- After a reset. -/
def powerUp : Parser where
  base := 0
  buf _ := 0
  cksum := 0
  count := 0
  state := .start

/-- `ihex_init`. It leaves `ihex_base` as it is. -/
def Parser.init (p : Parser) : Parser := { p with state := .start, count := 0 }

/-- A line end, or a NUL between the lines. -/
def isEol (dat : UInt8) : Bool := dat = 13 ∨ dat = 10 ∨ dat = 0

/-- The value of a hexadecimal digit. -/
def nybble (dat : UInt8) : Option UInt8 :=
  if 48 ≤ dat ∧ dat ≤ 57 then some (dat - 48)
  else if 65 ≤ dat ∧ dat ≤ 70 then some (dat - 55)
  else if 97 ≤ dat ∧ dat ≤ 102 then some (dat - 87)
  else none

/-- `n` bytes of `ihex_buf` from the index `i` on. -/
def Parser.bytes (p : Parser) (i n : ℕ) : List UInt8 := (List.range n).map fun k => p.buf (i + k)

section Feed

variable {σ : Type*} (callback : σ → ℕ → List UInt8 → ℕ × σ)

/-- `switch (rtype)`. The result is what `ihex_feed` returns, or 0 if it goes on. -/
def switchType (p : Parser) (s : σ) : ℕ × Parser × σ :=
  let rsize := (p.buf 0).toNat
  let addr := 256 * (p.buf 1).toNat + (p.buf 2).toNat
  match (p.buf 3).toNat with
  | 0 =>
    let r := callback s ((addr + p.base) % 2 ^ 32) (p.bytes 4 rsize)
    (r.1, p, r.2)
  | 1 => (ihexEof, p, s)
  | 2 =>
    if rsize ≠ 2 then (ihexInvalid, p, s)
    else (0, { p with base := 2 ^ 12 * (p.buf 4).toNat + 2 ^ 4 * (p.buf 5).toNat }, s)
  | 4 =>
    if rsize ≠ 2 then (ihexInvalid, p, s)
    else (0, { p with base := 2 ^ 24 * (p.buf 4).toNat + 2 ^ 16 * (p.buf 5).toNat }, s)
  | 3 | 5 => (0, p, s)
  | _ => (ihexUnsupported, p, s)

/-- The end of a record. -/
def endRecord (p : Parser) (s : σ) : ℕ × Parser × σ :=
  let p := { p with state := .start }
  if p.count < 5 then (ihexInvalid, p, s)
  else if p.count ≠ 5 + (p.buf 0).toNat then (ihexInvalid, p, s)
  else if p.cksum ≠ 0 then (ihexChecksum, p, s)
  else switchType callback p s

/-- One pass of the loop of `ihex_feed`. -/
def ihexByte (p : Parser) (s : σ) (dat : UInt8) : ℕ × Parser × σ :=
  if isEol dat then
    if p.state = .start then (0, p, s) else endRecord callback p s
  else if p.state = .start then
    if dat ≠ 58 then (ihexInvalid, p, s)
    else (0, { p with state := .copy1, cksum := 0, count := 0 }, s)
  else
    match nybble dat with
    | none => (ihexInvalid, p, s)
    | some dat =>
      if p.state = .copy1 then
        if p.count ≥ bufSize then (ihexUnsupported, p, s)
        else (0, { p with buf := Function.update p.buf p.count (dat <<< 4), state := .copy2 }, s)
      else
        let byte := p.buf p.count ||| dat
        (0, { p with
          buf := Function.update p.buf p.count byte, cksum := p.cksum + byte
          count := p.count + 1, state := .copy1 }, s)

/-- `ihex_feed`. -/
def ihexFeed : Parser → σ → List UInt8 → ℕ × Parser × σ
  | p, s, [] => (ihexContinue, p, s)
  | p, s, dat :: inbuf =>
    let r := ihexByte callback p s dat
    if r.1 = 0 then ihexFeed r.2.1 r.2.2 inbuf else r

variable {callback} in
/-- What the callback preserves, a record preserves. -/
theorem switchType_invariant {I : σ → Prop}
    (h_callback : ∀ s addr bytes, addr < 2 ^ 32 → I s → I (callback s addr bytes).2) (p : Parser)
    {s : σ} (h : I s) : I (switchType callback p s).2.2 := by
  simp only [switchType]
  split
  · exact h_callback _ _ _ (Nat.mod_lt _ (by decide)) h
  · exact h
  · split_ifs <;> exact h
  · split_ifs <;> exact h
  · exact h
  · exact h
  · exact h

variable {callback} in
/-- What the callback preserves holds after every text. -/
theorem ihexFeed_invariant {I : σ → Prop}
    (h_callback : ∀ s addr bytes, addr < 2 ^ 32 → I s → I (callback s addr bytes).2) (p : Parser)
    {s : σ} (h : I s) (text : List UInt8) : I (ihexFeed callback p s text).2.2 := by
  induction text generalizing p s with
  | nil => exact h
  | cons dat text ih =>
    -- only the end of a line calls
    have h_end : I (endRecord callback p s).2.2 := by
      simp only [endRecord]
      split_ifs
      · exact h
      · exact h
      · exact h
      · exact switchType_invariant h_callback _ h
    have h_byte : I (ihexByte callback p s dat).2.2 := by
      unfold ihexByte
      cases nybble dat <;> split_ifs <;> first | exact h_end | exact h
    simp only [ihexFeed]
    split_ifs
    · exact ih _ h_byte
    · exact h_byte

/-- A piece of the text after another one. -/
theorem ihexFeed_append (p : Parser) (s : σ) (xs ys : List UInt8) :
    ihexFeed callback p s (xs ++ ys) =
      let r := ihexFeed callback p s xs
      if r.1 = ihexContinue then ihexFeed callback r.2.1 r.2.2 ys else r := by
  induction xs generalizing p s with
  | nil => rfl
  | cons dat xs ih =>
    simp only [List.cons_append, ihexFeed]
    by_cases h : (ihexByte callback p s dat).1 = 0
    · simp only [if_pos h]
      exact ih _ _
    · simp only [if_neg h, ihexContinue]

end Feed

/-! ### What the text says -/

/-- The terminated lines of a text that goes on from `line`; empty ones do not count. -/
def lines (line : List UInt8) : List UInt8 → List (List UInt8)
  | [] => []
  | dat :: text =>
    if isEol dat then
      if line = [] then lines [] text else line :: lines [] text
    else lines (line ++ [dat]) text

/-- What a line says. -/
inductive Record
  | data (addr : ℕ) (bytes : List UInt8)
  | eof
  /-- A segment or a linear base record. -/
  | base (base : ℕ)
  /-- A start address record. -/
  | start
deriving DecidableEq, Repr

/-- The bytes of a line after its start code. -/
def hexBytes : List UInt8 → Option (List UInt8)
  | hi :: lo :: digits =>
    match nybble hi, nybble lo, hexBytes digits with
    | some hi, some lo, some bytes => some ((16 * hi + lo) :: bytes)
    | _, _, _ => none
  | [hi] => (nybble hi).map fun _ => []
  | [] => some []

/-- The record of a type. -/
def Record.ofType : ℕ → ℕ → List UInt8 → Option Record
  | 0, addr, bytes => some (.data addr bytes)
  | 1, _, _ => some .eof
  | 2, _, [b, c] => some (.base (2 ^ 4 * (256 * b.toNat + c.toNat)))
  | 4, _, [b, c] => some (.base (2 ^ 16 * (256 * b.toNat + c.toNat)))
  | 3, _, _ | 5, _, _ => some .start
  | _, _, _ => none

/-- A record: its length, its address, its type, its data and its checksum. -/
def Record.ofBytes : List UInt8 → Option Record
  | n :: hi :: lo :: type :: rest =>
    if rest.length = n.toNat + 1 ∧ (n :: hi :: lo :: type :: rest).sum = 0 then
      Record.ofType type.toNat (256 * hi.toNat + lo.toNat) (rest.take n.toNat)
    else none
  | _ => none

/-- The record on a line. -/
def decode : List UInt8 → Option Record
  | 58 :: digits => (hexBytes digits).bind Record.ofBytes
  | _ => none

/-- The data records before the EOF record, with their addresses. -/
def writes (base : ℕ) : List (Option Record) → List (ℕ × List UInt8)
  | some (.data addr bytes) :: rest => ((addr + base) % 2 ^ 32, bytes) :: writes base rest
  | some (.base base) :: rest => writes base rest
  | some .start :: rest => writes base rest
  | _ => []

theorem writes_lt (base : ℕ) (records : List (Option Record)) :
    ∀ w ∈ writes base records, w.1 < 2 ^ 32 := by
  induction records generalizing base with
  | nil => exact fun w hw => absurd hw List.not_mem_nil
  | cons record records ih =>
    intro w hw
    match record with
    | some (.data addr bytes) =>
      rcases List.mem_cons.mp hw with rfl | hw
      · exact Nat.mod_lt _ (by decide)
      · exact ih base w hw
    | some (.base b) => exact ih b w hw
    | some .start => exact ih base w hw
    | some .eof | none => exact absurd hw List.not_mem_nil

/-! ### Digits and bytes -/

theorem nybble_lt {dat v : UInt8} (h : nybble dat = some v) : v.toNat < 16 := by
  unfold nybble at h
  split_ifs at h with h₁ h₂ h₃ <;> obtain rfl := Option.some.inj h
  · obtain ⟨hl, hu⟩ := h₁
    rw [UInt8.toNat_sub_of_le _ _ hl]
    exact Nat.lt_of_le_of_lt (Nat.sub_le_sub_right (UInt8.le_iff_toNat_le.mp hu) _) (by decide)
  · obtain ⟨hl, hu⟩ := h₂
    have hl' : (55 : UInt8) ≤ dat := UInt8.le_trans (by decide) hl
    rw [UInt8.toNat_sub_of_le _ _ hl']
    exact Nat.lt_of_le_of_lt (Nat.sub_le_sub_right (UInt8.le_iff_toNat_le.mp hu) _) (by decide)
  · obtain ⟨hl, hu⟩ := h₃
    have hl' : (87 : UInt8) ≤ dat := UInt8.le_trans (by decide) hl
    rw [UInt8.toNat_sub_of_le _ _ hl']
    exact Nat.lt_of_le_of_lt (Nat.sub_le_sub_right (UInt8.le_iff_toNat_le.mp hu) _) (by decide)

theorem shift_or_fin : ∀ hi lo : Fin 16,
    (UInt8.ofNat hi) <<< 4 ||| UInt8.ofNat lo = 16 * UInt8.ofNat hi + UInt8.ofNat lo := by
  decide

/-- The two halves of a byte. -/
theorem shift_or {hi lo : UInt8} (h_hi : hi.toNat < 16) (h_lo : lo.toNat < 16) :
    hi <<< 4 ||| lo = 16 * hi + lo := by
  have h := shift_or_fin ⟨hi.toNat, h_hi⟩ ⟨lo.toNat, h_lo⟩
  rwa [UInt8.ofNat_toNat, UInt8.ofNat_toNat] at h

theorem hexBytes_pair {hi lo v w : UInt8} {digits bytes : List UInt8} (h_hi : nybble hi = some v)
    (h_lo : nybble lo = some w) (h : hexBytes digits = some bytes) :
    hexBytes (hi :: lo :: digits) = some ((16 * v + w) :: bytes) := by
  simp only [hexBytes, h_hi, h_lo, h]

theorem hexBytes_pair_inv {hi lo : UInt8} {digits bytes : List UInt8}
    (h : hexBytes (hi :: lo :: digits) = some bytes) :
    ∃ v w rest, nybble hi = some v ∧ nybble lo = some w ∧ hexBytes digits = some rest ∧
      bytes = (16 * v + w) :: rest := by
  simp only [hexBytes] at h
  split at h
  · next v w rest h_hi h_lo h_rest =>
    exact ⟨v, w, rest, h_hi, h_lo, h_rest, (Option.some.inj h).symm⟩
  · exact absurd h (by simp)

/-- Digits after whole bytes. -/
theorem hexBytes_append : ∀ {digits bytes : List UInt8}, hexBytes digits = some bytes →
    digits.length = 2 * bytes.length → ∀ more,
      hexBytes (digits ++ more) = (hexBytes more).map (bytes ++ ·)
  | [], bytes, h, _, more => by
    obtain rfl := Option.some.inj h
    simp
  | [hi], bytes, _, h_even, more => by
    rw [List.length_singleton] at h_even
    omega
  | hi :: lo :: digits, bytes, h, h_even, more => by
    obtain ⟨v, w, rest, h_hi, h_lo, h_rest, rfl⟩ := hexBytes_pair_inv h
    have h_even' : digits.length = 2 * rest.length := by
      simp only [List.length_cons] at h_even
      omega
    -- on the digits, two at a time
    have ih := hexBytes_append h_rest h_even' more
    show hexBytes (hi :: lo :: (digits ++ more)) = _
    -- the digits behind give bytes or none
    cases h_more : hexBytes more with
    | none =>
      rw [h_more] at ih
      simp only [hexBytes, h_hi, h_lo, ih, Option.map_none]
    | some more' =>
      rw [h_more] at ih
      rw [hexBytes_pair h_hi h_lo ih]
      rfl

/-! ### The parser follows the text -/

/-- The bytes of the line so far are in `ihex_buf`. -/
structure Held (p : Parser) (bytes : List UInt8) : Prop where
  count : p.count = bytes.length
  buf : ∀ i (h : i < bytes.length), p.buf i = bytes[i]
  cksum : p.cksum = bytes.sum

/-- The parser has read the part `line` of a line. -/
inductive Reads (p : Parser) : List UInt8 → Prop
  | start (h_state : p.state = .start) : Reads p []
  | copy1 (digits bytes : List UInt8) (h_state : p.state = .copy1) (h_held : Held p bytes)
      (h_digits : hexBytes digits = some bytes) (h_even : digits.length = 2 * bytes.length) :
      Reads p (58 :: digits)
  | copy2 (digits bytes : List UInt8) (hi v : UInt8) (h_state : p.state = .copy2)
      (h_held : Held p bytes) (h_digits : hexBytes digits = some bytes)
      (h_even : digits.length = 2 * bytes.length) (h_hi : nybble hi = some v)
      (h_buf : p.buf bytes.length = v <<< 4) : Reads p (58 :: (digits ++ [hi]))

/-- What a record does, with `ihex_base`. -/
def Record.exec {σ : Type*} (callback : σ → ℕ → List UInt8 → ℕ × σ) (base : ℕ) (s : σ) :
    Record → ℕ × ℕ × σ
  | .data addr bytes =>
    let r := callback s ((addr + base) % 2 ^ 32) bytes
    (r.1, base, r.2)
  | .eof => (ihexEof, base, s)
  | .base base => (0, base, s)
  | .start => (0, base, s)

section Follow

variable {σ : Type*} {callback : σ → ℕ → List UInt8 → ℕ × σ} {p : Parser} {s : σ}
  {bytes : List UInt8}

theorem Held.init (p : Parser) : Held { p with state := .copy1, cksum := 0, count := 0 } [] :=
  ⟨rfl, fun _ h => absurd h (Nat.not_lt_zero _), rfl⟩

/-- The first half of a byte does not touch the bytes before it. -/
theorem Held.copy1 (h : Held p bytes) (v : UInt8) :
    Held { p with buf := Function.update p.buf p.count v, state := .copy2 } bytes := by
  refine ⟨h.count, fun i hi => ?_, h.cksum⟩
  have h_ne : i ≠ p.count := by
    rw [h.count]
    exact hi.ne
  exact (Function.update_of_ne h_ne _ _).trans (h.buf i hi)

theorem Held.copy2 (h : Held p bytes) (v : UInt8) :
    Held { p with
      buf := Function.update p.buf p.count v, cksum := p.cksum + v
      count := p.count + 1, state := .copy1 } (bytes ++ [v]) := by
  refine ⟨?_, fun i hi => ?_, ?_⟩
  · rw [List.length_append, List.length_singleton, ← h.count]
  · show Function.update p.buf p.count v i = _
    rw [List.length_append, List.length_singleton] at hi
    by_cases h_eq : i = bytes.length
    · subst h_eq
      rw [h.count, Function.update_self, List.getElem_append_right (Nat.le_refl _)]
      simp
    · have h_lt : i < bytes.length := by omega
      rw [h.count, Function.update_of_ne h_eq, List.getElem_append_left h_lt]
      exact h.buf i h_lt
  · rw [List.sum_append, List.sum_singleton, ← h.cksum]

/-- The bytes from the index `i` on. -/
theorem Held.slice (h : Held p bytes) {i n : ℕ} (h_fits : i + n ≤ bytes.length) :
    p.bytes i n = (bytes.drop i).take n := by
  refine List.ext_getElem ?_ fun k hk _ => ?_
  · simp only [Parser.bytes, List.length_map, List.length_range, List.length_take, List.length_drop]
    omega
  · rw [Parser.bytes, List.length_map, List.length_range] at hk
    simp only [Parser.bytes, List.getElem_map, List.getElem_range, List.getElem_take,
      List.getElem_drop]
    exact h.buf (i + k) (by omega)

/-- The bytes before the data. -/
theorem exists_header (h : ¬ bytes.length < 5) :
    ∃ n hi lo type rest, bytes = n :: hi :: lo :: type :: rest := by
  rcases bytes with _ | ⟨n, _ | ⟨hi, _ | ⟨lo, _ | ⟨type, rest⟩⟩⟩⟩
  · exact absurd (by simp) h
  · exact absurd (by simp) h
  · exact absurd (by simp) h
  · exact absurd (by simp) h
  · exact ⟨n, hi, lo, type, rest, rfl⟩

/-- A line with less than five bytes has no record. -/
theorem ofBytes_short (h : bytes.length < 5) : Record.ofBytes bytes = none := by
  match bytes with
  | [] | [_] | [_, _] | [_, _, _] => rfl
  | n :: hi :: lo :: type :: rest =>
    have h_rest : rest.length = 0 := by
      simp only [List.length_cons] at h
      omega
    have h_no : ¬ (rest.length = n.toNat + 1 ∧ (n :: hi :: lo :: type :: rest).sum = 0) := by
      rintro ⟨h_len, -⟩
      omega
    simp only [Record.ofBytes, if_neg h_no]

/-- A base record has two bytes. -/
theorem ofType_base {k addr : ℕ} (hk : k = 2 ∨ k = 4) {data : List UInt8} (h : data.length ≠ 2) :
    Record.ofType k addr data = none := by
  match data, h with
  | [], _ | [_], _ | _ :: _ :: _ :: _, _ => rcases hk with rfl | rfl <;> rfl
  | [_, _], h => exact absurd rfl h

variable (callback) in
/-- The switch does what the record says, and fails where there is none. -/
theorem switchType_eq (p : Parser) (s : σ) :
    match Record.ofType (p.buf 3).toNat (256 * (p.buf 1).toNat + (p.buf 2).toNat)
      (p.bytes 4 (p.buf 0).toNat) with
    | some record =>
      let r := record.exec callback p.base s
      switchType callback p s = (r.1, { p with base := r.2.1 }, r.2.2)
    | none => ∃ rv ∈ ihexErrors, switchType callback p s = (rv, p, s) := by
  have h_len : (p.bytes 4 (p.buf 0).toNat).length = (p.buf 0).toNat := by
    rw [Parser.bytes, List.length_map, List.length_range]
  unfold switchType
  rcases (p.buf 3).toNat with _ | _ | _ | _ | _ | _ | k
  -- a data record and the EOF record
  · rfl
  · rfl
  -- the two bytes of a base, added with their shifts
  · by_cases h : (p.buf 0).toNat = 2
    · rw [h]
      show (0, { p with base := 2 ^ 12 * (p.buf 4).toNat + 2 ^ 4 * (p.buf 5).toNat }, s) =
        (0, { p with base := 2 ^ 4 * (256 * (p.buf 4).toNat + (p.buf 5).toNat) }, s)
      rw [show 2 ^ 12 * (p.buf 4).toNat + 2 ^ 4 * (p.buf 5).toNat =
        2 ^ 4 * (256 * (p.buf 4).toNat + (p.buf 5).toNat) by omega]
    · rw [ofType_base (.inl rfl) (by rwa [h_len])]
      simp only [ne_eq, h, not_false_eq_true, if_true]
      exact ⟨ihexInvalid, by decide, rfl⟩
  -- a start address record is read and not used
  · rfl
  · by_cases h : (p.buf 0).toNat = 2
    · rw [h]
      show (0, { p with base := 2 ^ 24 * (p.buf 4).toNat + 2 ^ 16 * (p.buf 5).toNat }, s) =
        (0, { p with base := 2 ^ 16 * (256 * (p.buf 4).toNat + (p.buf 5).toNat) }, s)
      rw [show 2 ^ 24 * (p.buf 4).toNat + 2 ^ 16 * (p.buf 5).toNat =
        2 ^ 16 * (256 * (p.buf 4).toNat + (p.buf 5).toNat) by omega]
    · rw [ofType_base (.inr rfl) (by rwa [h_len])]
      simp only [ne_eq, h, not_false_eq_true, if_true]
      exact ⟨ihexInvalid, by decide, rfl⟩
  · rfl
  · exact ⟨ihexUnsupported, by decide, rfl⟩

variable (callback) in
/-- The end of a line does what its record says, and fails where it has none. -/
theorem endRecord_eq (h : Held p bytes) :
    match Record.ofBytes bytes with
    | some record =>
      let r := record.exec callback p.base s
      endRecord callback p s = (r.1, { p with state := .start, base := r.2.1 }, r.2.2)
    | none => ∃ rv ∈ ihexErrors, endRecord callback p s = (rv, { p with state := .start }, s) := by
  -- the three tests of the source in their order: too short, another length, the sum
  by_cases h_short : bytes.length < 5
  · rw [ofBytes_short h_short]
    have h_count : p.count < 5 := by rw [h.count]; exact h_short
    simp only [endRecord, h_count, if_true]
    exact ⟨ihexInvalid, by decide, rfl⟩
  have h_count : ¬ p.count < 5 := by rw [h.count]; exact h_short
  obtain ⟨n, hi, lo, type, rest, rfl⟩ := exists_header h_short
  have h_n : p.buf 0 = n := h.buf 0 (by simp)
  have h_hi : p.buf 1 = hi := h.buf 1 (by simp)
  have h_lo : p.buf 2 = lo := h.buf 2 (by simp)
  have h_type : p.buf 3 = type := h.buf 3 (by simp)
  -- `count` counts the header and the checksum too
  have h_len : p.count = 5 + n.toNat ↔ rest.length = n.toNat + 1 := by
    rw [h.count]
    simp only [List.length_cons]
    omega
  have h_cksum : p.cksum = 0 ↔ (n :: hi :: lo :: type :: rest).sum = 0 := by rw [h.cksum]
  simp only [endRecord, h_count, if_false, h_n, ne_eq, h_len, h_cksum, Record.ofBytes]
  by_cases h_rest : rest.length = n.toNat + 1
  · by_cases h_sum : (n :: hi :: lo :: type :: rest).sum = 0
    · simp only [h_rest, h_sum, not_true_eq_false, if_false, and_self, if_true]
      -- the data are the bytes behind the header, without the checksum
      have h_data : p.bytes 4 n.toNat = rest.take n.toNat :=
        h.slice (i := 4) (by simp only [List.length_cons]; omega)
      have h_switch := switchType_eq callback { p with state := .start } s
      simp only [h_n, h_hi, h_lo, h_type] at h_switch
      rw [← h_data]
      exact h_switch
    · simp only [h_rest, h_sum, not_true_eq_false, not_false_eq_true, if_false, if_true,
        and_false]
      exact ⟨ihexChecksum, by decide, rfl⟩
  · simp only [h_rest, not_false_eq_true, if_true, false_and, if_false]
    exact ⟨ihexInvalid, by decide, rfl⟩

/-- The record of a line that was read. -/
theorem Reads.decode {line : List UInt8} (h : Reads p line) (h_ne : line ≠ []) :
    p.state ≠ .start ∧ ∃ bytes, Held p bytes ∧ decode line = Record.ofBytes bytes := by
  cases h with
  -- at the start nothing was read
  | start => exact absurd rfl h_ne
  | copy1 digits bytes h_state h_held h_digits =>
    refine ⟨by simp [h_state], bytes, h_held, ?_⟩
    show (hexBytes digits).bind Record.ofBytes = _
    rw [h_digits, Option.bind_some]
  | copy2 digits bytes hi v h_state h_held h_digits h_even h_hi =>
    refine ⟨by simp [h_state], bytes, h_held, ?_⟩
    -- a digit that is left over gives no byte
    have h_half : hexBytes [hi] = some [] := by simp only [hexBytes, h_hi, Option.map_some]
    show (hexBytes (digits ++ [hi])).bind Record.ofBytes = _
    rw [hexBytes_append h_digits h_even, h_half, Option.map_some, List.append_nil, Option.bind_some]

/-- A byte of a line. -/
theorem ihexByte_text {line : List UInt8} (h : Reads p line) {dat : UInt8}
    (h_dat : isEol dat = false)
    (h_zero : (ihexByte callback p s dat).1 = 0) :
    Reads (ihexByte callback p s dat).2.1 (line ++ [dat]) ∧
      (ihexByte callback p s dat).2.1.base = p.base ∧ (ihexByte callback p s dat).2.2 = s := by
  unfold ihexByte at h_zero ⊢
  simp only [h_dat, Bool.false_eq_true, if_false] at h_zero ⊢
  cases h with
  | start h_state =>
    simp only [h_state, if_true] at h_zero ⊢
    -- a line has to begin with a colon
    split_ifs at h_zero ⊢ with h_colon
    · exact absurd h_zero (by decide : ihexInvalid ≠ 0)
    · rw [not_not.mp h_colon]
      exact ⟨.copy1 [] [] rfl (Held.init p) rfl rfl, rfl, rfl⟩
  | copy1 digits bytes h_state h_held h_digits h_even =>
    simp only [h_state, reduceCtorEq, if_false, if_true] at h_zero ⊢
    -- the first digit of a byte: a hex digit, and room for the byte
    split at h_zero
    · exact absurd h_zero (by decide : ihexInvalid ≠ 0)
    · next v h_v =>
      split_ifs at h_zero ⊢ with h_size
      · exact absurd h_zero (by decide : ihexUnsupported ≠ 0)
      · refine ⟨.copy2 digits bytes dat v rfl (h_held.copy1 _) h_digits h_even h_v ?_, rfl, rfl⟩
        rw [← h_held.count]
        exact Function.update_self _ _ _
  | copy2 digits bytes hi v h_state h_held h_digits h_even h_hi h_buf =>
    simp only [h_state, reduceCtorEq, if_false] at h_zero ⊢
    -- the second digit completes the byte in the buffer
    split at h_zero
    · exact absurd h_zero (by decide : ihexInvalid ≠ 0)
    · next w h_w =>
      have h_byte : p.buf p.count ||| w = 16 * v + w := by
        rw [h_held.count, h_buf]
        exact shift_or (nybble_lt h_hi) (nybble_lt h_w)
      have h_pair : hexBytes [hi, dat] = some [16 * v + w] := hexBytes_pair h_hi h_w rfl
      rw [h_byte, List.cons_append, List.append_assoc]
      refine ⟨.copy1 _ (bytes ++ [16 * v + w]) rfl (h_held.copy2 _) ?_ ?_, rfl, rfl⟩
      · rw [List.singleton_append, hexBytes_append h_digits h_even, h_pair]
        rfl
      · simp only [List.length_append, List.length_cons, List.length_nil]
        omega

/-- A byte of a line is not the end of the text. -/
theorem ihexByte_ne_eof {dat : UInt8} (h_dat : isEol dat = false) :
    (ihexByte callback p s dat).1 ≠ ihexEof := by
  unfold ihexByte
  simp only [h_dat, Bool.false_eq_true, if_false]
  cases nybble dat <;> split_ifs <;> simp [ihexInvalid, ihexUnsupported, ihexEof]

variable (callback) in
/-- The calls with which the callback goes on. -/
def calls : σ → List (ℕ × List UInt8) → Option σ
  | s, [] => some s
  | s, w :: ws =>
    let r := callback s w.1 w.2
    if r.1 = 0 then calls r.2 ws else none

/-- **A text up to its EOF record.** The callback was called for its data records, in order. -/
theorem ihexFeed_eof (h_callback : ∀ s addr bytes, (callback s addr bytes).1 ≠ ihexEof)
    {line : List UInt8} (h : Reads p line) {text : List UInt8}
    (h_eof : (ihexFeed callback p s text).1 = ihexEof) :
    calls callback s (writes p.base ((lines line text).map decode)) =
      some (ihexFeed callback p s text).2.2 := by
  -- along the text: `p` has read `line`, and goes on with a record's effect at its end
  induction text generalizing p s line with
  | nil => exact absurd h_eof (by decide : ihexContinue ≠ ihexEof)
  | cons dat text ih =>
    simp only [ihexFeed, lines] at h_eof ⊢
    cases h_dat : isEol dat with
    | false =>
      simp only [Bool.false_eq_true, if_false]
      by_cases h_zero : (ihexByte callback p s dat).1 = 0
      · obtain ⟨h_reads, h_base, h_state⟩ := ihexByte_text h h_dat h_zero
        rw [if_pos h_zero] at h_eof ⊢
        have h_rest := ih h_reads h_eof
        rw [h_base, h_state] at h_rest
        rw [h_state]
        exact h_rest
      · rw [if_neg h_zero] at h_eof
        exact absurd h_eof (ihexByte_ne_eof h_dat)
    | true =>
      by_cases h_line : line = []
      · -- an empty line
        subst h_line
        cases h with
        | start h_start =>
          have h_byte : ihexByte callback p s dat = (0, p, s) := by
            simp only [ihexByte, h_dat, h_start, if_true]
          simp only [h_byte, if_true] at h_eof ⊢
          exact ih (.start h_start) h_eof
      · obtain ⟨h_state, bytes, h_held, h_decode⟩ := h.decode h_line
        have h_byte : ihexByte callback p s dat = endRecord callback p s := by
          simp only [ihexByte, h_dat, if_true, if_neg h_state]
        have h_end := endRecord_eq callback (s := s) h_held
        rw [← h_decode] at h_end
        simp only [h_byte, if_true, if_neg h_line, List.map_cons] at h_eof ⊢
        cases h_record : decode line with
        | none =>
          -- an error, and so not the end of the file
          simp only [h_record] at h_end
          obtain ⟨rv, h_rv, h_end⟩ := h_end
          obtain ⟨h_ne, h_ne_eof⟩ := ihexErrors_ne h_rv
          rw [h_end] at h_eof
          simp only [h_ne, if_false] at h_eof
          exact absurd h_eof h_ne_eof
        | some record =>
          simp only [h_record] at h_end
          have h_start (b : ℕ) : Reads { p with state := .start, base := b } [] := .start rfl
          cases record with
          | data addr data =>
            -- the callback returned 0, or its result ended the feed
            simp only [Record.exec] at h_end
            simp only [h_end, writes, calls] at h_eof ⊢
            by_cases h_zero : (callback s ((addr + p.base) % 2 ^ 32) data).1 = 0
            · simp only [h_zero, if_true] at h_eof ⊢
              exact ih (h_start _) h_eof
            · simp only [h_zero, if_false] at h_eof
              exact absurd h_eof (h_callback _ _ _)
          | eof =>
            simp only [Record.exec] at h_end
            have h_ne : ihexEof ≠ 0 := by decide
            simp only [h_end, writes, calls, h_ne, if_false]
          | base base =>
            simp only [Record.exec] at h_end
            simp only [h_end, writes, if_true] at h_eof ⊢
            exact ih (h_start _) h_eof
          | start =>
            simp only [Record.exec] at h_end
            simp only [h_end, writes, if_true] at h_eof ⊢
            exact ih (h_start _) h_eof

end Follow

end Ihex

end Laureline
