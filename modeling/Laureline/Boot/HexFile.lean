import Laureline.Boot.Ihex
import Laureline.Util.Numerals

/-!
# Intel HEX files

A file is a list of `Entry`s and an EOF record. `Renders` says what its texts look like: the
digits in upper or lower case, and between the lines any line ends and NULs. `ihex_feed` may
get such a text in any pieces.

* `Entry.ofBytes` — the bytes of an entry are read as the entry;
* `ihexFeed_line`, `ihexByte_end` — a line fills `ihex_buf`, and its end does what it says;
* `ihexFeed_file` — the lines of a file one after the other;
* `ihexByte_congr`, `Parser.InBuf.feeds` — the places in `ihex_buf`, and that it is not left;
* `ihex_file` — the file is called back, in order and once.
-/

namespace Laureline

namespace Ihex

/-! ### Files -/

/-- The bytes of a record. The last one makes their sum zero. -/
def recordBytes (rtype : UInt8) (offset : UInt16) (data : List UInt8) : List UInt8 :=
  let bytes := UInt8.ofNat data.length :: UInt8.ofNat (offset.toNat / 256) ::
    UInt8.ofNat offset.toNat :: rtype :: data
  bytes ++ [-bytes.sum]

/-- A record of a file before its EOF record. -/
inductive Entry
  | data (offset : UInt16) (bytes : List UInt8) (h_size : bytes.length ≤ 65)
  | segAddr (offset base : UInt16)
  | segStart (offset : UInt16) (bytes : List UInt8) (h_size : bytes.length ≤ 65)
  | linAddr (offset base : UInt16)
  | linStart (offset : UInt16) (bytes : List UInt8) (h_size : bytes.length ≤ 65)

/-- The two bytes of a base. -/
def baseBytes (base : UInt16) : List UInt8 :=
  [UInt8.ofNat (base.toNat / 256), UInt8.ofNat base.toNat]

/-- The bytes of the line behind its start code. -/
def Entry.bytes : Entry → List UInt8
  | .data offset bytes _ => recordBytes 0 offset bytes
  | .segAddr offset base => recordBytes 2 offset (baseBytes base)
  | .segStart offset bytes _ => recordBytes 3 offset bytes
  | .linAddr offset base => recordBytes 4 offset (baseBytes base)
  | .linStart offset bytes _ => recordBytes 5 offset bytes

/-- What an entry says. -/
def Entry.record : Entry → Record
  | .data offset bytes _ => .data offset.toNat bytes
  | .segAddr _ base => .base (2 ^ 4 * base.toNat)
  | .linAddr _ base => .base (2 ^ 16 * base.toNat)
  | .segStart _ _ _ | .linStart _ _ _ => .start

/-- The records of a file. -/
def fileBytes (entries : List Entry) (offset : UInt16) : List (List UInt8) :=
  entries.map Entry.bytes ++ [recordBytes 1 offset []]

/-- The data records of a file, with the addresses they go to. -/
def fileWrites (base : ℕ) : List Entry → List (ℕ × List UInt8)
  | [] => []
  | .data offset bytes _ :: rest =>
    ((offset.toNat + base) % 2 ^ 32, bytes) :: fileWrites base rest
  | .segAddr _ base :: rest => fileWrites (2 ^ 4 * base.toNat) rest
  | .linAddr _ base :: rest => fileWrites (2 ^ 16 * base.toNat) rest
  | .segStart _ _ _ :: rest | .linStart _ _ _ :: rest => fileWrites base rest

/-- The text is the bytes in hexadecimal digits. -/
inductive HexText : List UInt8 → List UInt8 → Prop
  | nil : HexText [] []
  | cons {byte hi lo : UInt8} {bytes text : List UInt8} (h_hi : IsHexDigit hi (byte.toNat / 16))
      (h_lo : IsHexDigit lo (byte.toNat % 16)) (h_bytes : HexText bytes text) :
      HexText (byte :: bytes) (hi :: lo :: text)

/-- What stands between two lines. -/
def IsEnds (ends : List UInt8) : Prop := ends ≠ [] ∧ ∀ c ∈ ends, isEol c = true

instance (ends : List UInt8) : Decidable (IsEnds ends) :=
  have : Decidable (∀ c ∈ ends, isEol c = true) := List.decidableBAll _ ends
  inferInstanceAs (Decidable (_ ∧ _))

/-- The text has one line for each record. -/
inductive Renders : List (List UInt8) → List UInt8 → Prop
  | last {bytes digits : List UInt8} (h_digits : HexText bytes digits) :
      Renders [bytes] (58 :: digits)
  | cons {bytes digits ends text : List UInt8} {records : List (List UInt8)}
      (h_digits : HexText bytes digits) (h_ends : IsEnds ends) (h_text : Renders records text) :
      Renders (bytes :: records) (58 :: (digits ++ (ends ++ text)))

/-! ### Pieces -/

section Pieces

variable {σ : Type*} (callback : σ → ℕ → List UInt8 → ℕ × σ)

/-- Calls of `ihex_feed` for as long as it goes on. -/
def ihexFeeds : Parser → σ → List (List UInt8) → ℕ × Parser × σ
  | p, s, [] => (ihexContinue, p, s)
  | p, s, inbuf :: inbufs =>
    let r := ihexFeed callback p s inbuf
    if r.1 = ihexContinue then ihexFeeds r.2.1 r.2.2 inbufs else r

/-- The data records that the callback gets, up to one that it refuses. -/
def deliver : σ → List (ℕ × List UInt8) → ℕ × σ
  | s, [] => (ihexEof, s)
  | s, w :: ws =>
    let r := callback s w.1 w.2
    if r.1 = 0 then deliver r.2 ws else r

theorem ihexFeeds_eq (p : Parser) (s : σ) (inbufs : List (List UInt8)) :
    ihexFeeds callback p s inbufs = ihexFeed callback p s inbufs.flatten := by
  induction inbufs generalizing p s with
  | nil => rfl
  | cons inbuf inbufs ih =>
    rw [List.flatten_cons, ihexFeed_append, ihexFeeds]
    dsimp only
    rw [ih]

/-- A callback that refuses nothing gets them all. -/
theorem deliver_accepted (h : ∀ s addr bytes, (callback s addr bytes).1 = 0) (s : σ)
    (ws : List (ℕ × List UInt8)) :
    deliver callback s ws = (ihexEof, ws.foldl (fun s w => (callback s w.1 w.2).2) s) := by
  induction ws generalizing s with
  | nil => rfl
  | cons w ws ih =>
    rw [deliver, if_pos (h s w.1 w.2), ih]
    rfl

end Pieces

/-! ### Digits -/

theorem nybble_of_isHexDigit {c : UInt8} {v : ℕ} (h : IsHexDigit c v) :
    nybble c = some (UInt8.ofNat v) := by
  obtain ⟨h_v, rfl⟩ | ⟨h_v, h_v', rfl | rfl⟩ := h <;> interval_cases v <;> decide

theorem isHexDigit_fin : ∀ c : Fin 256, ∀ v ∈ nybble (UInt8.ofNat c),
    IsHexDigit (UInt8.ofNat c) v.toNat := by
  decide +kernel

/-- The digits are those that `ihex_feed` reads. -/
theorem isHexDigit_of_nybble {c v : UInt8} (h : nybble c = some v) :
    IsHexDigit c v.toNat := by
  have h_c := isHexDigit_fin ⟨c.toNat, c.toNat_lt⟩ v
  rw [UInt8.ofNat_toNat] at h_c
  exact h_c h

/-- The two halves make the byte. -/
theorem byte_halves (byte : UInt8) :
    16 * UInt8.ofNat (byte.toNat / 16) + UInt8.ofNat (byte.toNat % 16) = byte := by
  have h_sum : 16 * (byte.toNat / 16) + byte.toNat % 16 = byte.toNat := Nat.div_add_mod _ _
  have h_ofNat := congrArg UInt8.ofNat h_sum
  rwa [UInt8.ofNat_add, UInt8.ofNat_mul, UInt8.ofNat_toNat] at h_ofNat

theorem HexText.length {bytes text : List UInt8} (h : HexText bytes text) :
    text.length = 2 * bytes.length := by
  induction h with
  | nil => rfl
  | cons h_hi h_lo h_bytes ih =>
    rw [List.length_cons, List.length_cons, List.length_cons, ih]
    omega

theorem HexText.hexBytes {bytes text : List UInt8} (h : HexText bytes text) :
    Ihex.hexBytes text = some bytes := by
  induction h with
  | nil => rfl
  | cons h_hi h_lo h_bytes ih =>
    rw [hexBytes_pair (nybble_of_isHexDigit h_hi) (nybble_of_isHexDigit h_lo) ih, byte_halves]

/-! ### A line -/

section Line

variable {σ : Type*} {callback : σ → ℕ → List UInt8 → ℕ × σ} {p q : Parser} {s t : σ}
  {bytes got digits : List UInt8} {e : UInt8}

theorem ihexFeed_then {xs : List UInt8} (h : ihexFeed callback p s xs = (ihexContinue, q, t))
    (ys : List UInt8) : ihexFeed callback p s (xs ++ ys) = ihexFeed callback q t ys := by
  rw [ihexFeed_append, h]
  exact if_pos rfl

/-- A digit in a line is the first or the second half of a byte. -/
theorem ihexByte_digit {c v : UInt8} (h_c : nybble c = some v) (h_state : p.state ≠ .start)
    (h_fits : p.count < bufSize) :
    ihexByte callback p s c =
      if p.state = .copy1 then
        (0, { p with buf := Function.update p.buf p.count (v <<< 4), state := .copy2 }, s)
      else
        (0, { p with
          buf := Function.update p.buf p.count (p.buf p.count ||| v)
          cksum := p.cksum + (p.buf p.count ||| v)
          count := p.count + 1, state := .copy1 }, s) := by
  have h_eol : isEol c = false := by
    by_contra h
    simp only [isEol, Bool.not_eq_false, decide_eq_true_eq] at h
    obtain rfl | rfl | rfl := h <;> exact absurd h_c (by simp [nybble])
  simp only [ihexByte, h_eol, Bool.false_eq_true, if_false, h_state, h_c, ge_iff_le,
    Nat.not_le.mpr h_fits]

/-- The digits of a line fill `ihex_buf`. -/
theorem ihexFeed_digits (h_digits : HexText bytes digits) (h_state : p.state = .copy1)
    (h_held : Held p got) (h_fits : got.length + bytes.length ≤ bufSize) :
    ∃ q, ihexFeed callback p s digits = (ihexContinue, q, s) ∧ q.state = .copy1 ∧
      q.base = p.base ∧ Held q (got ++ bytes) := by
  induction h_digits generalizing p got with
  | nil => exact ⟨p, rfl, h_state, rfl, by rwa [List.append_nil]⟩
  | @cons byte hi lo bytes text h_hi h_lo h_bytes ih =>
    have h_hi := nybble_of_isHexDigit h_hi
    have h_lo := nybble_of_isHexDigit h_lo
    rw [List.length_cons] at h_fits
    have h_count : p.count < bufSize := by
      rw [h_held.count]
      omega
    -- the first half
    have h_first := @ihexByte_digit _ callback p s _ _ h_hi (by simp [h_state]) h_count
    rw [if_pos h_state] at h_first
    -- the second half
    have h_byte : UInt8.ofNat (byte.toNat / 16) <<< 4 ||| UInt8.ofNat (byte.toNat % 16) = byte := by
      rw [shift_or (nybble_lt h_hi) (nybble_lt h_lo), byte_halves]
    have h_second := @ihexByte_digit _ callback { p with
      buf := Function.update p.buf p.count (UInt8.ofNat (byte.toNat / 16) <<< 4)
      state := .copy2 } s _ _ h_lo (by simp) h_count
    simp only [reduceCtorEq, if_false, Function.update_self, h_byte] at h_second
    have h_fits' : (got ++ [byte]).length + bytes.length ≤ bufSize := by
      rw [List.length_append, List.length_singleton]
      omega
    obtain ⟨q, h_feed, h_q, h_base, h_more⟩ := ih rfl ((h_held.copy1 _).copy2 byte) h_fits'
    refine ⟨q, ?_, h_q, h_base, ?_⟩
    · simp only [ihexFeed, h_first, h_second, if_true]
      exact h_feed
    · rwa [List.append_assoc] at h_more

/-- A line fills `ihex_buf` from its start. -/
theorem ihexFeed_line (h_digits : HexText bytes digits) (h_state : p.state = .start)
    (h_fits : bytes.length ≤ bufSize) :
    ∃ q, ihexFeed callback p s (58 :: digits) = (ihexContinue, q, s) ∧ q.state = .copy1 ∧
      q.base = p.base ∧ Held q bytes := by
  have h_colon : ihexByte callback p s 58 =
      (0, { p with state := .copy1, cksum := 0, count := 0 }, s) := by
    have h_eol : isEol 58 = false := by decide
    simp [ihexByte, h_state, h_eol]
  obtain ⟨q, h_feed, h_q⟩ := @ihexFeed_digits _ callback _ s bytes [] digits h_digits rfl
    (Held.init p) (by simpa using h_fits)
  refine ⟨q, ?_, h_q⟩
  simp only [ihexFeed, h_colon, if_true]
  exact h_feed

/-- The end of a line does what its record says. -/
theorem ihexByte_end {record : Record} (h_e : isEol e = true) (h_state : p.state ≠ .start)
    (h_held : Held p bytes) (h_record : Record.ofBytes bytes = some record) :
    ihexByte callback p s e =
      let r := record.exec callback p.base s
      (r.1, { p with state := .start, base := r.2.1 }, r.2.2) := by
  have h_end := endRecord_eq callback (s := s) h_held
  rw [h_record] at h_end
  simp only [ihexByte, h_e, if_true, if_neg h_state]
  exact h_end

/-- Between the lines nothing happens. -/
theorem ihexFeed_ends {ends : List UInt8} (h_ends : ∀ c ∈ ends, isEol c = true)
    (h_state : p.state = .start) : ihexFeed callback p s ends = (ihexContinue, p, s) := by
  induction ends with
  | nil => rfl
  | cons c ends ih =>
    have h_byte : ihexByte callback p s c = (0, p, s) := by
      simp only [ihexByte, h_ends c List.mem_cons_self, if_true, h_state]
    simp only [ihexFeed, h_byte, if_true]
    exact ih fun c h_c => h_ends c (List.mem_cons_of_mem _ h_c)

end Line

/-! ### The records of a file -/

theorem ofNat_halves (x : UInt16) :
    256 * (UInt8.ofNat (x.toNat / 256)).toNat + (UInt8.ofNat x.toNat).toNat = x.toNat := by
  have h_lt := x.toNat_lt
  rw [UInt8.toNat_ofNat', UInt8.toNat_ofNat']
  omega

theorem recordBytes_length (rtype : UInt8) (offset : UInt16) (data : List UInt8) :
    (recordBytes rtype offset data).length = data.length + 5 := by
  simp [recordBytes]

/-- A record is read as what it was made of. -/
theorem ofBytes_recordBytes {data : List UInt8} (h_size : data.length ≤ 65) (rtype : UInt8)
    (offset : UInt16) :
    Record.ofBytes (recordBytes rtype offset data) =
      Record.ofType rtype.toNat offset.toNat data := by
  have h_length : (UInt8.ofNat data.length).toNat = data.length := by
    rw [UInt8.toNat_ofNat']
    omega
  have h_sum : (recordBytes rtype offset data).sum = 0 := by
    rw [recordBytes, List.sum_append, List.sum_singleton, add_neg_cancel]
  simp only [recordBytes, List.cons_append] at h_sum ⊢
  rw [Record.ofBytes, if_pos ⟨by simp [h_length], h_sum⟩, h_length, ofNat_halves,
    List.take_left]

theorem Entry.ofBytes (entry : Entry) : Record.ofBytes entry.bytes = some entry.record := by
  cases entry with
  | data offset bytes h_size | segStart offset bytes h_size | linStart offset bytes h_size =>
    exact ofBytes_recordBytes h_size _ offset
  | segAddr offset base | linAddr offset base =>
    rw [Entry.bytes, ofBytes_recordBytes (by simp [baseBytes])]
    show some _ = some _
    rw [ofNat_halves]
    rfl

theorem Entry.length_le (entry : Entry) : entry.bytes.length ≤ bufSize := by
  cases entry <;> simp [Entry.bytes, recordBytes_length, baseBytes, bufSize] <;> omega

section File

variable {σ : Type*} {callback : σ → ℕ → List UInt8 → ℕ × σ} {p : Parser} {s : σ}
  {offset : UInt16} {entries : List Entry} {text : List UInt8}

theorem Renders.cons_inv {bytes : List UInt8} {records : List (List UInt8)}
    (h_text : Renders (bytes :: records) text) (h_more : records ≠ []) :
    ∃ digits ends rest, text = 58 :: (digits ++ (ends ++ rest)) ∧ HexText bytes digits ∧
      IsEnds ends ∧ Renders records rest := by
  cases h_text with
  | last h_digits => exact absurd rfl h_more
  | cons h_digits h_ends h_text => exact ⟨_, _, _, rfl, h_digits, h_ends, h_text⟩

/-- A line and what stands after it. -/
theorem ihexFeed_record {bytes digits ends : List UInt8} {record : Record}
    (h_digits : HexText bytes digits) (h_fits : bytes.length ≤ bufSize) (h_ends : IsEnds ends)
    (h_record : Record.ofBytes bytes = some record) (h_state : p.state = .start) :
    let r := record.exec callback p.base s
    ∃ q, q.state = .start ∧ q.base = r.2.1 ∧ ∀ more,
      ihexFeed callback p s (58 :: (digits ++ (ends ++ more))) =
        if r.1 = 0 then ihexFeed callback q r.2.2 more else (r.1, q, r.2.2) := by
  obtain ⟨q, h_feed, h_copy1, h_base, h_held⟩ :=
    @ihexFeed_line _ callback p s _ _ h_digits h_state h_fits
  -- the first character of the end does what the record says, the others are skipped
  obtain ⟨e, ends, rfl⟩ := List.exists_cons_of_ne_nil h_ends.1
  have h_end := @ihexByte_end _ callback q s _ e _ (h_ends.2 e List.mem_cons_self)
    (by simp [h_copy1]) h_held h_record
  rw [h_base] at h_end
  refine ⟨{ q with state := .start, base := (record.exec callback p.base s).2.1 }, rfl, rfl,
    fun more => ?_⟩
  have h_line := ihexFeed_then h_feed (e :: (ends ++ more))
  rw [List.cons_append] at h_line
  rw [List.cons_append, h_line, ihexFeed, h_end]
  by_cases h_zero : (record.exec callback p.base s).1 = 0
  · rw [if_pos h_zero, if_pos h_zero]
    exact ihexFeed_then (ihexFeed_ends (fun c h_c => h_ends.2 c (List.mem_cons_of_mem _ h_c)) rfl) _
  · rw [if_neg h_zero, if_neg h_zero]

/-- A file up to the end of its last line. Either a data record was refused, or the EOF record
is in `ihex_buf`. -/
theorem ihexFeed_file (h_text : Renders (fileBytes entries offset) text)
    (h_state : p.state = .start) :
    let d := deliver callback s (fileWrites p.base entries)
    (d.1 ≠ ihexContinue ∧ (∃ s addr bytes, (callback s addr bytes).1 ≠ 0) ∧
        ∃ q, ihexFeed callback p s text = (d.1, q, d.2)) ∨
      d.1 = ihexEof ∧ ∃ q, ihexFeed callback p s text = (ihexContinue, q, d.2) ∧
        q.state = .copy1 ∧ Held q (recordBytes 1 offset []) := by
  induction entries generalizing p s text with
  | nil =>
    cases h_text with
    | last h_digits =>
      obtain ⟨q, h_feed, h_copy1, -, h_held⟩ :=
        @ihexFeed_line _ callback p s _ _ h_digits h_state (by simp [recordBytes_length, bufSize])
      exact Or.inr ⟨rfl, q, h_feed, h_copy1, h_held⟩
    | cons h_digits h_ends h_text => nomatch h_text
  | cons entry entries ih =>
    obtain ⟨digits, ends, rest, rfl, h_digits, h_ends, h_rest⟩ := h_text.cons_inv (by simp)
    obtain ⟨q, h_q, h_base, h_feed⟩ := @ihexFeed_record _ callback p s _ _ _ _ h_digits
      entry.length_le h_ends entry.ofBytes h_state
    rw [h_feed rest]
    cases entry with
    | data offset bytes h_size =>
      simp only [Entry.record, Record.exec, fileWrites, deliver] at h_base ⊢
      by_cases h_zero : (callback s ((offset.toNat + p.base) % 2 ^ 32) bytes).1 = 0
      · simp only [h_zero, if_true]
        rw [← h_base]
        exact ih h_rest h_q
      · -- the callback refuses the record
        simp only [h_zero, if_false]
        exact Or.inl ⟨h_zero, ⟨_, _, _, h_zero⟩, q, rfl⟩
    | segAddr _ base | linAddr _ base | segStart _ bytes h_size | linStart _ bytes h_size =>
      simp only [Entry.record, Record.exec, if_true] at h_base ⊢
      simp only [fileWrites, ← h_base]
      exact ih h_rest h_q

end File

/-! ### The places in `ihex_buf` -/

/-- The indices from which a record takes its data. The callback reads from the index 4 on. -/
def dataIndices (p : Parser) : List ℕ :=
  let rsize := (p.buf 0).toNat
  match (p.buf 3).toNat with
  | 0 => List.range' 4 rsize
  | 2 | 4 => if rsize ≠ 2 then [] else [4, 5]
  | _ => []

/-- The indices into `ihex_buf` of one pass of the loop of `ihex_feed`. -/
def indices (p : Parser) (dat : UInt8) : List ℕ :=
  if isEol dat then
    if p.state = .start ∨ p.count < 5 then []
    else
      [0, 1, 2, 3] ++
        if p.count ≠ 5 + (p.buf 0).toNat ∨ p.cksum ≠ 0 then [] else dataIndices p
  else if p.state = .start ∨ nybble dat = none then []
  else if p.state = .copy1 ∧ p.count ≥ bufSize then []
  else [p.count]

section Indices

variable {σ : Type*} (callback : σ → ℕ → List UInt8 → ℕ × σ)

/-- A pass of the loop neither looks at `ihex_buf` beside `indices` nor changes it there. -/
def Confined (p : Parser) (s : σ) (dat : UInt8) : Prop :=
  ∀ b : ℕ → UInt8, (∀ i ∈ indices p dat, b i = p.buf i) →
    let r := ihexByte callback p s dat
    let r' := ihexByte callback { p with buf := b } s dat
    r'.1 = r.1 ∧ r'.2.1 = { r.2.1 with buf := r'.2.1.buf } ∧ r'.2.2 = r.2.2 ∧
      ∀ i ∉ indices p dat, r.2.1.buf i = p.buf i

/-- The indices of a call of `ihex_feed`. -/
def feedIndices : Parser → σ → List UInt8 → List ℕ
  | _, _, [] => []
  | p, s, dat :: inbuf =>
    let r := ihexByte callback p s dat
    indices p dat ++ if r.1 = 0 then feedIndices r.2.1 r.2.2 inbuf else []

/-- The indices of the calls that `ihexFeeds` makes. -/
def feedsIndices : Parser → σ → List (List UInt8) → List ℕ
  | _, _, [] => []
  | p, s, inbuf :: inbufs =>
    let r := ihexFeed callback p s inbuf
    feedIndices callback p s inbuf ++
      if r.1 = ihexContinue then feedsIndices r.2.1 r.2.2 inbufs else []

/-- The next byte of a line has its place. -/
def Parser.InBuf (p : Parser) : Prop :=
  match p.state with
  | .start => True
  | .copy1 => p.count ≤ bufSize
  | .copy2 => p.count < bufSize

theorem Parser.InBuf.of_start {p : Parser} (h : p.state = .start) : p.InBuf := by
  simp only [Parser.InBuf, h]

variable {callback} {p : Parser} {s : σ} {dat : UInt8}

/-- A record reads `ihex_buf` at its header and at its data. -/
theorem switchType_congr {b : ℕ → UInt8} (h_header : ∀ i < 4, b i = p.buf i)
    (h : ∀ i ∈ dataIndices p, b i = p.buf i) :
    switchType callback { p with buf := b } s =
      let r := switchType callback p s
      (r.1, { r.2.1 with buf := b }, r.2.2) := by
  have h_0 := h_header 0 (by decide)
  have h_1 := h_header 1 (by decide)
  have h_2 := h_header 2 (by decide)
  have h_3 := h_header 3 (by decide)
  unfold switchType
  simp only [h_0, h_1, h_2, h_3]
  unfold dataIndices at h
  -- a base is read only from a record of two bytes
  have h_base (h : ∀ i ∈ if (p.buf 0).toNat ≠ 2 then [] else [4, 5], b i = p.buf i)
      (h_rsize : (p.buf 0).toNat = 2) : b 4 = p.buf 4 ∧ b 5 = p.buf 5 := by
    rw [if_neg (not_not.mpr h_rsize)] at h
    exact ⟨h 4 (by simp), h 5 (by simp)⟩
  generalize (p.buf 3).toNat = rtype at h ⊢
  -- one goal for each record type, and one for all that are unsupported
  rcases rtype with _ | _ | _ | _ | _ | _ | k
  -- a data record passes on the bytes that `dataIndices` names
  · have h_data : ({ p with buf := b } : Parser).bytes 4 (p.buf 0).toNat =
        p.bytes 4 (p.buf 0).toNat := by
      refine List.map_congr_left fun k h_k => h (4 + k) ?_
      have h_lt := List.mem_range.mp h_k
      exact List.mem_range'_1.mpr ⟨Nat.le_add_right 4 k, Nat.add_lt_add_left h_lt 4⟩
    simp only [h_data]
  · rfl
  · by_cases h_rsize : (p.buf 0).toNat = 2
    · obtain ⟨h_4, h_5⟩ := h_base h h_rsize
      simp only [h_rsize, ne_eq, not_true_eq_false, if_false, h_4, h_5]
    · simp only [h_rsize, ne_eq, not_false_eq_true, if_true]
  · rfl
  · by_cases h_rsize : (p.buf 0).toNat = 2
    · obtain ⟨h_4, h_5⟩ := h_base h h_rsize
      simp only [h_rsize, ne_eq, not_true_eq_false, if_false, h_4, h_5]
    · simp only [h_rsize, ne_eq, not_false_eq_true, if_true]
  · rfl
  · rfl

/-- The end of a line reads `ihex_buf` at the places of `indices` only. -/
theorem endRecord_congr {b : ℕ → UInt8} (h_dat : isEol dat = true) (h_state : p.state ≠ .start)
    (h : ∀ i ∈ indices p dat, b i = p.buf i) :
    endRecord callback { p with buf := b } s =
      let r := endRecord callback p s
      (r.1, { r.2.1 with buf := b }, r.2.2) := by
  simp only [indices, h_dat, if_true, h_state, false_or] at h
  unfold endRecord
  -- a short line is refused before the buffer is read
  by_cases h_short : p.count < 5
  · simp only [h_short, if_true]
  simp only [h_short, if_false, List.mem_append] at h ⊢
  -- the header is read first: count, address and type
  have h_header : ∀ i < 4, b i = p.buf i := fun i h_i => h i (Or.inl (by simp; omega))
  rw [h_header 0 (by decide)]
  -- the data are read only if the count and the checksum are right
  by_cases h_count : p.count = 5 + (p.buf 0).toNat
  · by_cases h_cksum : p.cksum = 0
    · simp only [← h_count, h_cksum, ne_eq, not_true_eq_false, or_self, if_false] at h ⊢
      exact @switchType_congr _ _ { p with state := .start, cksum := 0 } s b h_header
        fun i h_i => h i (Or.inr h_i)
    · simp only [h_cksum, ne_eq, ← h_count, not_true_eq_false, not_false_eq_true, if_false, if_true]
  · simp only [h_count, ne_eq, not_false_eq_true, if_true]

/-- A record changes the base at most. -/
theorem switchType_base (p : Parser) (s : σ) :
    (switchType callback p s).2.1 = { p with base := (switchType callback p s).2.1.base } := by
  simp only [switchType]
  split <;> try split_ifs
  all_goals rfl

theorem endRecord_base (p : Parser) (s : σ) :
    (endRecord callback p s).2.1 =
      { p with state := .start, base := (endRecord callback p s).2.1.base } := by
  simp only [endRecord]
  split_ifs
  · rfl
  · rfl
  · rfl
  · exact switchType_base _ s

theorem ihexByte_confined (p : Parser) (s : σ) (dat : UInt8) : Confined callback p s dat := by
  intro b h
  obtain ⟨base, buf, cksum, count, state⟩ := p
  cases h_dat : isEol dat with
  | true =>
    by_cases h_start : state = .start
    · simp [ihexByte, h_dat, h_start]
    · have h_end := @endRecord_congr _ callback _ s dat b h_dat h_start h
      have h_base := @endRecord_base _ callback ⟨base, buf, cksum, count, state⟩ s
      simp only [ihexByte, h_dat, h_start, if_true, if_false, h_end, true_and]
      intro i _
      rw [h_base]
  | false =>
    cases state with
    | start =>
      by_cases h_colon : dat = 58
      · subst h_colon
        simp [ihexByte, h_dat]
      · simp [ihexByte, h_dat, h_colon]
    | copy1 =>
      cases h_v : nybble dat with
      | none => simp [ihexByte, h_dat, h_v]
      | some v =>
        by_cases h_full : count < bufSize
        · simp +contextual [ihexByte, indices, h_dat, h_v, Nat.not_le.mpr h_full]
        · simp [ihexByte, h_dat, h_v, Nat.not_lt.mp h_full]
    | copy2 =>
      cases h_v : nybble dat with
      | none => simp [ihexByte, h_dat, h_v]
      | some v =>
        -- the second half is put to the first
        have h_first : b count = buf count := h count (by simp [indices, h_dat, h_v])
        simp +contextual [ihexByte, indices, h_dat, h_v, h_first]

/-- A pass stays in `ihex_buf`. -/
theorem Parser.InBuf.indices (h : p.InBuf) : ∀ i ∈ indices p dat, i < bufSize := by
  unfold Parser.InBuf bufSize at h
  intro i h_i
  unfold Ihex.indices at h_i
  split_ifs at h_i with h_dat h_short h_bad h_none h_full
  · exact absurd h_i List.not_mem_nil
  · simp only [List.append_nil, List.mem_cons, List.not_mem_nil, or_false] at h_i
    simp only [bufSize]
    omega
  · -- a complete record fits, so its data does
    rw [not_or, not_lt] at h_short
    rw [not_or, not_not, not_not] at h_bad
    have h_count : p.count ≤ 70 := by
      split at h
      · exact absurd ‹_› h_short.1
      · exact h
      · exact h.le
    have h_data : i ∈ dataIndices p → i < 5 + (p.buf 0).toNat ∨ i < 6 := by
      intro h_i
      unfold dataIndices at h_i
      split at h_i
      · have h_lt := (List.mem_range'_1.mp h_i).2
        omega
      · dsimp only at h_i
        split_ifs at h_i
        · exact absurd h_i List.not_mem_nil
        · simp only [List.mem_cons, List.not_mem_nil, or_false] at h_i
          omega
      · dsimp only at h_i
        split_ifs at h_i
        · exact absurd h_i List.not_mem_nil
        · simp only [List.mem_cons, List.not_mem_nil, or_false] at h_i
          omega
      · exact absurd h_i List.not_mem_nil
    simp only [bufSize]
    rcases List.mem_append.mp h_i with h_i | h_i
    · simp only [List.mem_cons, List.not_mem_nil, or_false] at h_i
      omega
    · have h_lt := h_data h_i
      omega
  · exact absurd h_i List.not_mem_nil
  · exact absurd h_i List.not_mem_nil
  · obtain rfl := List.mem_singleton.mp h_i
    rw [not_or] at h_none
    split at h
    · exact absurd ‹_› h_none.1
    · have h_copy1 : p.state = .copy1 := ‹_›
      exact not_le.mp fun h_ge => h_full ⟨h_copy1, h_ge⟩
    · exact h

theorem Parser.InBuf.next (h : p.InBuf) : (ihexByte callback p s dat).2.1.InBuf := by
  unfold Parser.InBuf at h
  simp only [ihexByte]
  cases h_dat : isEol dat with
  | true =>
    -- the end of a line sends the parser to the start
    simp only [if_true]
    split_ifs with h_start
    · simp only [Parser.InBuf, h_start]
    · rw [endRecord_base]
      trivial
  | false =>
    simp only [Bool.false_eq_true, if_false]
    cases h_state : p.state with
    | start =>
      simp only [if_true]
      split_ifs
      · simp only [Parser.InBuf, h_state]
      · exact Nat.zero_le _
    | copy1 =>
      -- the first digit of a byte is refused if there is no room for it
      rw [h_state] at h
      simp only [reduceCtorEq, if_false, if_true]
      cases nybble dat with
      | none => simpa only [Parser.InBuf, h_state] using h
      | some v =>
        dsimp only
        split_ifs with h_full
        · simpa only [Parser.InBuf, h_state] using h
        · exact not_le.mp h_full
    | copy2 =>
      -- so the second one finds room, and `count` grows by one
      rw [h_state] at h
      simp only [reduceCtorEq, if_false]
      cases nybble dat with
      | none => simpa only [Parser.InBuf, h_state] using h
      | some v => exact Nat.succ_le_of_lt h

theorem Parser.InBuf.feed (h : p.InBuf) (inbuf : List UInt8) :
    (∀ i ∈ feedIndices callback p s inbuf, i < bufSize) ∧
      (ihexFeed callback p s inbuf).2.1.InBuf := by
  induction inbuf generalizing p s with
  | nil => exact ⟨fun i h_i => absurd h_i List.not_mem_nil, h⟩
  | cons dat inbuf ih =>
    have h_next : (ihexByte callback p s dat).2.1.InBuf := h.next
    simp only [feedIndices, ihexFeed, List.mem_append]
    split_ifs
    · obtain ⟨h_more, h_after⟩ := @ih _ (ihexByte callback p s dat).2.2 h_next
      exact ⟨fun i h_i => h_i.elim (h.indices i) (h_more i), h_after⟩
    · exact ⟨fun i h_i => h_i.elim (h.indices i) fun h_i => absurd h_i List.not_mem_nil, h_next⟩

/-- No call leaves `ihex_buf`. -/
theorem Parser.InBuf.feeds (h : p.InBuf) (inbufs : List (List UInt8)) :
    ∀ i ∈ feedsIndices callback p s inbufs, i < bufSize := by
  induction inbufs generalizing p s with
  | nil => exact fun i h_i => absurd h_i List.not_mem_nil
  | cons inbuf inbufs ih =>
    obtain ⟨h_first, h_next⟩ := @Parser.InBuf.feed _ callback p s h inbuf
    intro i h_i
    simp only [feedsIndices, List.mem_append] at h_i
    rcases h_i with h_i | h_i
    · exact h_first i h_i
    · split_ifs at h_i
      · exact ih h_next i h_i
      · exact absurd h_i List.not_mem_nil

end Indices

section Result

variable {σ : Type*} {callback : σ → ℕ → List UInt8 → ℕ × σ} {s : σ} {entries : List Entry}
  {offset : UInt16} {text : List UInt8}

/-- **A file is called back, in order and once.** Up to the end of its last line `ihex_feed`
goes on, and there it says that the file has ended. No index into `ihex_buf` reaches 70, and there
are no others. -/
theorem ihex_file (h_text : Renders (fileBytes entries offset) text) {e : UInt8}
    (h_e : isEol e = true) (rest : List UInt8) {inbufs : List (List UInt8)}
    (h_inbufs : inbufs.flatten = text ++ e :: rest) :
    let r := ihexFeeds callback powerUp s inbufs
    (r.1, r.2.2) = deliver callback s (fileWrites 0 entries) ∧
      ((∀ s addr bytes, (callback s addr bytes).1 = 0) →
        r.1 = ihexEof ∧
          r.2.2 = (fileWrites 0 entries).foldl (fun s w => (callback s w.1 w.2).2) s ∧
          ∀ front : List (List UInt8), front.flatten <+: text →
            (ihexFeeds callback powerUp s front).1 = ihexContinue) ∧
      (∀ i ∈ feedsIndices callback powerUp s inbufs, i < 70) ∧
      ∀ p t dat, Confined callback p t dat := by
  have h_places := @Parser.InBuf.feeds _ callback powerUp s trivial inbufs
  simp only [ihexFeeds_eq, h_inbufs]
  have h_base : powerUp.base = 0 := rfl
  rcases @ihexFeed_file _ callback powerUp s _ _ _ h_text rfl with
    ⟨h_ne, ⟨s', addr, bytes, h_refuses⟩, q, h_feed⟩ | ⟨h_eof, q, h_feed, h_copy1, h_held⟩
  · -- a data record is refused
    have h_refused : ihexFeed callback powerUp s (text ++ e :: rest) =
        ihexFeed callback powerUp s text := by
      rw [ihexFeed_append, h_feed]
      exact if_neg h_ne
    rw [h_base] at h_feed
    rw [h_refused, h_feed]
    exact ⟨rfl, fun h => absurd (h s' addr bytes) h_refuses, h_places, ihexByte_confined⟩
  · rw [h_base] at h_eof h_feed
    have h_end := @ihexByte_end _ callback q (deliver callback s (fileWrites 0 entries)).2 _ e _ h_e
      (by simp [h_copy1]) h_held
      (ofBytes_recordBytes (Nat.zero_le _) 1 offset)
    have h_all : ihexFeed callback powerUp s (text ++ e :: rest) =
        (ihexEof, { q with state := .start },
          (deliver callback s (fileWrites 0 entries)).2) := by
      rw [ihexFeed_then h_feed, ihexFeed, h_end]
      exact if_neg (by decide : ihexEof ≠ 0)
    rw [h_all]
    refine ⟨Prod.ext h_eof.symm rfl, fun h => ⟨rfl, ?_, fun front h_front => ?_⟩, h_places,
      ihexByte_confined⟩
    · rw [deliver_accepted callback h]
    · -- the front would have stopped the whole text
      obtain ⟨back, h_back⟩ := h_front
      by_contra h_stop
      rw [← h_back, ihexFeed_append] at h_feed
      dsimp only at h_feed
      rw [if_neg h_stop] at h_feed
      exact h_stop (congrArg Prod.fst h_feed)

/-- A segment base and one byte of data, cut inside a byte and inside a line end. -/
theorem ihex_file_segAddr :
    let r := ihexFeeds (fun s addr bytes => (0, s ++ [(addr, bytes)])) powerUp []
      [[58, 48, 50, 48, 48, 48],
        [48, 48, 50, 49, 48, 48, 48, 69, 67, 13],
        [10, 58, 48, 49, 48, 48, 49, 48, 48, 48, 97, 66, 52, 52, 0],
        [58, 48, 48, 48, 48, 48, 48, 48],
        [49, 102, 70, 10, 13, 10]]
    r.1 = ihexEof ∧ r.2.2 = [(0x10010, [0xAB])] := by
  have h_base : HexText (Entry.segAddr 0 0x1000).bytes
      [48, 50, 48, 48, 48, 48, 48, 50, 49, 48, 48, 48, 69, 67] := by
    repeat' first | exact .nil | refine .cons (by decide) (by decide) ?_
  have h_data : HexText (Entry.data 0x10 [0xAB] (by decide)).bytes
      [48, 49, 48, 48, 49, 48, 48, 48, 97, 66, 52, 52] := by
    repeat' first | exact .nil | refine .cons (by decide) (by decide) ?_
  have h_eof : HexText (recordBytes 1 0 []) [48, 48, 48, 48, 48, 48, 48, 49, 102, 70] := by
    repeat' first | exact .nil | refine .cons (by decide) (by decide) ?_
  -- lines may end in CR LF or in a NUL
  have h_crlf : IsEnds [13, 10] := by decide
  have h_nul : IsEnds [0] := by decide
  -- the file is cut in the middle of records, and of a CR LF
  have h_file := @ihex_file _ (fun s addr bytes => (0, s ++ [(addr, bytes)])) []
    [.segAddr 0 0x1000, .data 0x10 [0xAB] (by decide)] 0 _
    (.cons h_base h_crlf (.cons h_data h_nul (.last h_eof))) 10 (by decide) [13, 10]
    [[58, 48, 50, 48, 48, 48],
        [48, 48, 50, 49, 48, 48, 48, 69, 67, 13],
        [10, 58, 48, 49, 48, 48, 49, 48, 48, 48, 97, 66, 52, 52, 0],
        [58, 48, 48, 48, 48, 48, 48, 48],
        [49, 102, 70, 10, 13, 10]] rfl
  obtain ⟨-, h_accepted, -⟩ := h_file
  obtain ⟨h_rv, h_log, -⟩ := h_accepted fun _ _ _ => rfl
  exact ⟨h_rv, h_log.trans rfl⟩

end Result

end Ihex

end Laureline
