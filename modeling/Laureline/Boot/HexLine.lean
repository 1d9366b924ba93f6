import Laureline.Boot.HexFile

/-!
# Which lines take effect

A line should take effect only if it is a record: a colon and two digits for each byte, as many
as the first byte says, with the sum zero. `ihex_feed` counts whole bytes and looks at its count
and at the sum when the line ends. A first half without a second one is in neither, so a record
with one digit more is taken like the record.

* `ihexFeed_part` — a line that goes on has no effect;
* `Reads.end_cases` — at its end it is a record, or a record with a digit more, or refused;
* `OddDigit.takes` — a record with a digit more is taken;
* `ihex_strict_iff` — a line is read as it should be just if it has no digit more.
-/

namespace Laureline

namespace Ihex

/-! ### Records and effects -/

/-- The line is a record. -/
def WellFormed (line : List UInt8) : Prop :=
  ∃ n rest digits, line = 58 :: digits ∧ HexText (n :: rest) digits ∧
    (n :: rest).length = 5 + n.toNat ∧ (n :: rest).sum = 0

/-- The line is a record that fits and says something, and one digit more. -/
def OddDigit (line : List UInt8) : Prop :=
  ∃ bytes digits c v, line = 58 :: (digits ++ [c]) ∧ HexText bytes digits ∧ IsHexDigit c v ∧
    bytes.length < bufSize ∧ Record.ofBytes bytes ≠ none

section Effects

variable {σ : Type*}

/-- The callback, with a list of its calls. -/
def logged (callback : σ → ℕ → List UInt8 → ℕ × σ) :
    σ × List (ℕ × List UInt8) → ℕ → List UInt8 → ℕ × (σ × List (ℕ × List UInt8)) :=
  fun s addr bytes =>
    let r := callback s.1 addr bytes
    (r.1, r.2, s.2 ++ [(addr, bytes)])

/-- Nothing has taken effect from one result of `ihex_feed` to another. -/
structure Quiet (r₀ r : ℕ × Parser × (σ × List (ℕ × List UInt8))) : Prop where
  not_eof : r.1 ≠ ihexEof
  base : r.2.1.base = r₀.2.1.base
  calls : r.2.2 = r₀.2.2

/-- The line after `pre` is read as it should be: it has no effect before its end, and at its end
it is refused if it is not a record. -/
structure Strict (callback : σ → ℕ → List UInt8 → ℕ × σ) (p : Parser) (s : σ)
    (pre line : List UInt8) (e : UInt8) : Prop where
  early : ∀ part, part <+: line → Quiet (ihexFeed (logged callback) p (s, []) pre)
    (ihexFeed (logged callback) p (s, []) (pre ++ part))
  refuses : ¬ WellFormed line → ∀ rest,
    (ihexFeed (logged callback) p (s, []) (pre ++ (line ++ e :: rest))).1 ∈ ihexErrors ∧
      Quiet (ihexFeed (logged callback) p (s, []) pre)
        (ihexFeed (logged callback) p (s, []) (pre ++ (line ++ e :: rest)))

end Effects

/-- A text that ends where a line may begin. -/
def AtLineStart (pre : List UInt8) : Prop := ∀ c ∈ pre.getLast?, isEol c = true

/-! ### Digits of a line -/

theorem hexText_of_hexBytes : ∀ {digits bytes : List UInt8}, hexBytes digits = some bytes →
    digits.length = 2 * bytes.length → HexText bytes digits
  | [], bytes, h, _ => by
    obtain rfl := Option.some.inj h
    exact .nil
  | [hi], bytes, _, h_even => by
    rw [List.length_singleton] at h_even
    omega
  | hi :: lo :: digits, bytes, h, h_even => by
    obtain ⟨v, w, rest, h_hi, h_lo, h_rest, rfl⟩ := hexBytes_pair_inv h
    have h_even' : digits.length = 2 * rest.length := by
      simp only [List.length_cons] at h_even
      omega
    have h_v := nybble_lt h_hi
    have h_w := nybble_lt h_lo
    -- the two digits do not carry into each other
    have h_byte : (16 * v + w).toNat = 16 * v.toNat + w.toNat := by
      rw [UInt8.toNat_add, UInt8.toNat_mul]
      simp only [UInt8.reduceToNat]
      omega
    refine .cons ?_ ?_ (hexText_of_hexBytes h_rest h_even')
    · rw [h_byte, show (16 * v.toNat + w.toNat) / 16 = v.toNat by omega]
      exact isHexDigit_of_nybble h_hi
    · rw [h_byte, show (16 * v.toNat + w.toNat) % 16 = w.toNat by omega]
      exact isHexDigit_of_nybble h_lo

/-- A record has an even number of digits. -/
theorem WellFormed.length {line : List UInt8} (h : WellFormed line) : line.length % 2 = 1 := by
  obtain ⟨n, rest, digits, rfl, h_digits, -, -⟩ := h
  rw [List.length_cons, h_digits.length]
  omega

theorem OddDigit.length {line : List UInt8} (h : OddDigit line) : line.length % 2 = 0 := by
  obtain ⟨bytes, digits, c, v, rfl, h_digits, -⟩ := h
  rw [List.length_cons, List.length_append, List.length_singleton, h_digits.length]
  omega

/-- The bytes of a record make a record. -/
theorem wellFormed_of_ofBytes {bytes digits : List UInt8} (h_digits : HexText bytes digits)
    (h : Record.ofBytes bytes ≠ none) : WellFormed (58 :: digits) := by
  by_cases h_short : bytes.length < 5
  · exact absurd (ofBytes_short h_short) h
  obtain ⟨n, hi, lo, rtype, rest, rfl⟩ := exists_header h_short
  by_cases h_record : rest.length = n.toNat + 1 ∧ (n :: hi :: lo :: rtype :: rest).sum = 0
  · refine ⟨n, _, digits, rfl, h_digits, ?_, h_record.2⟩
    simp only [List.length_cons, h_record.1]
    omega
  · exact absurd (if_neg h_record) h

section Effect

variable {σ : Type*} {callback : σ → ℕ → List UInt8 → ℕ × σ} {p : Parser} {s : σ} {e : UInt8}
  {line : List UInt8}

/-! ### Up to the end of a line -/

/-- A byte of a line has no effect. -/
theorem ihexByte_quiet {dat : UInt8} (h_dat : isEol dat = false) :
    let r := ihexByte callback p s dat
    (r.1 = 0 ∨ r.1 ∈ ihexErrors) ∧ r.2.1.base = p.base ∧ r.2.2 = s := by
  have h_invalid : ihexInvalid ∈ ihexErrors := by decide
  have h_unsupported : ihexUnsupported ∈ ihexErrors := by decide
  simp only [ihexByte, h_dat, Bool.false_eq_true, if_false]
  cases nybble dat <;> split_ifs
  all_goals exact ⟨by first | exact Or.inl rfl | exact Or.inr ‹_›, rfl, rfl⟩

/-- A line that goes on. Either its digits are in `ihex_buf`, or it is refused. -/
theorem ihexFeed_part (h : Reads p line) (h_buf : p.InBuf) {part : List UInt8}
    (h_part : ∀ c ∈ part, isEol c = false) :
    let r := ihexFeed callback p s part
    (r.1 = ihexContinue ∧ Reads r.2.1 (line ++ part) ∧ r.2.1.InBuf ∨ r.1 ∈ ihexErrors) ∧
      r.2.1.base = p.base ∧ r.2.2 = s := by
  induction part generalizing p line with
  | nil => exact ⟨Or.inl ⟨rfl, by rwa [List.append_nil], h_buf⟩, rfl, rfl⟩
  | cons c part ih =>
    have h_c := h_part c List.mem_cons_self
    obtain ⟨h_rv, h_base, h_state⟩ := @ihexByte_quiet _ callback p s _ h_c
    have h_next : (ihexByte callback p s c).2.1.InBuf := h_buf.next
    simp only [ihexFeed]
    -- a byte that is taken leaves the rest of the part, a byte that is refused ends it
    by_cases h_zero : (ihexByte callback p s c).1 = 0
    · simp only [if_pos h_zero]
      have h_reads := (ihexByte_text h h_c h_zero).1
      have h_more := ih h_reads h_next fun c h_c => h_part c (List.mem_cons_of_mem _ h_c)
      rw [List.append_assoc, List.singleton_append, h_base] at h_more
      rw [h_state]
      exact h_more
    · simp only [if_neg h_zero]
      exact ⟨Or.inr (h_rv.resolve_left h_zero), h_base, h_state⟩

/-- The end of a line that has been read. It is a record, or a record with a digit more, or it is
refused. -/
theorem Reads.end_cases (h : Reads p line) (h_buf : p.InBuf) (h_ne : line ≠ [])
    (h_e : isEol e = true) :
    WellFormed line ∨ OddDigit line ∨
      ∃ rv ∈ ihexErrors, ihexByte callback p s e = (rv, { p with state := .start }, s) := by
  have h_end (h_state : p.state ≠ .start) : ihexByte callback p s e = endRecord callback p s := by
    simp only [ihexByte, h_e, if_true, if_neg h_state]
  have h_refused {bytes : List UInt8} (h_state : p.state ≠ .start) (h_held : Held p bytes)
      (h_none : Record.ofBytes bytes = none) :
      ∃ rv ∈ ihexErrors, ihexByte callback p s e = (rv, { p with state := .start }, s) := by
    have h_eq := endRecord_eq callback (s := s) h_held
    rw [h_none] at h_eq
    rw [h_end h_state]
    exact h_eq
  cases h with
  | start => exact absurd rfl h_ne
  | copy1 digits bytes h_state h_held h_digits h_even =>
    by_cases h_record : Record.ofBytes bytes = none
    · exact Or.inr (Or.inr (h_refused (by simp [h_state]) h_held h_record))
    · exact Or.inl (wellFormed_of_ofBytes (hexText_of_hexBytes h_digits h_even) h_record)
  | copy2 digits bytes hi v h_state h_held h_digits h_even h_hi h_first =>
    by_cases h_record : Record.ofBytes bytes = none
    · exact Or.inr (Or.inr (h_refused (by simp [h_state]) h_held h_record))
    · -- the first half of the next byte has its place
      have h_fits : bytes.length < bufSize := by
        rw [← h_held.count]
        simpa only [Parser.InBuf, h_state] using h_buf
      exact Or.inr (Or.inl ⟨bytes, digits, hi, v.toNat, rfl, hexText_of_hexBytes h_digits h_even,
        isHexDigit_of_nybble h_hi, h_fits, h_record⟩)

/-- A record with one digit more is taken like the record. -/
theorem OddDigit.takes (h : OddDigit line) (h_state : p.state = .start) (h_e : isEol e = true) :
    ∃ record q, ihexFeed callback p s line = (ihexContinue, q, s) ∧ q.base = p.base ∧
      ihexByte callback q s e =
        let r := Record.exec callback q.base s record
        (r.1, { q with state := .start, base := r.2.1 }, r.2.2) := by
  obtain ⟨bytes, digits, c, v, rfl, h_digits, h_c, h_fits, h_record⟩ := h
  obtain ⟨record, h_record⟩ := Option.ne_none_iff_exists'.mp h_record
  obtain ⟨q, h_feed, h_copy1, h_base, h_held⟩ :=
    @ihexFeed_line _ callback p s _ _ h_digits h_state h_fits.le
  -- the last digit is stored behind the record, and the sum and the count leave it out
  have h_byte := @ihexByte_digit _ callback q s _ _ (nybble_of_isHexDigit h_c) (by simp [h_copy1])
    (by rwa [h_held.count])
  rw [if_pos h_copy1] at h_byte
  have h_held' := h_held.copy1 (UInt8.ofNat v <<< 4)
  generalize h_q' : { q with
    buf := Function.update q.buf q.count (UInt8.ofNat v <<< 4), state := .copy2 } = q'
    at h_byte h_held'
  have h_copy2 : q'.state ≠ .start := by
    rw [← h_q']
    simp
  refine ⟨record, q', ?_, ?_, ihexByte_end h_e h_copy2 h_held' h_record⟩
  · rw [← List.cons_append, ihexFeed_then h_feed, ihexFeed, h_byte]
    rfl
  · rw [← h_q']
    exact h_base

/-! ### A line of a text -/

/-- Where a line may begin, the parser waits for one. -/
theorem ihexFeed_atLineStart {pre : List UInt8} (h_state : p.state = .start)
    (h_pre : AtLineStart pre) (h_reached : (ihexFeed callback p s pre).1 = ihexContinue) :
    (ihexFeed callback p s pre).2.1.state = .start := by
  -- the text is empty or ends with an end of a line
  rcases List.eq_nil_or_concat pre with rfl | ⟨front, c, rfl⟩
  · exact h_state
  rw [List.concat_eq_append] at h_pre h_reached ⊢
  have h_c : isEol c = true := h_pre c (by simp)
  rw [ihexFeed_append] at h_reached ⊢
  dsimp only at h_reached ⊢
  -- after which the parser is at the start, whatever it was in
  split_ifs at h_reached ⊢ with h_front
  · simp only [ihexFeed, ihexByte, h_c, if_true]
    split_ifs with h_start h_zero
    · exact h_start
    · exact absurd rfl h_zero
    · rw [endRecord_base]
    · rw [endRecord_base]
  · contradiction

theorem ihexFeed_singleton (p : Parser) (s : σ) (dat : UInt8) :
    ihexFeed callback p s [dat] = ihexByte callback p s dat := by
  simp only [ihexFeed]
  split_ifs with h_zero
  · exact Prod.ext h_zero.symm rfl
  · rfl

variable {q : Parser} {t : σ × List (ℕ × List UInt8)}

/-- The end of a record is an effect, unless it is a start address record; then it is no error. -/
theorem Record.exec_effect (record : Record) (base : ℕ) (t : σ × List (ℕ × List UInt8)) :
    (record.exec (logged callback) base t).1 ∉ ihexErrors ∨
      (record.exec (logged callback) base t).2.2 ≠ t := by
  cases record with
  | data addr bytes =>
    refine Or.inr fun h => ?_
    have h_calls := congrArg List.length (congrArg Prod.snd h)
    simp [Record.exec, logged] at h_calls
  | eof => exact Or.inl (by simp [Record.exec, ihexErrors, ihexEof, ihexInvalid, ihexUnsupported,
      ihexChecksum])
  | base _ | start => exact Or.inl (by simp [Record.exec, ihexErrors, ihexInvalid,
      ihexUnsupported, ihexChecksum])

/-- A line that has no digit more, from its start. -/
theorem ihexFeed_refuses (h_state : q.state = .start) (h_line : ∀ c ∈ line, isEol c = false)
    (h_ne : line ≠ []) (h_e : isEol e = true) (h_odd : ¬ OddDigit line)
    (h_wellFormed : ¬ WellFormed line) (rest : List UInt8) :
    let r := ihexFeed (logged callback) q t (line ++ e :: rest)
    r.1 ∈ ihexErrors ∧ r.2.1.base = q.base ∧ r.2.2 = t := by
  obtain ⟨h_or, h_base, h_quiet⟩ :=
    @ihexFeed_part _ (logged callback) q t _ (.start h_state) (.of_start h_state) line h_line
  rw [ihexFeed_append]
  dsimp only
  rcases h_or with ⟨h_zero, h_reads, h_fits⟩ | h_error
  · -- the line has been read, and is refused at its end
    rw [if_pos h_zero, h_quiet, ihexFeed]
    rw [List.nil_append] at h_reads
    obtain h | h | ⟨rv, h_rv, h_byte⟩ :=
      @Reads.end_cases _ (logged callback) _ t e line h_reads h_fits h_ne h_e
    · contradiction
    · contradiction
    · rw [h_byte]
      dsimp only
      rw [if_neg (ihexErrors_ne h_rv).1]
      exact ⟨h_rv, h_base, rfl⟩
  · have h_stop : (ihexFeed (logged callback) q t line).1 ≠ ihexContinue :=
      (ihexErrors_ne h_error).1
    rw [if_neg h_stop]
    exact ⟨h_error, h_base, h_quiet⟩

/-- **Only records take effect, and records with one digit more.** -/
theorem ihex_strict_iff (callback : σ → ℕ → List UInt8 → ℕ × σ) (s : σ) (h_state : p.state = .start)
    {pre : List UInt8} (h_pre : AtLineStart pre)
    (h_reached : (ihexFeed (logged callback) p (s, []) pre).1 = ihexContinue)
    (h_line : ∀ c ∈ line, isEol c = false) (h_ne : line ≠ []) (h_e : isEol e = true) :
    Strict callback p s pre line e ↔ ¬ OddDigit line := by
  -- the text before has left the parser at the start of a line
  have h_start := ihexFeed_atLineStart h_state h_pre h_reached
  generalize h_r₀ : ihexFeed (logged callback) p (s, []) pre = r₀ at h_reached h_start
  obtain ⟨rv, q, t⟩ := r₀
  obtain rfl : rv = ihexContinue := h_reached
  have h_then := ihexFeed_then h_r₀
  constructor
  -- a line with one digit more is not well formed, and still has the effect of its record
  · intro h_strict h_odd
    have h_wellFormed : ¬ WellFormed line := by
      intro h
      have h_length := h_odd.length
      have h_length' := h.length
      omega
    obtain ⟨record, q', h_feed, h_base, h_end⟩ :=
      @OddDigit.takes _ (logged callback) q t e line h_odd h_start h_e
    obtain ⟨h_error, h_quiet⟩ := h_strict.refuses h_wellFormed []
    have h_calls := h_quiet.calls
    rw [h_r₀, h_then, ihexFeed_then h_feed, ihexFeed_singleton, h_end] at h_calls
    rw [h_then, ihexFeed_then h_feed, ihexFeed_singleton, h_end] at h_error
    exact (Record.exec_effect record q'.base t).elim (· h_error) (· h_calls)
  · intro h_odd
    -- before its end a line has no effect; at its end an error is reported
    refine ⟨fun part h_part => ?_, fun h_wellFormed rest => ?_⟩
    · rw [h_then, h_r₀]
      obtain ⟨h_or, h_base, h_calls⟩ := @ihexFeed_part _ (logged callback) q t [] (.start h_start)
        (.of_start h_start) part fun c h_c => h_line c (h_part.subset h_c)
      refine ⟨?_, h_base, h_calls⟩
      -- a part of a line is read, or refused at once
      rcases h_or with ⟨h_zero, -⟩ | h_error
      · rw [h_zero]
        decide
      · exact (ihexErrors_ne h_error).2
    · rw [h_then, h_r₀]
      obtain ⟨h_error, h_base, h_calls⟩ := @ihexFeed_refuses _ callback e line q t h_start h_line
        h_ne h_e h_odd h_wellFormed rest
      exact ⟨h_error, (ihexErrors_ne h_error).2, h_base, h_calls⟩

end Effect

/-- A data record with one digit more is called back. -/
theorem ihex_strict_oddDigit :
    let line : List UInt8 := [58, 48, 49, 48, 48, 48, 48, 48, 48, 53, 53, 65, 65, 53]
    ¬ Strict (fun s _ _ => (0, s)) powerUp () [] line 10 ∧
      (ihexFeed (logged fun s _ _ => (0, s)) powerUp ((), []) (line ++ [10])).2.2.2 =
        [(0, [0x55])] := by
  intro line
  refine ⟨fun h => ?_, by decide⟩
  have h_wellFormed : ¬ WellFormed line := fun h => absurd h.length (by decide)
  exact absurd (h.refuses h_wellFormed []).1 (by decide)

/-- An EOF record with a wrong checksum. -/
theorem ihex_strict_checksum :
    let line : List UInt8 := [58, 48, 48, 48, 48, 48, 48, 48, 49, 70, 69]
    (ihexFeed (logged fun s _ _ => (0, s)) powerUp ((), []) (line ++ [10])).1 ∈ ihexErrors := by
  intro line
  have h_strict := (@ihex_strict_iff Unit powerUp 10 line (fun s _ _ => (0, s)) () rfl []
    (by simp [AtLineStart]) rfl (by simp [line, isEol]) (by decide) (by decide)).mpr
      fun h => absurd h.length (by decide)
  have h_wellFormed : ¬ WellFormed line := by
    rintro ⟨n, rest, digits, h_line, h_digits, -, h_sum⟩
    obtain ⟨-, rfl⟩ := List.cons_eq_cons.mp h_line
    have h_bytes : some (n :: rest) = some [0, 0, 0, 1, 0xFE] := h_digits.hexBytes.symm
    rw [Option.some.inj h_bytes] at h_sum
    exact absurd h_sum (by decide)
  exact (h_strict.refuses h_wellFormed []).1

end Ihex

end Laureline
