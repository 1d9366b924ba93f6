import Laureline.Boot.HexLine

/-!
# What is taken from a text

Any text, with errors in it or without an end. `ihex_feed` calls back for the data records up to
the first line that is no record, up to the EOF record or up to a data record that is refused.

* `ihexFeed_taken` — what a call of `ihex_feed` does with its text.
-/

namespace Laureline

namespace Ihex

/-- The record that is taken from a line. The bytes of the line have to fit. -/
def taken (line : List UInt8) : Option Record :=
  if line.length ≤ 2 * bufSize + 1 then decode line else none

/-- The lines are read up to an EOF record. -/
def endsInEof : List (Option Record) → Bool
  | some .eof :: _ => true
  | some (.data _ _) :: records => endsInEof records
  | some (.base _) :: records => endsInEof records
  | some .start :: records => endsInEof records
  | _ => false

/-- A line that goes on is the first line of its text. -/
theorem lines_cases {line : List UInt8} (h : line ≠ []) (text : List UInt8) :
    lines line text = [] ∨ ∃ more rest, lines line text = (line ++ more) :: rest := by
  induction text generalizing line with
  | nil => exact Or.inl rfl
  | cons dat text ih =>
    simp only [lines, if_neg h]
    split_ifs
    · exact Or.inr ⟨[], _, by rw [List.append_nil]⟩
    · rcases ih (by simp : line ++ [dat] ≠ []) with h_nil | ⟨more, rest, h_more⟩
      · exact Or.inl h_nil
      · exact Or.inr ⟨dat :: more, rest, by rw [h_more, List.append_assoc, List.singleton_append]⟩

section Taken

variable {σ : Type*} {callback : σ → ℕ → List UInt8 → ℕ × σ} {p : Parser} {s : σ}
  {line bytes : List UInt8} {dat : UInt8}

/-- A line that was read fits. -/
theorem taken_of_reads (h : Reads p line) (h_fits : p.InBuf) : taken line = decode line := by
  refine if_pos ?_
  cases h with
  | start => exact Nat.zero_le _
  | copy1 digits bytes h_state h_held h_digits h_even =>
    simp only [Parser.InBuf, h_state, h_held.count] at h_fits
    rw [List.length_cons, h_even]
    omega
  | copy2 digits bytes hi v h_state h_held h_digits h_even =>
    simp only [Parser.InBuf, h_state, h_held.count] at h_fits
    rw [List.length_cons, List.length_append, List.length_singleton, h_even]
    omega

/-- A digit that is none ends the bytes. -/
theorem hexBytes_of_nybble {digits : List UInt8} (h : hexBytes digits = some bytes)
    (h_even : digits.length = 2 * bytes.length) {front : List UInt8}
    (h_none : ∀ more, hexBytes (front ++ more) = none) (more : List UInt8) :
    decode (58 :: (digits ++ (front ++ more))) = none := by
  show (hexBytes _).bind Record.ofBytes = none
  rw [hexBytes_append h h_even, h_none more]
  rfl

/-- A byte at which the reading stops is in no record. -/
theorem Reads.taken_none (h : Reads p line) (h_dat : isEol dat = false)
    (h_stop : (ihexByte callback p s dat).1 ≠ 0) (more : List UInt8) :
    taken (line ++ [dat] ++ more) = none := by
  unfold taken
  split_ifs with h_length
  swap
  · rfl
  unfold ihexByte at h_stop
  simp only [h_dat, Bool.false_eq_true, if_false] at h_stop
  cases h with
  | start h_state =>
    simp only [h_state, if_true] at h_stop
    split_ifs at h_stop with h_colon
    · -- no colon
      exact decode.eq_2 _ fun digits h_eq => h_colon (List.cons.inj h_eq).1
    · exact absurd rfl h_stop
  | copy1 digits bytes h_state h_held h_digits h_even =>
    -- a line that is short enough leaves room, so the byte is no digit
    have h_room : p.count < bufSize := by
      simp only [List.cons_append, List.length_cons, List.length_append, List.length_nil,
        h_even] at h_length
      rw [h_held.count]
      omega
    simp only [h_state, reduceCtorEq, if_false, if_true, ge_iff_le, Nat.not_le.mpr h_room]
      at h_stop
    cases h_v : nybble dat with
    | some v =>
      rw [h_v] at h_stop
      exact absurd rfl h_stop
    | none =>
      rw [List.cons_append, List.cons_append, List.append_assoc]
      refine hexBytes_of_nybble h_digits h_even (fun more => ?_) more
      cases more <;> simp [hexBytes, h_v]
  | copy2 digits bytes hi v h_state h_held h_digits h_even h_hi =>
    simp only [h_state, reduceCtorEq, if_false] at h_stop
    cases h_w : nybble dat with
    | some w =>
      rw [h_w] at h_stop
      exact absurd rfl h_stop
    | none =>
      rw [List.cons_append, List.cons_append, List.append_assoc, List.append_assoc,
        ← List.append_assoc [hi]]
      refine hexBytes_of_nybble h_digits h_even (fun more => ?_) more
      simp [hexBytes, h_w]

theorem ihexByte_emptyLine (h : Reads p []) (h_dat : isEol dat = true) :
    ihexByte callback p s dat = (0, p, s) := by
  cases h with
  | start h_state => simp only [ihexByte, h_dat, if_true, h_state]

/-- After a byte at which the reading stops there are no records. -/
theorem Reads.taken_lines (h : Reads p line) (h_dat : isEol dat = false)
    (h_stop : (ihexByte callback p s dat).1 ≠ 0) (text : List UInt8) :
    lines (line ++ [dat]) text = [] ∨
      ∃ rest, (lines (line ++ [dat]) text).map taken = none :: rest := by
  rcases lines_cases (by simp : line ++ [dat] ≠ []) text with h_nil | ⟨more, rest, h_more⟩
  · exact Or.inl h_nil
  · right
    refine ⟨rest.map taken, ?_⟩
    rw [h_more, List.map_cons, h.taken_none h_dat h_stop more]

variable (callback s) in
/-- The end of a line does what its record says, and fails where none is taken from it. -/
theorem Reads.endOfLine (h : Reads p line) (h_fits : p.InBuf) (h_ne : line ≠ [])
    (h_dat : isEol dat = true) :
    match taken line with
    | some record =>
      let r := record.exec callback p.base s
      ihexByte callback p s dat = (r.1, { p with state := .start, base := r.2.1 }, r.2.2)
    | none =>
      ∃ rv ∈ ihexErrors, ihexByte callback p s dat = (rv, { p with state := .start }, s) := by
  obtain ⟨h_state, bytes, h_held, h_decode⟩ := h.decode h_ne
  have h_byte : ihexByte callback p s dat = endRecord callback p s := by
    simp only [ihexByte, h_dat, if_true, if_neg h_state]
  rw [taken_of_reads h h_fits, h_decode, h_byte]
  exact endRecord_eq callback h_held

/-- **What is taken from a text.** The callback gets the data records up to one that it refuses,
and the text ends where its lines end in an EOF record. -/
theorem ihexFeed_taken (h_callback : ∀ s addr bytes, (callback s addr bytes).1 ≠ ihexEof)
    (h : Reads p line) (h_fits : p.InBuf) (text : List UInt8) :
    let records := (lines line text).map taken
    let d := deliver callback s (writes p.base records)
    let r := ihexFeed callback p s text
    r.2.2 = d.2 ∧ (r.1 = ihexEof ↔ d.1 = ihexEof ∧ endsInEof records = true) := by
  -- along the text, as in `ihexFeed_eof`; here it may also stop
  induction text generalizing p s line with
  | nil =>
    have h_ne : ihexContinue ≠ ihexEof := by decide
    exact ⟨rfl, fun h' => absurd h' h_ne, fun h' => absurd h'.2 Bool.false_ne_true⟩
  | cons dat text ih =>
    simp only [ihexFeed, lines]
    cases h_dat : isEol dat with
    | false =>
      simp only [Bool.false_eq_true, if_false]
      obtain ⟨-, h_base, h_s⟩ := @ihexByte_quiet _ callback p s _ h_dat
      by_cases h_zero : (ihexByte callback p s dat).1 = 0
      · have h_reads := (ihexByte_text h h_dat h_zero).1
        have h_rest := ih (s := s) h_reads h_fits.next
        rw [h_base] at h_rest
        rw [if_pos h_zero, h_s]
        exact h_rest
      · -- an error in the line
        have h_ne : (ihexByte callback p s dat).1 ≠ ihexEof := ihexByte_ne_eof h_dat
        rw [if_neg h_zero]
        rcases h.taken_lines h_dat h_zero text with h_nil | ⟨rest, h_none⟩
        · rw [h_nil]
          exact ⟨h_s, fun h' => absurd h' h_ne, fun h' => absurd h'.2 Bool.false_ne_true⟩
        · rw [h_none]
          exact ⟨h_s, fun h' => absurd h' h_ne, fun h' => absurd h'.2 Bool.false_ne_true⟩
    | true =>
      simp only [if_true]
      by_cases h_line : line = []
      · subst h_line
        rw [ihexByte_emptyLine h h_dat]
        exact ih h h_fits
      have h_end := h.endOfLine callback s h_fits h_line h_dat
      have h_start (b : ℕ) : Reads { p with state := .start, base := b } [] := .start rfl
      have h_inBuf (b : ℕ) : Parser.InBuf { p with state := .start, base := b } := .of_start rfl
      rw [if_neg h_line, List.map_cons]
      cases h_record : taken line with
      | none =>
        simp only [h_record] at h_end
        obtain ⟨rv, h_rv, h_end⟩ := h_end
        obtain ⟨h_ne, h_ne_eof⟩ := ihexErrors_ne h_rv
        rw [h_end, if_neg h_ne]
        exact ⟨rfl, fun h' => absurd h' h_ne_eof, fun h' => absurd h'.2 Bool.false_ne_true⟩
      | some record =>
        simp only [h_record] at h_end
        rw [h_end]
        cases record with
        | data addr data =>
          simp only [Record.exec, writes, deliver, endsInEof]
          by_cases h_zero : (callback s ((addr + p.base) % 2 ^ 32) data).1 = 0
          · simp only [h_zero, if_true]
            exact ih (h_start _) (h_inBuf _)
          · -- the callback refused its data
            simp only [h_zero, if_false]
            have h_ne := h_callback s ((addr + p.base) % 2 ^ 32) data
            exact ⟨trivial, fun h' => absurd h' h_ne, fun h' => absurd h'.1 h_ne⟩
        | eof =>
          have h_ne : ihexEof ≠ 0 := by decide
          simp only [Record.exec, writes, deliver, endsInEof, h_ne, if_false]
          trivial
        | base base => exact ih (h_start _) (h_inBuf _)
        | start => exact ih (h_start _) (h_inBuf _)

end Taken

end Ihex

end Laureline
