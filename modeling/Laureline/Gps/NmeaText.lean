import Laureline.Gps.Nmea
import Laureline.Gps.Parser
import Laureline.Gps.Run
import Laureline.Util.Tokens

/-!
# The text of an NMEA sentence

From `$` on the characters are stored and their exclusive or is kept; `Took` is what the parser has
after some of them. A sentence that ends with CR leaves the parser in its state, so that a LF behind
it is the end of a sentence again, with the buffer as `strtok_s` has left it.

* `Took.chars` — the characters;
* `sentenceText_eq` — the text is what has been stored;
* `sentenceText_again` — at the second end it is the name of the type alone.
-/

namespace Laureline

/-! ### Further calls of `strtok_s` -/

/-- `strtok_s` goes on behind the first piece. -/
def Strtok.Behind (t : Strtok) : Prop := ∀ q, t.last = some q → (text t.mem).length ≤ q

/-- A call that goes on leaves the text at the start alone. -/
theorem Strtok.Behind.strtokS {t : Strtok} (h : t.Behind) (delim : UInt8) :
    (strtokS t none delim).2.Behind ∧ text (strtokS t none delim).2.mem = text t.mem := by
  unfold Laureline.strtokS
  rw [Option.none_or]
  split
  · exact ⟨h, rfl⟩
  · next p h_last =>
    have h_le := h p h_last
    split
    · next k h_k =>
      -- the terminator is stored behind the text
      have h_text : text (t.mem.set (p + k) 0) = text t.mem := text_set (by omega)
      refine ⟨fun q h_q => ?_, h_text⟩
      obtain rfl := Option.some.inj h_q
      dsimp only
      rw [h_text]
      omega
    · exact ⟨fun q h_q => (Option.some_ne_none q h_q.symm).elim, rfl⟩

/-- So does a program that fetches pieces. -/
theorem Reader.run_text {α : Type} (r : Reader α) (delim : UInt8) {t : Strtok} (h : t.Behind) :
    text (r.run delim t).2.mem = text t.mem := by
  induction r generalizing t with
  | ret a => rfl
  | fail => rfl
  | next k ih =>
    obtain ⟨h_behind, h_text⟩ := h.strtokS delim
    unfold run
    split
    -- no piece is left
    · next t' h_call => rw [h_call] at h_text; exact h_text
    · next ptr t' h_call =>
      -- the rest of the program starts behind the text too
      rw [h_call] at h_behind h_text
      rw [ih _ h_behind]
      exact h_text

/-- The first call leaves the first piece as the text at the start. -/
theorem strtokS_first (mem : List UInt8) (delim : UInt8) :
    (strtokS ⟨mem, none, []⟩ (some 0) delim).2.Behind ∧
      text (strtokS ⟨mem, none, []⟩ (some 0) delim).2.mem = (cut delim (text mem)).1 := by
  constructor
  -- what is left is behind the delimiter that was overwritten
  · unfold strtokS
    rw [Option.some_or]
    dsimp only
    split
    · next k h_k =>
      intro q h_q
      obtain rfl := Option.some.inj h_q
      exact (length_text_set mem (0 + k)).trans (Nat.le_succ _)
    · exact fun q h_q => (Option.some_ne_none q h_q.symm).elim
  · obtain ⟨t, h_call, h_piece, -⟩ :=
      strtokS_rest (t := ⟨mem, none, []⟩) (p := 0) (some 0) delim rfl
    rw [h_call]
    exact h_piece

namespace Gps

open Run

/-! ### The buffer after a sentence -/

theorem Pbuf.bytes_update (p : Pbuf) (i : ℕ) (v : UInt8) :
    Pbuf.bytes (Function.update p i v) = p.bytes.set i v := by
  refine List.ext_getElem (by simp [Pbuf.bytes]) fun j h_j _ => ?_
  simp [Pbuf.bytes, List.getElem_set, Function.update_apply, eq_comm]

/-- The positions noted by `strtok_s` are those that it has overwritten. -/
def Strtok.Of (p : Pbuf) (t : Strtok) : Prop := (p.cut t.zeroed.reverse).bytes = t.mem

theorem Strtok.Of.strtokS {p : Pbuf} {t : Strtok} (h : Strtok.Of p t) (str : Option ℕ)
    (delim : UInt8) : Strtok.Of p (strtokS t str delim).2 := by
  unfold Laureline.strtokS
  split
  · exact h
  · split
    · next k _ =>
      -- one position more is noted and overwritten
      unfold Strtok.Of Pbuf.cut Pbuf.store at *
      dsimp only
      rw [List.reverse_cons, List.map_append, List.foldl_append, List.map_singleton,
        List.foldl_cons, List.foldl_nil, Pbuf.bytes_update, h]
    · exact h

theorem Strtok.Of.run {p : Pbuf} {α : Type} (r : Reader α) (delim : UInt8) {t : Strtok}
    (h : Strtok.Of p t) : Strtok.Of p (r.run delim t).2 := by
  induction r generalizing t with
  | ret a => exact h
  | fail => exact h
  | next k ih =>
    have h_next := h.strtokS none delim
    unfold Reader.run
    split
    · next t' h_call => rw [h_call] at h_next; exact h_next
    · next ptr t' h_call => rw [h_call] at h_next; exact ih _ h_next

/-- **A sentence leaves its first piece in the buffer.** -/
theorem nmeaSentence_pbuf (n : Nmea) (p : Pbuf) (tick : ℕ) :
    text ((p.store (nmeaSentence n p tick).writes).cut (nmeaSentence n p tick).cuts).bytes =
      (cut 0x2C (sentenceText n p)).1 := by
  rw [(nmeaSentence_frame n p tick).2.1]
  have h_of := Strtok.Of.strtokS (p := p.store [(n.rxCount, 0)])
    (t := ⟨(p.store [(n.rxCount, 0)]).bytes, none, []⟩) rfl (some 0) 0x2C
  -- the first call cuts the text at its first comma
  obtain ⟨h_behind, h_text⟩ := strtokS_first (p.store [(n.rxCount, 0)]).bytes 0x2C
  replace h_text : _ = (cut 0x2C (sentenceText n p)).1 := h_text
  unfold nmeaSentence
  dsimp only
  split
  · next t h_call =>
    rw [h_call] at h_of h_text
    exact (congrArg text h_of).trans h_text
  · next ptr t h_call =>
    rw [h_call] at h_of h_text h_behind
    split
    · exact (congrArg text h_of).trans h_text
    · next type _ =>
      split
      · exact (congrArg text h_of).trans h_text
      -- the later calls cut behind it
      · have h_run := Strtok.Of.run type.reader 0x2C h_of
        exact (congrArg text h_run).trans ((type.reader.run_text 0x2C h_behind).trans h_text)

/-- What the parser notes of a sentence with the given pieces. -/
def sentenceSeen (n : Nmea) (tick : ℕ) : List (List UInt8) → Nmea
  | [] => n
  | name :: _ =>
    match Stype.ofName name with
    | none => n
    | some type => (useSentence n tick type).2

theorem nmeaSentence_st (n : Nmea) (p : Pbuf) (tick : ℕ) :
    (nmeaSentence n p tick).st = sentenceSeen n tick (pieces 0x2C (sentenceText n p)) := by
  obtain ⟨t, h_call, h_piece, -⟩ :=
    strtokS_rest (t := ⟨(p.store [(n.rxCount, 0)]).bytes, none, []⟩) (p := 0) (some 0) 0x2C rfl
  have h_text : cstr (p.store [(n.rxCount, 0)]).bytes 0 = sentenceText n p := rfl
  rw [h_text] at h_piece
  rw [pieces_eq]
  unfold nmeaSentence sentenceSeen
  simp only [h_call, h_piece]
  cases Stype.ofName (cut 0x2C (sentenceText n p)).1 with
  | none => rfl
  | some type =>
    dsimp only
    split <;> next n' h_use => rw [h_use]

/-- It notes the type and the time, and nothing else. -/
theorem sentenceSeen_frame (n : Nmea) (tick : ℕ) (ps : List (List UInt8)) :
    (sentenceSeen n tick ps).rxState = n.rxState ∧ (sentenceSeen n tick ps).rxCount = n.rxCount ∧
      (sentenceSeen n tick ps).rxCksum = n.rxCksum := by
  unfold sentenceSeen
  split
  · exact ⟨rfl, rfl, rfl⟩
  · split
    · exact ⟨rfl, rfl, rfl⟩
    · unfold useSentence
      split <;> exact ⟨rfl, rfl, rfl⟩

/-! ### The characters of a sentence -/

/-- `nmea_feed` for an input. -/
def nmeaByte (n : Nmea) (p : Pbuf) (x : Input) : Out Nmea := nmeaFeed n p x.tick.toNat x.data

/-- The exclusive or of characters. -/
def xorAll (s : List UInt8) : UInt8 := s.foldl (· ^^^ ·) 0

theorem xorAll_append (s : List UInt8) (v : UInt8) : xorAll (s ++ [v]) = xorAll s ^^^ v :=
  List.foldl_append

namespace Nmea

/-- The parser that `n` has become in a sentence, with the characters so far. -/
structure Took (n : Nmea) (got : List UInt8) (c : Nmea × Pbuf) : Prop where
  st : c.1 = ⟨.copying, got.length, xorAll got, n.seenType, n.seenTime⟩
  stored : (List.range got.length).map c.2 = got

variable {n : Nmea} {c : Nmea × Pbuf} {x : Input} {got : List UInt8}

/-- `$`. -/
theorem took_dollar (c : Nmea × Pbuf) (h : x.data = 0x24) :
    (nmeaByte c.1 c.2 x).calls = [] ∧ c.1.Took [] (next nmeaByte c x) := by
  have h_out : nmeaByte c.1 c.2 x =
      { st := ⟨.copying, 0, 0, c.1.seenType, c.1.seenTime⟩, rc := .feedContinue } := by
    simp [nmeaByte, nmeaFeed, h]
  rw [Run.next, h_out]
  exact ⟨rfl, rfl, rfl⟩

/-- A character. -/
theorem Took.char (h : n.Took got c) (h_room : got.length < 127)
    (h_data : x.data ∉ [0x24, 0x2A, 0x0D, 0x0A]) :
    (nmeaByte c.1 c.2 x).calls = [] ∧ n.Took (got ++ [x.data]) (next nmeaByte c x) := by
  simp only [List.mem_cons, List.not_mem_nil, or_false, not_or] at h_data
  obtain ⟨h_dollar, h_star, h_cr, h_lf⟩ := h_data
  have h_byte : (got.length + 1) % 256 = got.length + 1 := by omega
  have h_out : nmeaByte c.1 c.2 x =
      { st := ⟨.copying, got.length + 1, xorAll got ^^^ x.data, n.seenType, n.seenTime⟩
        rc := .feedContinue
        writes := [(got.length, x.data)] } := by
    simp [nmeaByte, nmeaFeed, h.st, h_dollar, h_star, h_cr, h_lf, pbufSize, h_byte,
      Nat.not_le.mpr h_room]
  rw [Run.next, h_out]
  refine ⟨rfl, ?_, Pbuf.store_append h.stored x.data⟩
  rw [List.length_append, xorAll_append, List.length_singleton]

/-- The characters of a text. -/
theorem Took.chars {xs : List Input} (h : n.Took got c) (h_room : got.length + xs.length ≤ 127)
    (h_data : ∀ v ∈ xs.map Input.data, v ∉ [0x24, 0x2A, 0x0D, 0x0A]) :
    (outs nmeaByte c xs).flatMap Out.calls = [] ∧
      n.Took (got ++ xs.map Input.data) (after nmeaByte c xs) := by
  induction xs generalizing c got with
  | nil =>
    rw [List.map_nil, List.append_nil]
    exact ⟨rfl, h⟩
  | cons x xs ih =>
    rw [List.length_cons] at h_room
    rw [List.map_cons] at h_data
    obtain ⟨h_calls, h_took⟩ := h.char (by omega) (h_data _ List.mem_cons_self)
    obtain ⟨h_rest, h_all⟩ := ih h_took (by rw [List.length_append, List.length_singleton]; omega)
      fun v h_v => h_data v (List.mem_cons_of_mem _ h_v)
    rw [List.append_assoc] at h_all
    refine ⟨?_, h_all⟩
    rw [outs_cons, List.flatMap_cons, h_calls, h_rest, List.append_nil]

end Nmea

/-! ### The end of a sentence -/

/-- A byte between sentences. -/
theorem nmeaByte_waiting {n : Nmea} {p : Pbuf} {x : Input} (h_state : n.rxState = .waiting)
    (h_data : x.data ≠ 0x24) : nmeaByte n p x = { st := n, rc := .feedUnknown } := by
  rw [nmeaByte, nmeaFeed, if_neg h_data, h_state]

/-- A character of a sentence. -/
theorem nmeaByte_char {n : Nmea} {p : Pbuf} {x : Input} (h_state : n.rxState = .copying)
    (h_data : x.data ∉ [0x24, 0x2A, 0x0D, 0x0A]) :
    nmeaByte n p x =
      if n.rxCount ≥ 127 then { st := { n with rxState := .waiting }, rc := .feedUnknown }
      else
        { st := { n with rxCount := (n.rxCount + 1) % 256, rxCksum := n.rxCksum ^^^ x.data }
          rc := .feedContinue
          writes := [(n.rxCount, x.data)] } := by
  simp only [List.mem_cons, List.not_mem_nil, or_false, not_or] at h_data
  obtain ⟨h_dollar, h_star, h_cr, h_lf⟩ := h_data
  simp only [nmeaByte, nmeaFeed, h_state, if_neg h_dollar, if_neg h_star, h_cr, h_lf, or_self,
    if_false, pbufSize, Nat.reduceSub]

/-- CR or LF. -/
theorem nmeaByte_eol {n : Nmea} {p : Pbuf} {x : Input} (h_state : n.rxState = .copying)
    (h_data : x.data = 0x0D ∨ x.data = 0x0A) :
    nmeaByte n p x = nmeaSentence n p x.tick.toNat := by
  have h_dollar : x.data ≠ 0x24 := by rcases h_data with h | h <;> rw [h] <;> decide
  have h_star : x.data ≠ 0x2A := by rcases h_data with h | h <;> rw [h] <;> decide
  rw [nmeaByte, nmeaFeed, if_neg h_dollar, h_state]
  dsimp only
  rw [if_neg h_star, if_pos h_data]

/-- `*`. -/
theorem nmeaByte_star {n : Nmea} {p : Pbuf} {x : Input} (h_state : n.rxState = .copying)
    (h_data : x.data = 0x2A) :
    nmeaByte n p x = { st := { n with rxState := .checksum1 }, rc := .feedContinue } := by
  simp [nmeaByte, nmeaFeed, h_state, h_data]

/-- The first digit of the checksum. -/
theorem nmeaByte_checksum1 {n : Nmea} {p : Pbuf} {x : Input} (h_state : n.rxState = .checksum1)
    (h_data : x.data ≠ 0x24) :
    nmeaByte n p x =
      { st := { n with rxCksum := n.rxCksum ^^^ (parseHex x.data <<< 4), rxState := .checksum2 }
        rc := .feedContinue } := by
  simp [nmeaByte, nmeaFeed, h_state, h_data]

/-- The second digit of the checksum. -/
theorem nmeaByte_checksum2 {n : Nmea} {p : Pbuf} {x : Input} (h_state : n.rxState = .checksum2)
    (h_data : x.data ≠ 0x24) :
    nmeaByte n p x =
      if n.rxCksum ^^^ parseHex x.data ≠ 0 then
        { st := { n with rxCksum := n.rxCksum ^^^ parseHex x.data, rxState := .waiting }
          rc := .feedUnknown }
      else nmeaSentence { n with rxCksum := n.rxCksum ^^^ parseHex x.data, rxState := .waiting } p
        x.tick.toNat := by
  rw [nmeaByte, nmeaFeed, if_neg h_data, h_state]

/-- `*` and the first digit. -/
theorem next_star_digit {c : Nmea × Pbuf} {x y : Input} (h_state : c.1.rxState = .copying)
    (h_x : x.data = 0x2A) (h_y : y.data ≠ 0x24) :
    outs nmeaByte c [x, y] =
        [{ st := { c.1 with rxState := .checksum1 }, rc := .feedContinue },
          { st := { c.1 with
              rxCksum := c.1.rxCksum ^^^ (parseHex y.data <<< 4), rxState := .checksum2 }
            rc := .feedContinue }] ∧
      after nmeaByte c [x, y] = ({ c.1 with
        rxCksum := c.1.rxCksum ^^^ (parseHex y.data <<< 4), rxState := .checksum2 }, c.2) := by
  -- the star ends the text, and the first digit goes into the high half of the sum
  have h_star := nmeaByte_star (p := c.2) h_state h_x
  have h_next : next nmeaByte c x = ({ c.1 with rxState := .checksum1 }, c.2) := by
    rw [Run.next, h_star]; rfl
  have h_digit := nmeaByte_checksum1 (n := { c.1 with rxState := .checksum1 }) (p := c.2) rfl h_y
  constructor
  · rw [outs_cons, outs_cons, outs_nil, h_next, h_star, h_digit]
  · rw [after_cons, after_cons, after_nil, h_next, Run.next, h_digit]
    rfl

/-- The text of a sentence is what has been stored. -/
theorem sentenceText_eq {n : Nmea} {p : Pbuf} {got : List UInt8} (h_count : n.rxCount = got.length)
    (h_room : got.length ≤ 127) (h_stored : (List.range got.length).map p = got)
    (h_nul : 0 ∉ got) : sentenceText n p = got := by
  have h_bytes : (p.store [(n.rxCount, 0)]).bytes =
      (got ++ [0]) ++ (List.range (127 - got.length)).map fun i =>
        (p.store [(got.length, 0)]) (got.length + 1 + i) := by
    have h_size : pbufSize = (got ++ [0]).length + (127 - got.length) := by
      rw [List.length_append, List.length_singleton, pbufSize]; omega
    rw [Pbuf.bytes, h_size, List.range_add, List.map_append, h_count,
      Pbuf.store_append h_stored 0, List.map_map, List.length_append, List.length_singleton]
    rfl
  rw [sentenceText, h_bytes, List.append_assoc, List.singleton_append, text_append_nul h_nul]

theorem length_sentenceText_le (n : Nmea) (p : Pbuf) : (sentenceText n p).length ≤ n.rxCount := by
  rw [sentenceText, Pbuf.store_cons, Pbuf.store_nil, Pbuf.bytes_update]
  exact length_text_set _ _

/-- At a second end the text is the name of the type. -/
theorem sentenceText_again (n n' : Nmea) (p : Pbuf) (tick : ℕ) (h_count : n'.rxCount = n.rxCount) :
    sentenceText n' ((p.store (nmeaSentence n p tick).writes).cut (nmeaSentence n p tick).cuts) =
      (cut 0x2C (sentenceText n p)).1 := by
  have h_pbuf := nmeaSentence_pbuf n p tick
  rw [sentenceText, ← h_pbuf, h_count, Pbuf.store_cons, Pbuf.store_nil, Pbuf.bytes_update]
  refine text_set ?_
  rw [h_pbuf]
  exact (length_cut_le 0x2C _).trans (length_sentenceText_le n p)

end Gps
end Laureline
