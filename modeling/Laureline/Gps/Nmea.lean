import Laureline.Gps.Tsip
import Laureline.Util.Parse

/-!
# The NMEA parser

`nmea_feed`. A sentence runs from `$` to CR or LF, or to `*` and two hexadecimal
digits of checksum; its characters go to the buffer, with a NUL after them. A
complete sentence is taken apart with `strtok_s` on the buffer itself.

Three sentence types carry a time of day. Each is a `Reader`: what it gives is
decided by the pieces of the text between the commas (`nmeaSentence_calls`).
-/

namespace Laureline
namespace Gps

/-- `rx_state`. -/
inductive RxState
  | waiting
  | copying
  | checksum1
  | checksum2
deriving DecidableEq, Repr

/-- `stype_t`, in order of least to most preferred. -/
inductive Stype
  | none
  | gprmc
  | pgrmf
  | gpzda
deriving DecidableEq, Repr

/-- The value of the enumeration constant. -/
def Stype.rank : Stype → ℕ
  | none => 0
  | gprmc => 1
  | pgrmf => 2
  | gpzda => 3

/-- The name of a sentence type. -/
def Stype.name : Stype → List UInt8
  | .none => []
  | .gprmc => [0x47, 0x50, 0x52, 0x4D, 0x43]
  | .pgrmf => [0x50, 0x47, 0x52, 0x4D, 0x46]
  | .gpzda => [0x47, 0x50, 0x5A, 0x44, 0x41]

/-- The static variables of `nmea.c`. -/
structure Nmea where
  rxState : RxState
  rxCount : ℕ
  rxCksum : UInt8
  seenType : Stype
  seenTime : ℕ
deriving DecidableEq, Repr

/-- After a reset. -/
def Nmea.powerUp : Nmea := ⟨.waiting, 0, 0, .none, 0⟩

/-- `use_sentence`; ticks are 32 bits wide here. -/
def useSentence (n : Nmea) (tick : ℕ) (type : Stype) : Bool × Nmea :=
  if type.rank < n.seenType.rank ∧ (tick + 2 ^ 32 - n.seenTime % 2 ^ 32) % 2 ^ 32 < parserTimeout
  then (false, n)
  else (true, { n with seenType := type, seenTime := tick })

/-- Whether a sentence type is in use depends on the preference alone. -/
theorem useSentence_congr {n n' : Nmea} (h_type : n'.seenType = n.seenType)
    (h_time : n'.seenTime = n.seenTime) (tick : ℕ) (type : Stype) :
    (useSentence n' tick type).1 = (useSentence n tick type).1 := by
  unfold useSentence
  rw [h_type, h_time]
  split <;> rfl

/-! ### Sentences -/

/-- A field of at least six characters, or the end of the parse. -/
def sixChars {α : Type} (ptr : List UInt8) (k : Reader α) : Reader α :=
  if ptr.length < 6 then .fail else k

/-- Two-digit years, good until 2113. -/
def fullYear (year : ℕ) : ℕ := if year ≥ 13 then year + 2000 else year + 2100

/-- The fields of `GPZDA` after the type. -/
def gpzda : Reader Call :=
  .next fun time => sixChars time <|
  .next fun day => .next fun month => .next fun year =>
  .ret (.setUtc (atoiDecimal year % 65536) (atoiDecimal month % 256) (atoiDecimal day % 256)
    (atoi2dig time) (atoi2dig (time.drop 2)) (atoi2dig (time.drop 4)))

/-- The fields of `GPRMC` after the type. -/
def gprmc : Reader Call :=
  .next fun time => sixChars time <|
  -- skip some stuff
  .next fun _ => .next fun _ => .next fun _ => .next fun _ =>
  .next fun _ => .next fun _ => .next fun _ =>
  .next fun date => sixChars date <|
  .ret (.setUtc (fullYear (atoi2dig (date.drop 4))) (atoi2dig (date.drop 2)) (atoi2dig date)
    (atoi2dig time) (atoi2dig (time.drop 2)) (atoi2dig (time.drop 4)))

/-- The fields of `PGRMF` after the type. -/
def pgrmf : Reader Call :=
  -- skip some stuff
  .next fun _ => .next fun _ =>
  .next fun date => sixChars date <|
  .next fun time => sixChars time <|
  .ret (.setUtc (fullYear (atoi2dig (date.drop 4))) (atoi2dig (date.drop 2)) (atoi2dig date)
    (atoi2dig time) (atoi2dig (time.drop 2)) (atoi2dig (time.drop 4)))

/-- The sentence types by name. -/
def Stype.ofName (name : List UInt8) : Option Stype :=
  if name = [0x47, 0x50, 0x5A, 0x44, 0x41] then some .gpzda
  else if name = [0x47, 0x50, 0x52, 0x4D, 0x43] then some .gprmc
  else if name = [0x50, 0x47, 0x52, 0x4D, 0x46] then some .pgrmf
  else Option.none

/-- The branch of `nmea_feed` for a sentence type. -/
def Stype.reader : Stype → Reader Call
  | none => .fail
  | gprmc => Gps.gprmc
  | pgrmf => Gps.pgrmf
  | gpzda => Gps.gpzda

/-- The memory that `strtok_s` runs on. -/
def Pbuf.bytes (p : Pbuf) : List UInt8 := (List.range pbufSize).map p

/-- The second half of `nmea_feed`: the finished sentence is parsed. -/
def nmeaSentence (n : Nmea) (pbuf : Pbuf) (tick : ℕ) : Out Nmea :=
  let p := pbuf.store [(n.rxCount, 0)]
  let finish (n : Nmea) (t : Strtok) (call : Option Call) : Out Nmea :=
    { st := n
      rc := .feedComplete
      writes := [(n.rxCount, 0)]
      cuts := t.zeroed.reverse
      calls := call.toList
      filled := n.rxCount }
  match strtokS ⟨p.bytes, Option.none, []⟩ (some 0) 0x2C with
  | (Option.none, t) => finish n t Option.none
  | (some ptr, t) =>
    match Stype.ofName (cstr t.mem ptr) with
    | Option.none => finish n t Option.none
    | some type =>
      -- the preference is noted before the fields are looked at
      match useSentence n tick type with
      | (false, n) => finish n t Option.none
      | (true, n) =>
        let (call, t) := type.reader.run 0x2C t
        finish n t call

/-- `nmea_feed` at the given tick. -/
def nmeaFeed (n : Nmea) (pbuf : Pbuf) (tick : ℕ) (val : UInt8) : Out Nmea :=
  if val = 0x24 then
    -- a sentence starts in any state
    { st := { n with rxState := .copying, rxCount := 0, rxCksum := 0 }, rc := .feedContinue }
  else
    match n.rxState with
    | .waiting => { st := n, rc := .feedUnknown }
    | .copying =>
      if val = 0x2A then { st := { n with rxState := .checksum1 }, rc := .feedContinue }
      else if val = 0x0D ∨ val = 0x0A then
        -- sentence complete, no checksum; the state stays `copying`
        nmeaSentence n pbuf tick
      else if n.rxCount ≥ pbufSize - 1 then
        { st := { n with rxState := .waiting }, rc := .feedUnknown }
      else
        { st := { n with rxCount := (n.rxCount + 1) % 256, rxCksum := n.rxCksum ^^^ val }
          rc := .feedContinue
          writes := [(n.rxCount, val)] }
    | .checksum1 =>
      { st := { n with rxCksum := n.rxCksum ^^^ (parseHex val <<< 4), rxState := .checksum2 }
        rc := .feedContinue }
    | .checksum2 =>
      let n := { n with rxCksum := n.rxCksum ^^^ parseHex val, rxState := .waiting }
      if n.rxCksum ≠ 0 then { st := n, rc := .feedUnknown }
      else
        -- sentence complete, checksum valid
        nmeaSentence n pbuf tick

/-! ### What a sentence says -/

theorem sixChars_runPieces {α : Type} {ptr : List UInt8} {k : Reader α} {fs : List (List UInt8)}
    {a : α} :
    (sixChars ptr k).runPieces fs = some a ↔ 6 ≤ ptr.length ∧ k.runPieces fs = some a := by
  unfold sixChars
  split
  · next h => simp [Reader.runPieces, h]
  · next h => simp [not_lt.mp h]

/-- The text of a sentence: the characters in the buffer up to the first NUL. -/
def sentenceText (n : Nmea) (pbuf : Pbuf) : List UInt8 :=
  text (pbuf.store [(n.rxCount, 0)]).bytes

/-- What a type of sentence and the pieces after it give. -/
def sentenceCall (n : Nmea) (tick : ℕ) : List (List UInt8) → Option Call
  | [] => none
  | name :: fields =>
    match Stype.ofName name with
    | none => none
    | some type => if (useSentence n tick type).1 then type.reader.runPieces fields else none

/-- **The call.** It is decided by the pieces of the text between the commas. -/
theorem nmeaSentence_calls (n : Nmea) (pbuf : Pbuf) (tick : ℕ) :
    (nmeaSentence n pbuf tick).calls =
      (sentenceCall n tick (pieces 0x2C (sentenceText n pbuf))).toList := by
  -- the first piece is the name, the calls of the reader give the others
  obtain ⟨t, h_call, h_piece, h_rest⟩ :=
    strtokS_rest (t := ⟨(pbuf.store [(n.rxCount, 0)]).bytes, none, []⟩) (p := 0) (some 0) 0x2C
      rfl
  have h_text : cstr (pbuf.store [(n.rxCount, 0)]).bytes 0 = sentenceText n pbuf := rfl
  rw [h_text] at h_piece h_rest
  rw [pieces_eq]
  unfold nmeaSentence sentenceCall
  simp only [h_call, h_piece]
  split
  · rfl
  · next type h_type =>
    split
    · next n' h_use => rw [h_use]; rfl
    · next n' h_use =>
      rw [h_use]
      simp only [if_true]
      rw [← h_rest, ← Reader.run_eq]

/-- What a finished sentence does besides the call. -/
theorem nmeaSentence_frame (n : Nmea) (pbuf : Pbuf) (tick : ℕ) :
    (nmeaSentence n pbuf tick).rc = .feedComplete ∧
    (nmeaSentence n pbuf tick).writes = [(n.rxCount, 0)] ∧
    (nmeaSentence n pbuf tick).filled = n.rxCount ∧
    (nmeaSentence n pbuf tick).st.rxState = n.rxState ∧
    (nmeaSentence n pbuf tick).st.rxCount = n.rxCount := by
  -- `use_sentence` notes the type and the time, and nothing else
  have h_use : ∀ type, (useSentence n tick type).2.rxState = n.rxState ∧
      (useSentence n tick type).2.rxCount = n.rxCount := by
    intro type
    unfold useSentence
    split <;> exact ⟨rfl, rfl⟩
  unfold nmeaSentence
  dsimp only
  split
  · exact ⟨rfl, rfl, rfl, rfl, rfl⟩
  · split
    · exact ⟨rfl, rfl, rfl, rfl, rfl⟩
    · next type _ =>
      obtain ⟨h_state, h_count⟩ := h_use type
      split <;> next h =>
        rw [h] at h_state h_count
        exact ⟨rfl, by rw [h_count], h_count, h_state, h_count⟩

end Gps
end Laureline
