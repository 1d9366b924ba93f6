import Laureline.Gps.NmeaText
import Laureline.Util.Numerals

/-!
# The time in an NMEA sentence

Three types of sentences carry a date and a time, in different orders: `Carries`. The two-digit
years mean 2013 to 2112. A sentence may end with its checksum, or with CR LF; then the LF ends a
sentence again, which has no fields left.

* `Carries.reader` — the fields are read in their order;
* `nmea_sentence_setUtc` — a sentence sets the time once, as it says.
-/

namespace Laureline
namespace Gps

open Run

/-! ### Sentences -/

/-- A date and a time of day as a sentence gives them. -/
structure DateTime where
  year : ℕ
  month : ℕ
  day : ℕ
  hour : ℕ
  minute : ℕ
  second : ℕ
  year_ge : 2013 ≤ year
  year_le : year ≤ 2112
  month_le : month ≤ 12
  day_le : day ≤ 31

/-- The call for it. -/
def DateTime.call (dt : DateTime) : Call :=
  .setUtc dt.year dt.month dt.day dt.hour dt.minute dt.second

/-- `hhmmss`, and perhaps a fraction. -/
def IsTime (dt : DateTime) (field : List UInt8) : Prop :=
  ∃ hh mm ss fraction, field = hh ++ (mm ++ (ss ++ fraction)) ∧
    IsTwoDigits hh dt.hour ∧ IsTwoDigits mm dt.minute ∧ IsTwoDigits ss dt.second

/-- `ddmmyy`. -/
def IsDate (dt : DateTime) (field : List UInt8) : Prop :=
  ∃ dd mm yy, field = dd ++ (mm ++ yy) ∧
    IsTwoDigits dd dt.day ∧ IsTwoDigits mm dt.month ∧ IsTwoDigits yy (dt.year % 100)

/-- The fields behind the type of a sentence that says the time. -/
inductive Carries (dt : DateTime) : Stype → List (List UInt8) → Prop
  | gpzda {time day month year : List UInt8} {rest : List (List UInt8)} (h_time : IsTime dt time)
      (h_day : IsDecimal day dt.day) (h_month : IsDecimal month dt.month)
      (h_year : IsDecimal year dt.year) : Carries dt .gpzda (time :: day :: month :: year :: rest)
  | gprmc {time date : List UInt8} {skipped rest : List (List UInt8)} (h_time : IsTime dt time)
      (h_skipped : skipped.length = 7) (h_date : IsDate dt date) :
      Carries dt .gprmc (time :: (skipped ++ date :: rest))
  | pgrmf {time date : List UInt8} {skipped rest : List (List UInt8)}
      (h_skipped : skipped.length = 2) (h_date : IsDate dt date) (h_time : IsTime dt time) :
      Carries dt .pgrmf (skipped ++ date :: time :: rest)

/-- A field has none of the characters that NMEA uses otherwise. -/
def IsField (field : List UInt8) : Prop := ∀ c ∈ field, c ∉ [0x2C, 0x24, 0x2A, 0x0D, 0x0A, 0x00]

instance (field : List UInt8) : Decidable (IsField field) := List.decidableBAll _ field

/-- The characters between `$` and the end. -/
def sentence (type : Stype) (fields : List (List UInt8)) : List UInt8 :=
  [0x2C].intercalate (type.name :: fields)

/-- The end of a sentence: what comes before the byte that completes it, this byte, and what comes
after it. -/
inductive Ending (s : List UInt8) : List UInt8 → UInt8 → List UInt8 → Prop
  | checksum {c d : UInt8} {hi lo : ℕ} (h_c : IsHexDigit c hi) (h_d : IsHexDigit d lo)
      (h_value : (xorAll s).toNat = 16 * hi + lo) : Ending s [0x2A, c] d []
  | crlf : Ending s [] 0x0D [0x0A]

/-! ### The fields -/

variable {dt : DateTime}

theorem IsTime.read {field : List UInt8} (h : IsTime dt field) :
    6 ≤ field.length ∧ atoi2dig field = dt.hour ∧ atoi2dig (field.drop 2) = dt.minute ∧
      atoi2dig (field.drop 4) = dt.second := by
  obtain ⟨hh, mm, ss, fraction, rfl, h_hour, h_minute, h_second⟩ := h
  have h_drop : ((hh ++ (mm ++ (ss ++ fraction))).drop 2).drop 2 = ss ++ fraction := by
    rw [h_hour.drop_append, h_minute.drop_append]
  rw [List.drop_drop] at h_drop
  refine ⟨?_, h_hour.atoi _, ?_, ?_⟩
  · rw [h_hour.length_append, h_minute.length_append, h_second.length_append]; omega
  · rw [h_hour.drop_append, h_minute.atoi]
  · rw [h_drop, h_second.atoi]

theorem IsDate.read {field : List UInt8} (h : IsDate dt field) :
    6 ≤ field.length ∧ atoi2dig field = dt.day ∧ atoi2dig (field.drop 2) = dt.month ∧
      fullYear (atoi2dig (field.drop 4)) = dt.year := by
  obtain ⟨dd, mm, yy, rfl, h_day, h_month, h_year⟩ := h
  have h_drop : ((dd ++ (mm ++ yy)).drop 2).drop 2 = yy := by
    rw [h_day.drop_append, h_month.drop_append]
  rw [List.drop_drop] at h_drop
  have h_yy := h_year.atoi []
  rw [List.append_nil] at h_yy
  refine ⟨?_, h_day.atoi _, ?_, ?_⟩
  · rw [h_day.length_append, h_month.length_append, h_year.1]
  · rw [h_day.drop_append, h_month.atoi]
  · -- the century with 2013
    rw [h_drop, h_yy, fullYear]
    have h_ge := dt.year_ge
    have h_le := dt.year_le
    split <;> omega

theorem exists_of_length_seven {skipped : List (List UInt8)} (h : skipped.length = 7) :
    ∃ a b c d e f g, skipped = [a, b, c, d, e, f, g] :=
  match skipped, h with
  | [a, b, c, d, e, f, g], _ => ⟨a, b, c, d, e, f, g, rfl⟩

/-- **The fields are read in their order.** -/
theorem Carries.reader {type : Stype} {fields : List (List UInt8)} (h : Carries dt type fields) :
    type.reader.runPieces fields = some dt.call := by
  have h_day := dt.day_le
  have h_month := dt.month_le
  have h_year := dt.year_le
  cases h with
  | gpzda h_time h_d h_m h_y =>
    obtain ⟨h_long, h_hour, h_minute, h_second⟩ := h_time.read
    simp only [Stype.reader, Gps.gpzda, Reader.runPieces, sixChars, if_neg (Nat.not_lt.mpr h_long),
      h_hour, h_minute, h_second, h_d.atoi (by omega), h_m.atoi (by omega), h_y.atoi (by omega),
      DateTime.call]
    -- the members of the date-time have eight and sixteen bits, and it fits
    rw [Nat.mod_eq_of_lt (by omega), Nat.mod_eq_of_lt (by omega), Nat.mod_eq_of_lt (by omega)]
  | @gprmc time date skipped rest h_time h_skipped h_date =>
    obtain ⟨h_long, h_hour, h_minute, h_second⟩ := h_time.read
    obtain ⟨h_long', h_d, h_m, h_y⟩ := h_date.read
    obtain ⟨_, _, _, _, _, _, _, rfl⟩ := exists_of_length_seven h_skipped
    simp only [List.cons_append, List.nil_append, Stype.reader, Gps.gprmc, Reader.runPieces,
      sixChars, if_neg (Nat.not_lt.mpr h_long), if_neg (Nat.not_lt.mpr h_long'), h_hour, h_minute,
      h_second, h_d, h_m, h_y, DateTime.call]
  | @pgrmf time date skipped rest h_skipped h_date h_time =>
    obtain ⟨h_long, h_hour, h_minute, h_second⟩ := h_time.read
    obtain ⟨h_long', h_d, h_m, h_y⟩ := h_date.read
    obtain ⟨_, _, rfl⟩ := List.length_eq_two.mp h_skipped
    simp only [List.cons_append, List.nil_append, Stype.reader, Gps.pgrmf, Reader.runPieces,
      sixChars, if_neg (Nat.not_lt.mpr h_long), if_neg (Nat.not_lt.mpr h_long'), h_hour, h_minute,
      h_second, h_d, h_m, h_y, DateTime.call]

/-! ### The sentence -/

variable {type : Stype} {fields : List (List UInt8)}

theorem Stype.ofName_name (h : type ≠ .none) : Stype.ofName type.name = some type := by
  cases type <;> first | exact absurd rfl h | rfl

theorem Carries.ne_none (h : Carries dt type fields) : type ≠ .none := by
  cases h <;> exact Stype.noConfusion

theorem isField_name (type : Stype) : IsField type.name := by
  cases type <;> decide

/-- A character of a sentence is a comma, or of a field. -/
theorem mem_intercalate {sep c : UInt8} {fs : List (List UInt8)}
    (h : c ∈ [sep].intercalate fs) : c = sep ∨ ∃ f ∈ fs, c ∈ f := by
  induction fs with
  | nil => simp at h
  | cons f fs ih =>
    cases fs with
    | nil =>
      rw [List.intercalate_singleton] at h
      exact Or.inr ⟨f, List.mem_cons_self, h⟩
    | cons f' fs =>
      rw [List.intercalate_cons_cons, List.mem_append, List.mem_append, List.mem_singleton] at h
      rcases h with (h | h) | h
      · exact Or.inr ⟨f, List.mem_cons_self, h⟩
      · exact Or.inl h
      · exact (ih h).imp_right fun ⟨g, h_g, h_c⟩ => ⟨g, List.mem_cons_of_mem _ h_g, h_c⟩

theorem isField_of_mem (h : ∀ f ∈ fields, IsField f) :
    ∀ f ∈ type.name :: fields, IsField f :=
  List.forall_mem_cons.mpr ⟨isField_name type, h⟩

/-- Nothing in a sentence ends it. -/
theorem sentence_chars (h : ∀ f ∈ fields, IsField f) {c : UInt8} (h_c : c ∈ sentence type fields) :
    c ∉ [0x24, 0x2A, 0x0D, 0x0A, 0x00] := by
  rcases mem_intercalate h_c with rfl | ⟨f, h_f, h_c⟩
  · decide
  · exact fun h_mem => isField_of_mem h f h_f c h_c (List.mem_cons_of_mem _ h_mem)

theorem pieces_sentence (h : ∀ f ∈ fields, IsField f) :
    pieces 0x2C (sentence type fields) = type.name :: fields :=
  pieces_intercalate (List.cons_ne_nil _ _)
    fun f h_f h_c => isField_of_mem h f h_f 0x2C h_c (by decide)

section Complete

variable (h_carries : Carries dt type fields) (h_fields : ∀ f ∈ fields, IsField f)
  (h_short : (sentence type fields).length < 128)

include h_carries h_fields h_short

/-- The completed sentence makes the call. -/
theorem sentence_calls {n : Nmea} {p : Pbuf} {tick : ℕ}
    (h_count : n.rxCount = (sentence type fields).length)
    (h_stored : (List.range (sentence type fields).length).map p = sentence type fields)
    (h_use : (useSentence n tick type).1 = true) : (nmeaSentence n p tick).calls = [dt.call] := by
  have h_nul : 0 ∉ sentence type fields := fun h => sentence_chars h_fields h (by decide)
  rw [nmeaSentence_calls, sentenceText_eq h_count (by omega) h_stored h_nul,
    pieces_sentence h_fields, sentenceCall, Stype.ofName_name h_carries.ne_none]
  dsimp only
  rw [if_pos h_use, h_carries.reader, Option.toList_some]

/-- A second end makes none. -/
theorem sentence_again_calls {n n' : Nmea} {p : Pbuf} {tick tick' : ℕ}
    (h_count : n.rxCount = (sentence type fields).length)
    (h_stored : (List.range (sentence type fields).length).map p = sentence type fields)
    (h_count' : n'.rxCount = n.rxCount) :
    (nmeaSentence n' ((p.store (nmeaSentence n p tick).writes).cut (nmeaSentence n p tick).cuts)
      tick').calls = [] := by
  have h_nul : 0 ∉ sentence type fields := fun h => sentence_chars h_fields h (by decide)
  -- the first call has cut the text behind the name
  have h_first : (cut 0x2C (sentence type fields)).1 = type.name := by
    have h_pieces := @pieces_sentence type fields h_fields
    rw [pieces_eq] at h_pieces
    exact (List.cons_eq_cons.mp h_pieces).1
  -- so the second one finds no field
  have h_alone : pieces 0x2C type.name = [type.name] := by
    rw [pieces_eq_splitOn]
    exact List.splitOn_eq_singleton fun h => isField_name type _ h (by decide)
  rw [nmeaSentence_calls, sentenceText_again n n' p tick h_count',
    sentenceText_eq h_count (by omega) h_stored h_nul, h_first, h_alone, sentenceCall,
    Stype.ofName_name h_carries.ne_none]
  dsimp only
  split
  · cases type <;> rfl
  · rfl

end Complete

/-- **A sentence sets the time once, as it says.** -/
theorem nmea_sentence_setUtc (n : Nmea) (p : Pbuf) (h_carries : Carries dt type fields)
    (h_fields : ∀ f ∈ fields, IsField f) (h_short : (sentence type fields).length < 128)
    {lead trail : List UInt8} {last : UInt8} (h_end : Ending (sentence type fields) lead last trail)
    {xs ys : List Input} {x : Input}
    (h_xs : xs.map Input.data = 0x24 :: (sentence type fields ++ lead)) (h_x : x.data = last)
    (h_ys : ys.map Input.data = trail) (h_use : (useSentence n x.tick.toNat type).1 = true) :
    (outs nmeaByte (n, p) (xs ++ x :: ys)).flatMap Out.calls = [dt.call] := by
  obtain ⟨d, xs, rfl, h_d, h_xs⟩ := List.map_eq_cons_iff.mp h_xs
  obtain ⟨ss, ls, rfl, h_ss, h_ls⟩ := List.map_eq_append_iff.mp h_xs
  obtain ⟨h_calls, h_took⟩ := Nmea.took_dollar (n, p) h_d
  obtain ⟨h_calls_ss, h_took⟩ := @h_took.chars _ _ _ ss
    (by rw [← List.length_map (f := Input.data), h_ss]; simp; omega) fun v h_v h_mem => by
      rw [h_ss] at h_v
      exact sentence_chars h_fields h_v (by simp at h_mem ⊢; tauto)
  rw [List.nil_append, h_ss] at h_took
  rw [List.cons_append, outs_cons, List.flatMap_cons, h_calls, List.append_assoc, outs_append,
    List.flatMap_append, h_calls_ss, List.nil_append, List.nil_append]
  generalize after nmeaByte (next nmeaByte (n, p) d) ss = c at h_took
  have h_state : c.1.rxState = .copying := by rw [h_took.st]
  have h_count : c.1.rxCount = (sentence type fields).length := by rw [h_took.st]
  have h_cksum : c.1.rxCksum = xorAll (sentence type fields) := by rw [h_took.st]
  have h_type : c.1.seenType = n.seenType := by rw [h_took.st]
  have h_time : c.1.seenTime = n.seenTime := by rw [h_took.st]
  cases h_end with
  | crlf =>
    obtain rfl := List.map_eq_nil_iff.mp h_ls
    obtain ⟨y, ys, rfl, h_y, h_ys⟩ := List.map_eq_cons_iff.mp h_ys
    obtain rfl := List.map_eq_nil_iff.mp h_ys
    have h_cr := nmeaByte_eol (p := c.2) h_state (Or.inl h_x)
    have h_next : next nmeaByte c x = ((nmeaSentence c.1 c.2 x.tick.toNat).st,
        (c.2.store (nmeaSentence c.1 c.2 x.tick.toNat).writes).cut
          (nmeaSentence c.1 c.2 x.tick.toNat).cuts) := by rw [Run.next, h_cr]
    -- the LF finds the parser in its state
    obtain ⟨-, -, -, h_state', h_count'⟩ := nmeaSentence_frame c.1 c.2 x.tick.toNat
    have h_lf := nmeaByte_eol (p := (next nmeaByte c x).2) (x := y)
      (n := (nmeaSentence c.1 c.2 x.tick.toNat).st) (by rw [h_state', h_state]) (Or.inr h_y)
    rw [List.nil_append, outs_cons, outs_cons, outs_nil, h_cr]
    simp only [List.flatMap_cons, List.flatMap_nil, List.append_nil]
    rw [sentence_calls h_carries h_fields h_short h_count h_took.stored
      ((useSentence_congr h_type h_time _ _).trans h_use)]
    rw [h_next] at h_lf ⊢
    rw [h_lf, sentence_again_calls h_carries h_fields h_short h_count h_took.stored h_count',
      List.append_nil]
  | @checksum c' d' hi lo h_c h_d h_value =>
    obtain rfl := List.map_eq_nil_iff.mp h_ys
    obtain ⟨s, ls, rfl, h_s, h_ls⟩ := List.map_eq_cons_iff.mp h_ls
    obtain ⟨y, ls, rfl, h_y, h_ls⟩ := List.map_eq_cons_iff.mp h_ls
    obtain rfl := List.map_eq_nil_iff.mp h_ls
    have h_zero :
        xorAll (sentence type fields) ^^^ (parseHex y.data <<< 4) ^^^ parseHex x.data = 0 :=
      (h_y ▸ h_x ▸ h_c.fold h_d).mpr h_value
    obtain ⟨h_outs, h_after⟩ := next_star_digit (c := c) h_state h_s (h_y ▸ h_c.ne_dollar)
    have h_last := nmeaByte_checksum2 (p := c.2) (x := x)
      (n := { c.1 with
        rxCksum := c.1.rxCksum ^^^ (parseHex y.data <<< 4), rxState := .checksum2 }) rfl
      (h_x ▸ h_d.ne_dollar)
    rw [h_cksum, if_neg (not_not.mpr h_zero)] at h_last
    rw [outs_append, h_outs, h_after, outs_cons, outs_nil, h_cksum, h_last]
    simp only [List.flatMap_append, List.flatMap_cons, List.flatMap_nil, List.nil_append,
      List.append_nil]
    refine sentence_calls h_carries h_fields h_short h_count h_took.stored ?_
    rwa [useSentence_congr (n := n)] <;> assumption

/-- A `GPZDA` sentence without checksum. -/
def zda : List (List UInt8) :=
  [[0x31, 0x32, 0x33, 0x34, 0x35, 0x36, 0x2E, 0x30], [0x37], [0x30, 0x36],
    [0x32, 0x30, 0x31, 0x34], [], []]

/-- Its date and time. -/
def zdaTime : DateTime where
  year := 2014
  month := 6
  day := 7
  hour := 12
  minute := 34
  second := 56
  year_ge := by decide
  year_le := by decide
  month_le := by decide
  day_le := by decide

theorem zda_carries : Carries zdaTime .gpzda zda :=
  .gpzda ⟨[0x31, 0x32], [0x33, 0x34], [0x35, 0x36], [0x2E, 0x30], rfl, by decide, by decide,
      by decide⟩
    (by decide) (by decide) (by decide)

theorem nmea_sentence_setUtc_zda :
    (outs nmeaByte (.powerUp, fun _ => 0)
      ((0x24 :: (sentence .gpzda zda)).map (Input.mk 1) ++ ⟨1, 0x0D⟩ :: [⟨1, 0x0A⟩])).flatMap
        Out.calls = [.setUtc 2014 6 7 12 34 56] :=
  nmea_sentence_setUtc .powerUp (fun _ => 0) zda_carries (by simp [zda, IsField]) (by decide)
    .crlf (by decide) rfl rfl rfl

end Gps
end Laureline
