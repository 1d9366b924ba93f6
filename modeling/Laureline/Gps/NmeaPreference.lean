import Laureline.Gps.ReceivedDate
import Laureline.Gps.NmeaText

/-!
# Which NMEA sentences set the time

A sentence is used unless one of a more preferred type was seen within `PARSER_TIMEOUT`. What has
been seen is noted before the fields are looked at, so that a sentence without a time keeps others
from being used; the LF behind a sentence that ended with CR notes it again; and the tick count of
32 bits comes round.

* `Watch` is the parser with the time that has passed and the sentences that have set it;
* `Sound` — a byte does none of this; `Fair` — a sentence is used as the sentences before it say;
* `Noted` is the invariant: what is noted is the last sentence that has set the time, but for GPRMC;
* `nmea_preference_fair` — every run.
-/

namespace Laureline
namespace Gps

open Run

/-! ### The parser and the sentences -/

/-- The sentence that a byte ends, if it is of a known type: the type and the fields. -/
def Nmea.sentence (n : Nmea) (p : Pbuf) (val : UInt8) : Option (Stype × List (List UInt8)) :=
  if n.ends val then
    match pieces 0x2C (sentenceText n p) with
    | [] => none
    | name :: fields => (Stype.ofName name).map fun type => (type, fields)
  else none

/-- A byte, and the ticks since the byte before it. -/
structure Arrival where
  wait : ℕ
  data : UInt8

/-- The parser, and what its sentences have done. -/
structure Watch where
  conf : Nmea × Pbuf
  /-- The ticks since power-up. -/
  now : ℕ
  /-- The time at which `seen_time` was noted. -/
  noted : ℕ
  /-- The sentences that have set the time. -/
  sets : List (Stype × ℕ)

namespace Watch

/-- After a reset. -/
def powerUp (p : Pbuf) : Watch := ⟨(.powerUp, p), 0, 0, []⟩

variable (s : Watch) (a : Arrival)

/-- The ticks since power-up when the byte comes. -/
def time : ℕ := s.now + a.wait

/-- The tick count has 32 bits. -/
def input : Input := ⟨UInt32.ofNat (s.time a), a.data⟩

/-- What `nmea_feed` does with the byte. -/
def out : Out Nmea := nmeaByte s.conf.1 s.conf.2 (s.input a)

/-- The sentence that the byte ends. -/
def sentence : Option (Stype × List (List UInt8)) := s.conf.1.sentence s.conf.2 a.data

/-- `use_sentence` for the type. -/
def uses (type : Stype) : Bool := (useSentence s.conf.1 (s.input a).tick.toNat type).1

/-- After the byte. -/
def next : Watch where
  conf := Run.next nmeaByte s.conf (s.input a)
  now := s.time a
  noted :=
    match s.sentence a with
    | none => s.noted
    | some (type, _) => if s.uses a type then s.time a else s.noted
  sets :=
    match s.sentence a with
    | none => s.sets
    | some (type, _) => if setsUtc (s.out a).calls then (type, s.time a) :: s.sets else s.sets

/-- Every byte of a run, with the state before it. -/
def Throughout (P : Watch → Arrival → Prop) : Watch → List Arrival → Prop
  | _, [] => True
  | s, a :: as => P s a ∧ Throughout P (s.next a) as

/-- After a sequence of bytes. -/
def after (as : List Arrival) : Watch := as.foldl next s

theorem throughout_append {P : Watch → Arrival → Prop} {s : Watch} {as bs : List Arrival} :
    Throughout P s (as ++ bs) ↔ Throughout P s as ∧ Throughout P (s.after as) bs := by
  induction as generalizing s with
  | nil => exact iff_of_eq (true_and _).symm
  | cons a as ih => exact (and_congr_right fun _ => ih).trans and_assoc.symm

end Watch

/-! ### What is claimed, and when it holds -/

/-- No sentence of a more preferred type has set the time within `PARSER_TIMEOUT`. -/
def Preferred (sets : List (Stype × ℕ)) (type : Stype) (t : ℕ) : Prop :=
  ∀ set ∈ sets, type.rank < set.1.rank → parserTimeout ≤ t - set.2

/-- The tick count has come round, so that a type noted long ago seems to be noted just now. -/
def Aliased (noted t : ℕ) : Prop :=
  parserTimeout ≤ t - noted ∧ (t - noted) % 2 ^ 32 < parserTimeout

/-- A complete sentence sets the time if and only if none is preferred. One that is not complete
does not set it, and changes nothing about which later sentences are used. -/
def Fair (s : Watch) (a : Arrival) : Prop :=
  ∀ type fields, s.sentence a = some (type, fields) →
    if type.complete fields then
      (setsUtc (s.out a).calls = true ↔ Preferred s.sets type (s.time a))
    else
      setsUtc (s.out a).calls = false ∧
        ∀ later ≥ s.time a, ¬ Aliased s.noted later → ∀ type' ≠ .none,
          (useSentence (s.next a).conf.1 (later % 2 ^ 32) type').1 =
            (useSentence s.conf.1 (later % 2 ^ 32) type').1

/-- A sentence that is not complete is refused, or is of the type that nothing is less preferred
than, or is noted already. A complete one does not find the tick count come round. -/
def SoundFor (s : Watch) (a : Arrival) (type : Stype) (fields : List (List UInt8)) : Prop :=
  if type.complete fields then
    type.rank < s.conf.1.seenType.rank → ¬ Aliased s.noted (s.time a)
  else
    s.uses a type = true → type = .gprmc ∨ type = s.conf.1.seenType ∧ s.time a = s.noted

/-- The byte ends no sentence of a known type, or one for which this is so. -/
def Sound (s : Watch) (a : Arrival) : Prop :=
  ∀ type fields, s.sentence a = some (type, fields) → SoundFor s a type fields

instance (noted t : ℕ) : Decidable (Aliased noted t) := inferInstanceAs (Decidable (_ ∧ _))

instance (s : Watch) (a : Arrival) (type : Stype) (fields : List (List UInt8)) :
    Decidable (SoundFor s a type fields) :=
  inferInstanceAs <| Decidable <|
    if type.complete fields then
      type.rank < s.conf.1.seenType.rank → ¬ Aliased s.noted (s.time a)
    else
      s.uses a type = true → type = .gprmc ∨ type = s.conf.1.seenType ∧ s.time a = s.noted

instance (s : Watch) (a : Arrival) : Decidable (Sound s a) :=
  decidable_of_iff (∀ e ∈ s.sentence a, SoundFor s a e.1 e.2)
    ⟨fun h type fields h_eq => h (type, fields) h_eq, fun h e h_e => h e.1 e.2 h_e⟩

instance Watch.decidableThroughout {P : Watch → Arrival → Prop} [∀ s a, Decidable (P s a)] :
    ∀ (s : Watch) (as : List Arrival), Decidable (Watch.Throughout P s as)
  | _, [] => isTrue trivial
  | s, a :: as =>
    have := Watch.decidableThroughout (P := P) (s.next a) as
    inferInstanceAs (Decidable (P s a ∧ Watch.Throughout P (s.next a) as))

/-! ### One byte -/

/-- What is noted. -/
def Nmea.seen (n : Nmea) : Stype × ℕ := (n.seenType, n.seenTime)

theorem useSentence_seen (n : Nmea) (tick : ℕ) (type : Stype) :
    (useSentence n tick type).2.seen =
      if (useSentence n tick type).1 then (type, tick) else n.seen := by
  unfold useSentence
  split <;> rfl

/-- The time is set by a complete sentence that is used. -/
theorem nmeaByte_setsUtc (n : Nmea) (p : Pbuf) (x : Input) :
    setsUtc (nmeaByte n p x).calls =
      match n.sentence p x.data with
      | none => false
      | some (type, fields) =>
        (useSentence n x.tick.toNat type).1 && type.complete fields := by
  rw [nmeaByte, nmeaFeed_setsUtc, Nmea.timeMessage, Nmea.sentence]
  cases n.ends x.data with
  | false => rfl
  | true =>
    rw [Bool.true_and, if_pos rfl]
    cases pieces 0x2C (sentenceText n p) with
    | nil => rfl
    | cons name fields =>
      dsimp only [sentenceTime]
      cases Stype.ofName name <;> rfl

theorem sentenceSeen_seen {n n' : Nmea} (h : n'.seen = n.seen) (tick : ℕ)
    (ps : List (List UInt8)) : (sentenceSeen n' tick ps).seen = (sentenceSeen n tick ps).seen := by
  obtain ⟨h_type, h_time⟩ := Prod.mk.inj h
  unfold sentenceSeen
  split
  · exact h
  · split
    · exact h
    · rw [useSentence_seen, useSentence_seen, useSentence_congr h_type h_time, h]

/-- A sentence of a known type is noted if it is used, complete or not. -/
theorem nmeaByte_seen (n : Nmea) (p : Pbuf) (x : Input) :
    (nmeaByte n p x).st.seen =
      match n.sentence p x.data with
      | none => n.seen
      | some (type, _) =>
        if (useSentence n x.tick.toNat type).1 then (type, x.tick.toNat) else n.seen := by
  -- where the sentence ends, whichever byte ended it
  have h_ends : n.ends x.data = true → ∀ n' : Nmea, n'.seen = n.seen → n'.rxCount = n.rxCount →
      (nmeaSentence n' p x.tick.toNat).st.seen =
        match n.sentence p x.data with
        | none => n.seen
        | some (type, _) =>
          if (useSentence n x.tick.toNat type).1 then (type, x.tick.toNat) else n.seen := by
    intro h_ends n' h_seen h_count
    have h_text : sentenceText n' p = sentenceText n p := by
      rw [sentenceText, sentenceText, h_count]
    rw [nmeaSentence_st, h_text, sentenceSeen_seen h_seen, Nmea.sentence, if_pos h_ends]
    cases pieces 0x2C (sentenceText n p) with
    | nil => rfl
    | cons name fields =>
      dsimp only [sentenceSeen]
      cases Stype.ofName name with
      | none => rfl
      | some type => exact useSentence_seen n x.tick.toNat type
  have h_on : n.ends x.data = false → n.sentence p x.data = none := fun h => if_neg (by simp [h])
  -- no other byte ends one
  by_cases h_dollar : x.data = 0x24
  · rw [h_on (by simp [Nmea.ends, h_dollar]), nmeaByte, nmeaFeed, if_pos h_dollar]
    rfl
  cases h_state : n.rxState with
  | waiting =>
    rw [h_on (by simp [Nmea.ends, h_state]), nmeaByte_waiting h_state h_dollar]
  | checksum1 =>
    rw [h_on (by simp [Nmea.ends, h_state]), nmeaByte_checksum1 h_state h_dollar]
    rfl
  | checksum2 =>
    rw [nmeaByte_checksum2 h_state h_dollar]
    split
    · next h_sum =>
      rw [h_on (by simp [Nmea.ends, h_state, h_dollar, h_sum])]
      rfl
    · next h_sum =>
      exact h_ends (by simp [Nmea.ends, h_state, h_dollar, not_not.mp h_sum]) _ rfl rfl
  | copying =>
    by_cases h_star : x.data = 0x2A
    · rw [h_on (by simp [Nmea.ends, h_state, h_star]), nmeaByte_star h_state h_star]
      rfl
    by_cases h_eol : x.data = 0x0D ∨ x.data = 0x0A
    · rw [nmeaByte_eol h_state h_eol]
      exact h_ends (by simp [Nmea.ends, h_state, h_dollar, h_eol]) n rfl rfl
    · have h_char : x.data ∉ [0x24, 0x2A, 0x0D, 0x0A] := by
        simp only [List.mem_cons, List.not_mem_nil]
        tauto
      rw [h_on (by simp [Nmea.ends, h_state, h_dollar, h_eol]), nmeaByte_char h_state h_char]
      split <;> rfl

/-! ### What is noted -/

namespace Watch

variable {s : Watch} {a : Arrival}

theorem tick_input (s : Watch) (a : Arrival) : (s.input a).tick.toNat = s.time a % 2 ^ 32 :=
  UInt32.toNat_ofNat'

theorem sentence_eq (s : Watch) (a : Arrival) :
    s.conf.1.sentence s.conf.2 (s.input a).data = s.sentence a := rfl

/-- A byte that ends no sentence. -/
theorem next_none (h : s.sentence a = none) :
    (s.next a).conf.1.seen = s.conf.1.seen ∧ (s.next a).noted = s.noted ∧
      (s.next a).sets = s.sets := by
  refine ⟨?_, ?_, ?_⟩
  · exact (nmeaByte_seen s.conf.1 s.conf.2 (s.input a)).trans
      (by rw [sentence_eq, h])
  · rw [next, h]
  · rw [next, h]

/-- A byte that ends a sentence. -/
theorem next_some {type : Stype} {fields : List (List UInt8)}
    (h : s.sentence a = some (type, fields)) :
    setsUtc (s.out a).calls = (s.uses a type && type.complete fields) ∧
    (s.next a).conf.1.seen =
      (if s.uses a type then (type, s.time a % 2 ^ 32) else s.conf.1.seen) ∧
    (s.next a).noted = (if s.uses a type then s.time a else s.noted) ∧
    (s.next a).sets =
      if s.uses a type && type.complete fields then (type, s.time a) :: s.sets else s.sets := by
  have h_sets : setsUtc (s.out a).calls = (s.uses a type && type.complete fields) :=
    (nmeaByte_setsUtc s.conf.1 s.conf.2 (s.input a)).trans
      (by rw [sentence_eq, h]; rfl)
  refine ⟨h_sets, ?_, ?_, ?_⟩
  · exact (nmeaByte_seen s.conf.1 s.conf.2 (s.input a)).trans
      (by rw [sentence_eq, h, ← tick_input]; rfl)
  · rw [next, h]
  · rw [next, h, ← h_sets]

end Watch

/-- What is noted was noted by a sentence that has set the time, but for GPRMC; and more preferred
ones have not set it within `PARSER_TIMEOUT` before. -/
structure Noted (s : Watch) : Prop where
  tick : s.conf.1.seenTime = s.noted % 2 ^ 32
  past : s.noted ≤ s.now
  before : ∀ set ∈ s.sets, set.2 ≤ s.noted
  below : ∀ set ∈ s.sets, s.conf.1.seenType.rank < set.1.rank → set.2 + parserTimeout ≤ s.noted
  last : 1 < s.conf.1.seenType.rank → (s.conf.1.seenType, s.noted) ∈ s.sets

theorem Noted.powerUp (p : Pbuf) : Noted (.powerUp p) :=
  ⟨rfl, le_rfl, by simp [Watch.powerUp], by simp [Watch.powerUp],
    fun h => absurd h (Nat.not_lt_zero 1)⟩

/-- `use_sentence` by the time that has passed. -/
theorem useSentence_iff {n : Nmea} {noted t : ℕ} (h_tick : n.seenTime = noted % 2 ^ 32)
    (h_past : noted ≤ t) (type : Stype) :
    (useSentence n (t % 2 ^ 32) type).1 = true ↔
      (type.rank < n.seenType.rank → parserTimeout ≤ (t - noted) % 2 ^ 32) := by
  have h_since : (t % 2 ^ 32 + 2 ^ 32 - n.seenTime % 2 ^ 32) % 2 ^ 32 = (t - noted) % 2 ^ 32 := by
    rw [h_tick]; omega
  rw [useSentence, h_since]
  split
  · next h => exact iff_of_false (by simp) fun h' => absurd (h' h.1) (Nat.not_le.mpr h.2)
  · next h => exact iff_of_true rfl fun h_rank => Nat.not_lt.mp fun h_lt => h ⟨h_rank, h_lt⟩

namespace Noted

variable {s : Watch} {a : Arrival} {type : Stype}

theorem uses_iff (h : Noted s) (a : Arrival) (type : Stype) :
    s.uses a type = true ↔
      (type.rank < s.conf.1.seenType.rank → parserTimeout ≤ (s.time a - s.noted) % 2 ^ 32) := by
  rw [Watch.uses, Watch.tick_input]
  exact useSentence_iff h.tick (h.past.trans (Nat.le_add_right _ _)) type

/-- A type that is used now: the more preferred ones have set the time long ago. -/
theorem over_of_uses (h : Noted s) (h_uses : s.uses a type = true) :
    ∀ set ∈ s.sets, type.rank < set.1.rank → set.2 + parserTimeout ≤ s.time a := by
  intro set h_set h_rank
  have h_now : s.noted ≤ s.time a := h.past.trans (Nat.le_add_right _ _)
  have h_before := h.before set h_set
  by_cases h_over : s.conf.1.seenType.rank < set.1.rank
  · exact (h.below set h_set h_over).trans h_now
  · have h_since := (h.uses_iff a type).mp h_uses (by omega)
    have h_mod := Nat.mod_le (s.time a - s.noted) (2 ^ 32)
    simp only [parserTimeout] at *
    omega

/-- **The invariant is kept** by a byte that is sound. -/
theorem next (h : Noted s) (h_sound : Sound s a) : Noted (s.next a) := by
  have h_now : s.noted ≤ s.time a := h.past.trans (Nat.le_add_right _ _)
  have h_next : (s.next a).now = s.time a := rfl
  -- a byte that changes nothing of it
  have h_keep : (s.next a).conf.1.seen = s.conf.1.seen → (s.next a).noted = s.noted →
      (s.next a).sets = s.sets → Noted (s.next a) := by
    intro h_seen h_noted h_sets
    obtain ⟨h_type, h_time⟩ := Prod.mk.inj h_seen
    exact ⟨by rw [h_time, h_noted, h.tick], by rw [h_noted, h_next]; exact h_now,
      by rw [h_sets, h_noted]; exact h.before, by rw [h_sets, h_noted, h_type]; exact h.below,
      by rw [h_sets, h_noted, h_type]; exact h.last⟩
  cases h_sentence : s.sentence a with
  | none =>
    obtain ⟨h_seen, h_noted, h_sets⟩ := Watch.next_none h_sentence
    exact h_keep h_seen h_noted h_sets
  | some sentence =>
    obtain ⟨type, fields⟩ := sentence
    obtain ⟨-, h_seen, h_noted, h_sets⟩ := Watch.next_some h_sentence
    have h_ok := h_sound type fields h_sentence
    unfold SoundFor at h_ok
    cases h_uses : s.uses a type with
    | false =>
      simp only [h_uses, Bool.false_eq_true, if_false, Bool.false_and] at h_seen h_noted h_sets
      exact h_keep h_seen h_noted h_sets
    | true =>
      simp only [h_uses, if_true, Bool.true_and] at h_seen h_noted h_sets
      have h_over := h.over_of_uses h_uses
      obtain ⟨h_type, h_time⟩ := Prod.mk.inj h_seen
      cases h_complete : type.complete fields with
      | true =>
        rw [h_complete, if_pos rfl] at h_sets
        refine ⟨by rw [h_time, h_noted], by rw [h_noted, h_next], ?_, ?_, ?_⟩ <;>
          rw [h_sets] <;> rw [h_noted]
        · exact List.forall_mem_cons.mpr ⟨le_rfl, fun set h_set => (h.before set h_set).trans h_now⟩
        · rw [h_type]
          exact List.forall_mem_cons.mpr ⟨fun h => absurd h (lt_irrefl _), h_over⟩
        · rw [h_type]
          exact fun _ => List.mem_cons_self
      | false =>
        rw [h_complete] at h_sets h_ok
        rcases h_ok h_uses with rfl | ⟨rfl, h_same⟩
        · -- GPRMC: nothing is less preferred
          refine ⟨by rw [h_time, h_noted], by rw [h_noted, h_next], ?_, ?_, ?_⟩ <;>
            rw [h_noted]
          · rw [h_sets]
            exact fun set h_set => (h.before set h_set).trans h_now
          · rw [h_sets, h_type]
            exact h_over
          · rw [h_type]
            exact fun h => absurd h (by decide)
        · refine h_keep ?_ (h_noted.trans h_same) h_sets
          rw [Nmea.seen, h_type, h_time, h_same, ← h.tick, Nmea.seen]

end Noted

/-- The types of sentences with a time. -/
theorem Watch.sentence_rank {s : Watch} {a : Arrival} {type : Stype} {fields : List (List UInt8)}
    (h : s.sentence a = some (type, fields)) : 0 < type.rank := by
  unfold Watch.sentence Nmea.sentence at h
  split at h
  · split at h
    · cases h
    · next name fields' _ =>
      obtain ⟨type', h_name, h_eq⟩ := Option.map_eq_some_iff.mp h
      obtain ⟨rfl, -⟩ := Prod.mk.inj h_eq
      cases type' with
      | none =>
        unfold Stype.ofName at h_name
        repeat' split at h_name
        all_goals cases h_name
      | _ => exact Nat.succ_pos _
  · cases h

/-- **A sentence is used as the sentences before it say.** -/
theorem Noted.fair {s : Watch} {a : Arrival} (h : Noted s) (h_sound : Sound s a) : Fair s a := by
  intro type fields h_sentence
  have h_now : s.noted ≤ s.time a := h.past.trans (Nat.le_add_right _ _)
  have h_rank := Watch.sentence_rank h_sentence
  have h_ok := h_sound type fields h_sentence
  unfold SoundFor at h_ok
  obtain ⟨h_sets, h_seen, -, -⟩ := Watch.next_some h_sentence
  have h_uses := h.uses_iff a type
  cases h_complete : type.complete fields with
  | true =>
    -- used means that nothing better was noted within `PARSER_TIMEOUT`
    rw [h_complete] at h_sets h_ok
    rw [Bool.and_true] at h_sets
    rw [if_pos rfl] at h_ok ⊢
    rw [h_sets]
    constructor
    · intro h_used set h_set h_less
      have h_over := h.over_of_uses h_used set h_set h_less
      omega
    · intro h_preferred
      refine h_uses.mpr fun h_less => ?_
      have h_since := h_preferred _ (h.last (by omega)) h_less
      exact Nat.not_lt.mp fun h_lt => h_ok h_less ⟨h_since, h_lt⟩
  | false =>
    -- an incomplete sentence is noted too, and must not matter to the later ones
    rw [h_complete] at h_sets h_ok
    rw [Bool.and_false] at h_sets
    rw [if_neg Bool.false_ne_true] at h_ok ⊢
    refine ⟨h_sets, fun later h_later h_alias type' h_some => ?_⟩
    have h_same : (s.next a).conf.1.seen = s.conf.1.seen →
        (useSentence (s.next a).conf.1 (later % 2 ^ 32) type').1 =
          (useSentence s.conf.1 (later % 2 ^ 32) type').1 := by
      intro h_eq
      obtain ⟨h_type, h_time⟩ := Prod.mk.inj h_eq
      exact useSentence_congr h_type h_time _ _
    cases h_used : s.uses a type with
    | false => exact h_same (by rw [h_seen, h_used]; rfl)
    | true =>
      rw [h_used, if_pos rfl] at h_seen
      rcases h_ok h_used with rfl | ⟨rfl, h_time⟩
      · -- now every type is used, and so it was before
        have h_rank' : 0 < type'.rank := by
          cases type' with
          | none => exact absurd rfl h_some
          | _ => exact Nat.succ_pos _
        obtain ⟨h_type, h_tick⟩ := Prod.mk.inj h_seen
        rw [(useSentence_iff h_tick h_later type').mpr fun h_less => ?_,
          (useSentence_iff h.tick (h_now.trans h_later) type').mpr fun h_less => ?_]
        · have h_since := h_uses.mp h_used (show 1 < s.conf.1.seenType.rank by omega)
          have h_mod := Nat.mod_le (s.time a - s.noted) (2 ^ 32)
          exact Nat.not_lt.mp fun h_lt => h_alias ⟨by omega, h_lt⟩
        · rw [h_type] at h_less
          exact absurd h_less (Nat.not_lt.mpr h_rank')
      · exact h_same (by rw [h_seen, h_time, ← h.tick, Nmea.seen])

theorem Noted.throughout {s : Watch} {as : List Arrival} (h : Noted s)
    (h_sound : Watch.Throughout Sound s as) : Watch.Throughout Fair s as := by
  induction as generalizing s with
  | nil => trivial
  | cons a as ih => exact ⟨h.fair h_sound.1, ih (h.next h_sound.1) h_sound.2⟩

/-- **Every run.** If every byte is sound, then sentences are used as those before them say. -/
theorem nmea_preference_fair (p : Pbuf) (as : List Arrival)
    (h_sound : Watch.Throughout Sound (.powerUp p) as) :
    Watch.Throughout Fair (.powerUp p) as :=
  (Noted.powerUp p).throughout h_sound

/-- Bytes that come at once. -/
def atOnce (bs : List UInt8) : List Arrival := bs.map (Arrival.mk 0)

/-- `$GPRMC,123456,,,,,,,,070614` and CR. -/
def rmcBytes : List UInt8 :=
  [0x24, 0x47, 0x50, 0x52, 0x4D, 0x43, 0x2C, 0x31, 0x32, 0x33, 0x34, 0x35, 0x36, 0x2C, 0x2C, 0x2C,
    0x2C, 0x2C, 0x2C, 0x2C, 0x2C, 0x30, 0x37, 0x30, 0x36, 0x31, 0x34, 0x0D]

/-- `$GPZDA` without fields, and CR. -/
def zdaBytes : List UInt8 := [0x24, 0x47, 0x50, 0x5A, 0x44, 0x41, 0x0D]

/-- `$GPZDA,123456,07,06,2014` and CR. -/
def zdaWithTime : List UInt8 :=
  [0x24, 0x47, 0x50, 0x5A, 0x44, 0x41, 0x2C, 0x31, 0x32, 0x33, 0x34, 0x35, 0x36, 0x2C, 0x30, 0x37,
    0x2C, 0x30, 0x36, 0x2C, 0x32, 0x30, 0x31, 0x34, 0x0D]

/-- GPZDA sets the time, GPRMC is refused at once, and used 500 ticks later. -/
def zdaFirst : List Arrival :=
  atOnce (zdaWithTime ++ rmcBytes ++ rmcBytes.dropLast) ++ [⟨500, 0x0D⟩]

theorem nmea_preference_fair_zdaFirst :
    Watch.Throughout Fair (.powerUp fun _ => 0) zdaFirst ∧
      ((Watch.powerUp fun _ => 0).after zdaFirst).sets = [(.gprmc, 500), (.gpzda, 0)] :=
  ⟨nmea_preference_fair _ _ (by decide +kernel), by decide +kernel⟩

/-- A sentence without a time keeps one with a time from being used. -/
theorem nmea_preference_starved :
    ¬ ∀ (p : Pbuf) (as : List Arrival), Watch.Throughout Fair (.powerUp p) as := by
  intro h_all
  have h_run := h_all (fun _ => 0) (atOnce (zdaBytes ++ rmcBytes.dropLast) ++ [⟨0, 0x0D⟩])
  obtain ⟨-, h_fair, -⟩ := Watch.throughout_append.mp h_run
  have h_sentence : ((Watch.powerUp fun _ => 0).after
      (atOnce (zdaBytes ++ rmcBytes.dropLast))).sentence ⟨0, 0x0D⟩ = some (.gprmc,
        [[0x31, 0x32, 0x33, 0x34, 0x35, 0x36], [], [], [], [], [], [], [],
          [0x30, 0x37, 0x30, 0x36, 0x31, 0x34]]) := by decide +kernel
  have h_calls : setsUtc (((Watch.powerUp fun _ => 0).after
      (atOnce (zdaBytes ++ rmcBytes.dropLast))).out ⟨0, 0x0D⟩).calls = false := by decide +kernel
  have h_sets : ((Watch.powerUp fun _ => 0).after
      (atOnce (zdaBytes ++ rmcBytes.dropLast))).sets = [] := by decide +kernel
  have h_set := h_fair _ _ h_sentence
  rw [if_pos (by decide), h_calls, h_sets] at h_set
  exact absurd (h_set.mpr fun set h => absurd h List.not_mem_nil) Bool.false_ne_true

end Gps
end Laureline
