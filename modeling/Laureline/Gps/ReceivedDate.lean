import Laureline.Gps.Parser
import Laureline.Vtimer.SetTime

/-!
# The date of a received time

Every parser hands the fields of a complete message to `vtimer_set_utc` as they were
received, and `days_before_month` reads its table with the month. No parser checks a
field; `days_in_month`, which asserts its month to be in range, is not called on
this way.

* `State.timeMessage` is whether a byte completes a message from which the time is
  set (`deliver_setsUtc`).
* `timeFields` are the fields by their places in the message; they are what the parsers
  pass on (`deliver_fields`).
* `stores_iff`: when `vtimer_set_utc` stores the NTP seconds of the date it is given.
* `setUtc_date_iff`: the dates of a run are stored exactly if the time messages carry
  dates of the calendar. `setUtc_month13` is a packet with a right checksum and a wrong
  month.
-/

namespace Laureline

/-! ### The date that is stored -/

/-- The date is one of the calendar from the year 1 on, and the time is one of a day. -/
def Tm.OnCalendar (tm : Tm) : Prop :=
  1 ≤ tm.year ∧ (1 ≤ tm.mon ∧ tm.mon ≤ 12) ∧
    (1 ≤ tm.mday ∧ tm.mday ≤ Gregorian.monthLength tm.year tm.mon) ∧ tm.tod < 86400

instance (tm : Tm) : Decidable tm.OnCalendar := inferInstanceAs (Decidable (_ ∧ _))

/-- `vtimer_set_utc` with these fields stores the low half of the NTP seconds of a time
on that date. -/
def Tm.Stores (tm : Tm) : Prop :=
  ∃ d : Gregorian.Date, (d.year = tm.year ∧ d.month = tm.mon ∧ d.day = tm.mday) ∧
    ∃ tod : ℕ, tod < 86400 ∧ ∀ v : Vtimer,
      v.setUtc tm.year tm.mon tm.mday tm.hour tm.min tm.sec =
        some { v with utcNext := u32 ((d.dayNumber - ntpEpochOrdinal) * 86400 + tod) }

/-- What `vtimer_set_utc` stores for a date of the calendar. -/
theorem setUtc_date (v : Vtimer) (d : Gregorian.Date) (hour minute second : ℕ) :
    v.setUtc d.year d.month d.day hour minute second =
      some { v with utcNext := u32 ((d.dayNumber - ntpEpochOrdinal) * 86400 +
        (hour * 3600 + minute * 60 + second : ℕ)) } := by
  have h_ordinal : (Gregorian.daysBeforeYear d.year : ℤ) +
      Gregorian.daysBeforeMonth d.year d.month + d.day = d.dayNumber := by
    rw [Gregorian.Date.dayNumber]
    omega
  have h_epoch : datetimeToEpoch d.year d.month d.day hour minute second =
      some (u64 ((d.dayNumber - ntpEpochOrdinal) * 86400 +
        (hour * 3600 + minute * 60 + second : ℕ))) := by
    rw [datetimeToEpoch, daysBeforeMonth_eq _ d.one_le_month d.month_le,
      daysBeforeYear_eq d.one_le_year, ← h_ordinal]
    rfl
  rw [Vtimer.setUtc, h_epoch, Option.map_some]
  congr 2
  -- the low half of a 64-bit number
  unfold u32
  rw [cast_u64]
  omega

/-- A time of less than 2^32 seconds is told from its low half. -/
theorem u32_add_inj {a : ℤ} {m n : ℕ} (hm : m < 2 ^ 32) (hn : n < 2 ^ 32)
    (h : u32 (a + m) = u32 (a + n)) : m = n := by
  unfold u32 at h
  omega

/-- **When the date is stored.** -/
theorem Tm.stores_iff {tm : Tm} (h_tod : tm.tod < 2 ^ 32) : tm.Stores ↔ tm.OnCalendar := by
  constructor
  · rintro ⟨d, ⟨h_year, h_month, h_day⟩, tod, h_lt, h_set⟩
    have h_date := setUtc_date (Vtimer.start 60000000) d tm.hour tm.min tm.sec
    rw [h_year, h_month, h_day, h_set, Option.some.injEq] at h_date
    have h_eq : tod = tm.tod :=
      u32_add_inj (by omega) h_tod (congrArg Vtimer.utcNext h_date)
    refine ⟨h_year ▸ d.one_le_year, h_month ▸ ⟨d.one_le_month, d.month_le⟩, ?_, h_eq ▸ h_lt⟩
    rw [← h_year, ← h_month, ← h_day]
    exact ⟨d.one_le_day, d.day_le⟩
  · rintro ⟨h_year, h_month, h_day, h_lt⟩
    let d : Gregorian.Date :=
      ⟨tm.year, tm.mon, tm.mday, h_year, h_month.1, h_month.2, h_day.1, h_day.2⟩
    exact ⟨d, ⟨rfl, rfl, rfl⟩, tm.tod, h_lt, fun v => setUtc_date v d tm.hour tm.min tm.sec⟩

namespace Gps

/-! ### The fields of a message -/

/-- Date and time of six characters each. -/
def sixCharFields (date time : List UInt8) : Tm where
  sec := atoi2dig (time.drop 4)
  min := atoi2dig (time.drop 2)
  hour := atoi2dig time
  mday := atoi2dig date
  mon := atoi2dig (date.drop 2)
  year := fullYear (atoi2dig (date.drop 4))

/-- The fields of an NMEA sentence, by its type. -/
def nmeaFields : List (List UInt8) → Tm
  | [] => ⟨0, 0, 0, 0, 0, 0⟩
  | name :: fields =>
    match Stype.ofName name with
    | some .gpzda =>
      { sixCharFields [] (fields.getD 0 []) with
        mday := atoiDecimal (fields.getD 1 []) % 256
        mon := atoiDecimal (fields.getD 2 []) % 256
        year := atoiDecimal (fields.getD 3 []) % 65536 }
    | some .gprmc => sixCharFields (fields.getD 8 []) (fields.getD 0 [])
    | some .pgrmf => sixCharFields (fields.getD 2 []) (fields.getD 3 [])
    | _ => ⟨0, 0, 0, 0, 0, 0⟩

/-- The fields of a time message in the buffer. -/
def timeFields (proto : Proto) (p : Pbuf) : Tm :=
  match proto with
  | .ublox =>
    ⟨(p 22).toNat, (p 21).toNat, (p 20).toNat, (p 19).toNat, (p 18).toNat, p.le16 16⟩
  | .tsip =>
    ⟨(p 12).toNat, (p 13).toNat, (p 14).toNat, (p 15).toNat, (p 16).toNat, p.be16 17⟩
  | .oncore =>
    ⟨(p 6).toNat, (p 5).toNat, (p 4).toNat, (p 1).toNat, (p 0).toNat, p.be16 2⟩
  | .nmea => nmeaFields (pieces 0x2C (text p.bytes))

/-- A call of `vtimer_set_utc` with these fields. -/
def Call.IsUtc (c : Call) (tm : Tm) : Prop :=
  c = .setUtc tm.year tm.mon tm.mday tm.hour tm.min tm.sec

theorem Call.isUtc_setUtc {year month day hour minute second : ℕ} {tm : Tm} :
    (Call.setUtc year month day hour minute second).IsUtc tm ↔
      tm = ⟨second, minute, hour, day, month, year⟩ := by
  rw [Call.IsUtc, Call.setUtc.injEq, Tm.mk.injEq]
  tauto

/-- The UTC time is set. -/
def setsUtc (calls : List Call) : Bool :=
  calls.any fun
    | .setUtc .. => true
    | _ => false

theorem setsUtc_iff {calls : List Call} : setsUtc calls ↔ ∃ c ∈ calls, ∃ tm, c.IsUtc tm := by
  unfold setsUtc
  rw [List.any_eq_true]
  refine exists_congr fun c => and_congr_right fun _ => ?_
  cases c with
  | setUtc year month day hour minute second =>
    exact iff_of_true rfl ⟨⟨second, minute, hour, day, month, year⟩, rfl⟩
  | _ => simp [Call.IsUtc]

/-- The parser passed the fields on. -/
def Delivery.PassesFields (d : Delivery) : Prop :=
  ∀ c ∈ d.calls, ∀ tm, c.IsUtc tm → tm = timeFields d.proto d.image

theorem toNat_sub_digit {c : UInt8} (h : isDigit c) : (c - 0x30).toNat ≤ 9 := by
  unfold isDigit at h
  rw [Bool.and_eq_true, decide_eq_true_eq, decide_eq_true_eq] at h
  have h_le : c.toNat ≤ 57 := h.2
  have h_zero : (0x30 : UInt8).toNat = 48 := rfl
  rw [UInt8.toNat_sub_of_le _ _ h.1]
  omega

/-- The two digits of a number, or 0. -/
theorem atoi2dig_le (s : List UInt8) : atoi2dig s ≤ 99 := by
  unfold atoi2dig
  split
  · next c d _ =>
    split
    · next h_digits =>
      have h_c := toNat_sub_digit h_digits.1
      have h_d := toNat_sub_digit h_digits.2
      omega
    · exact Nat.zero_le _
  · exact Nat.zero_le _

theorem sixCharFields_tod (date time : List UInt8) : (sixCharFields date time).tod < 2 ^ 32 := by
  have h_hour := atoi2dig_le time
  have h_min := atoi2dig_le (time.drop 2)
  have h_sec := atoi2dig_le (time.drop 4)
  simp only [Tm.tod, sixCharFields]
  omega

/-- The time of day of a message does not wrap. -/
theorem timeFields_tod (proto : Proto) (p : Pbuf) : (timeFields proto p).tod < 2 ^ 32 := by
  -- of the binary messages each field is a byte
  have h_bytes : ∀ hour minute second : UInt8,
      hour.toNat * 3600 + minute.toNat * 60 + second.toNat < 2 ^ 32 := by
    intro hour minute second
    have := hour.toNat_lt
    have := minute.toNat_lt
    have := second.toNat_lt
    omega
  cases proto with
  | ublox | tsip | oncore => exact h_bytes _ _ _
  | nmea =>
    change (nmeaFields _).tod < 2 ^ 32
    unfold nmeaFields
    split
    · decide
    · split
      · exact sixCharFields_tod [] _
      · exact sixCharFields_tod _ _
      · exact sixCharFields_tod _ _
      · decide

/-! ### Time messages

The state in which a parser is called and the byte decide whether the byte completes
a message from which the time is set. -/

/-- A packet NAV-TIMEUTC with the bit for UTC, outside of the GPS time scale. -/
def Ublox.timeMessage (timescaleGps : Bool) (u : Ublox) (p : Pbuf) (val : UInt8) : Bool :=
  (u.ustate = .checksum2 ∧ u.rxCk2 = val) ∧
    p 0 = 0x01 ∧ p 1 = 0x21 ∧ u.rxCount ≥ 4 + 20 ∧ !timescaleGps ∧ p 23 &&& 0x04 ≠ 0

/-- A packet 0x8F-AB with complete time. -/
def Tsip.timeMessage (t : Tsip) (p : Pbuf) (tick : ℕ) (val : UInt8) : Bool :=
  let t := t.arrive tick val
  let p := p.store [(t.rxCount, val)]
  (val = 0x03 ∧ t.rxDleCount ≠ 0 ∧ t.rxDleCount % 2 = 0 ∧ t.rxCount < pbufSize) ∧
    t.rxCount + 1 ≥ 19 ∧ p 1 = 0x8F ∧ p 2 = 0xAB ∧ p 11 &&& (0x04 ||| 0x08) = 0

/-- A message `@@Ea` with the right checksum. -/
def Motorola.timeMessage (m : Motorola) (data : UInt8) : Bool :=
  (m.mstate = .copying ∧ (m.mremaining + 255) % 256 = 0 ∧ m.mcsum ^^^ data = 0) ∧
    m.mcmd = mcmdEa

/-- There is a field of each length at least. -/
def covers : List ℕ → List (List UInt8) → Bool
  | [], _ => true
  | _ :: _, [] => false
  | n :: ns, f :: fs => n ≤ f.length && covers ns fs

/-- The fields of a sentence are there, and date and time have six characters. -/
def Stype.complete : Stype → List (List UInt8) → Bool
  | .none, _ => false
  | .gpzda, fields => covers [6, 0, 0, 0] fields
  | .gprmc, fields => covers [6, 0, 0, 0, 0, 0, 0, 0, 6] fields
  | .pgrmf, fields => covers [0, 0, 6, 6] fields

/-- A sentence of a known type that is in use, with its fields. -/
def sentenceTime (n : Nmea) (tick : ℕ) : List (List UInt8) → Bool
  | [] => false
  | name :: fields =>
    match Stype.ofName name with
    | none => false
    | some type => (useSentence n tick type).1 && type.complete fields

/-- The sentence is complete. -/
def Nmea.ends (n : Nmea) (val : UInt8) : Bool :=
  if val = 0x24 then false
  else
    match n.rxState with
    | .waiting | .checksum1 => false
    | .copying => val = 0x0D ∨ val = 0x0A
    | .checksum2 => n.rxCksum ^^^ parseHex val = 0

/-- A sentence with a time. -/
def Nmea.timeMessage (n : Nmea) (p : Pbuf) (tick : ℕ) (val : UInt8) : Bool :=
  n.ends val && sentenceTime n tick (pieces 0x2C (sentenceText n p))

/-- The byte completes a time message of the protocol. -/
def State.timeMessage (timescaleGps : Bool) (s : State) (x : Input) : Proto → Bool
  | .ublox => s.ublox.timeMessage timescaleGps s.pbuf x.data
  | .tsip => s.tsip.timeMessage s.pbuf x.tick.toNat x.data
  | .oncore => s.motorola.timeMessage x.data
  | .nmea => s.nmea.timeMessage s.pbuf x.tick.toNat x.data

theorem ubloxComplete_setsUtc (timescaleGps : Bool) (p : Pbuf) (rxCount : ℕ) :
    setsUtc (ubloxComplete timescaleGps p rxCount) =
      decide (p 0 = 0x01 ∧ p 1 = 0x21 ∧ rxCount ≥ 4 + 20 ∧ !timescaleGps ∧
        p 23 &&& 0x04 ≠ 0) := by
  unfold ubloxComplete
  repeat' split
  all_goals simp_all [setsUtc]

theorem ubloxFeed_setsUtc (timescaleGps : Bool) (u : Ublox) (p : Pbuf) (val : UInt8) :
    setsUtc (ubloxFeed timescaleGps u p val).calls = u.timeMessage timescaleGps p val := by
  unfold ubloxFeed Ublox.timeMessage
  cases h_state : u.ustate with
  | checksum2 =>
    dsimp only
    split
    · next h_ck => simp [setsUtc, Ublox.drop, h_ck]
    · next h_ck =>
      rw [ubloxComplete_setsUtc]
      simp [not_not.mp h_ck]
  | _ =>
    dsimp only
    split <;> simp [setsUtc, Ublox.drop]

theorem tsipComplete_setsUtc (t : Tsip) (p : Pbuf) :
    setsUtc (tsipComplete t p).calls =
      decide (t.rxCount ≥ 19 ∧ p 1 = 0x8F ∧ p 2 = 0xAB ∧ p 11 &&& (0x04 ||| 0x08) = 0) := by
  unfold tsipComplete
  split
  · next h_time =>
    split
    · next h_part => simp [setsUtc, h_part]
    · next h_full => simp [setsUtc, h_time, not_not.mp h_full]
  · next h_other =>
    -- packet 0x8F-AC has no time
    have h_not : ¬ (t.rxCount ≥ 19 ∧ p 1 = 0x8F ∧ p 2 = 0xAB ∧ p 11 &&& (0x04 ||| 0x08) = 0) :=
      fun h => h_other ⟨h.1, h.2.1, h.2.2.1⟩
    rw [decide_eq_false h_not]
    split <;> rfl

theorem tsipFeed_setsUtc (t : Tsip) (p : Pbuf) (tick : ℕ) (val : UInt8) :
    setsUtc (tsipFeed t p tick val).calls = t.timeMessage p tick val := by
  unfold Tsip.timeMessage
  dsimp only
  rcases tsipFeed_cases t p tick val with ⟨h_val, -, -, h⟩ | ⟨-, h_zero, h⟩ | ⟨-, h_some, h⟩ <;>
    rw [h]
  · exact (decide_eq_false fun h => absurd (h_val.symm.trans h.1.1) (by decide)).symm
  · exact (decide_eq_false fun h => h.1.2.1 h_zero).symm
  · rcases tsipStore_cases (t.arrive tick val) p val with ⟨h_full, h⟩ |
      ⟨h_room, ⟨h_val, h_even, h⟩ | ⟨h_on, h⟩⟩ <;> rw [h]
    · exact (decide_eq_false fun h => absurd h.1.2.2.2 (not_lt.mpr h_full)).symm
    · -- the packet ends with this byte
      have h_dle : (t.arrive tick val).rxDleCount ≠ 0 :=
        h_some.resolve_left (by rw [h_val]; decide)
      have h_count : ((t.arrive tick val).rxCount + 1) % 256 = (t.arrive tick val).rxCount + 1 := by
        simp only [pbufSize] at h_room; omega
      dsimp only
      rw [tsipComplete_setsUtc]
      simp only [h_count]
      exact decide_eq_decide.mpr ⟨fun h => ⟨⟨h_val, h_dle, h_even, h_room⟩, h⟩, And.right⟩
    · exact (decide_eq_false fun h => h_on ⟨h.1.1, h.1.2.2.1⟩).symm

theorem motorolaFeed_setsUtc (m : Motorola) (p : Pbuf) (data : UInt8) :
    setsUtc (motorolaFeed m p data).calls = m.timeMessage data := by
  unfold motorolaFeed Motorola.timeMessage
  cases m.mstate with
  | copying =>
    dsimp only
    split
    · next h_rest => simp [setsUtc, h_rest]
    · next h_last =>
      split
      · next h_sum => simp [setsUtc, h_sum]
      · next h_sum =>
        unfold motorolaComplete
        split <;> simp_all [setsUtc]
  | waiting | cmd1 => dsimp only; repeat' split <;> simp [setsUtc]
  | at1 | at2 => simp [setsUtc]

theorem covers_cons {n : ℕ} {ns : List ℕ} {fields : List (List UInt8)} :
    covers (n :: ns) fields ↔ ∃ f fs, fields = f :: fs ∧ n ≤ f.length ∧ covers ns fs := by
  cases fields with
  | nil => simp [covers]
  | cons f fs => simp [covers]

theorem reader_setsUtc (type : Stype) (fields : List (List UInt8)) :
    setsUtc (type.reader.runPieces fields).toList = type.complete fields := by
  rw [Bool.eq_iff_iff, setsUtc_iff]
  simp only [Option.mem_toList]
  cases type with
  | none => simp [Stype.reader, Stype.complete, Reader.runPieces]
  | gpzda =>
    -- the reader calls just where the fields are complete
    simp only [Stype.reader, gpzda, Stype.complete, covers_cons, Reader.runPieces_next,
      sixChars_runPieces, Reader.runPieces_ret]
    simp [covers, Call.isUtc_setUtc]
  | gprmc =>
    simp only [Stype.reader, gprmc, Stype.complete, covers_cons, Reader.runPieces_next,
      sixChars_runPieces, Reader.runPieces_ret]
    simp [covers, Call.isUtc_setUtc]
  | pgrmf =>
    simp only [Stype.reader, pgrmf, Stype.complete, covers_cons, Reader.runPieces_next,
      sixChars_runPieces, Reader.runPieces_ret]
    simp [covers, Call.isUtc_setUtc]

theorem sentenceTime_congr {n n' : Nmea} (h_type : n'.seenType = n.seenType)
    (h_time : n'.seenTime = n.seenTime) (tick : ℕ) (ps : List (List UInt8)) :
    sentenceTime n' tick ps = sentenceTime n tick ps := by
  unfold sentenceTime
  simp only [useSentence_congr h_type h_time]

theorem nmeaSentence_setsUtc (n : Nmea) (p : Pbuf) (tick : ℕ) :
    setsUtc (nmeaSentence n p tick).calls =
      sentenceTime n tick (pieces 0x2C (sentenceText n p)) := by
  rw [nmeaSentence_calls]
  unfold sentenceCall sentenceTime
  cases pieces 0x2C (sentenceText n p) with
  | nil => rfl
  | cons name fields =>
    dsimp only
    cases Stype.ofName name with
    | none => rfl
    | some type =>
      dsimp only
      split
      · next h_use => rw [h_use, Bool.true_and, reader_setsUtc]
      · next h_not => simp [setsUtc, h_not]

theorem nmeaFeed_setsUtc (n : Nmea) (p : Pbuf) (tick : ℕ) (val : UInt8) :
    setsUtc (nmeaFeed n p tick val).calls = n.timeMessage p tick val := by
  unfold nmeaFeed Nmea.timeMessage Nmea.ends
  split
  · simp [setsUtc]
  · cases n.rxState with
    | waiting => simp [setsUtc]
    | checksum1 => simp [setsUtc]
    | copying =>
      dsimp only
      split
      · next h_star => simp [setsUtc, h_star]
      · split
        · next h_end => rw [nmeaSentence_setsUtc, decide_eq_true h_end, Bool.true_and]
        · next h_on =>
          rw [decide_eq_false h_on, Bool.false_and]
          split <;> rfl
    | checksum2 =>
      dsimp only
      split
      · next h_sum => simp [setsUtc, h_sum]
      · next h_sum =>
        rw [nmeaSentence_setsUtc, decide_eq_true (not_not.mp h_sum), Bool.true_and]
        -- the checksum is no part of the text, nor of the preference
        refine sentenceTime_congr (n := n) ?_ ?_ tick _ <;> rfl

/-! ### Each parser passes the fields on -/

theorem ubloxComplete_fields {timescaleGps : Bool} {p : Pbuf} {rxCount : ℕ} {c : Call}
    (hc : c ∈ ubloxComplete timescaleGps p rxCount) {tm : Tm} (hu : c.IsUtc tm) :
    tm = timeFields .ublox p := by
  rw [Call.IsUtc] at hu
  subst hu
  -- NAV-TIMEUTC is the one packet with a date
  unfold ubloxComplete at hc
  repeat' split at hc
  all_goals simp only [List.mem_singleton, List.not_mem_nil, reduceCtorEq] at hc
  exact Call.isUtc_setUtc.mp hc.symm

theorem ubloxFeed_fields {timescaleGps : Bool} {u : Ublox} {p : Pbuf} {val : UInt8} {c : Call}
    (hc : c ∈ (ubloxFeed timescaleGps u p val).calls) {tm : Tm} (hu : c.IsUtc tm) :
    tm = timeFields .ublox (p.store (ubloxFeed timescaleGps u p val).writes) := by
  unfold ubloxFeed at hc ⊢
  cases h_state : u.ustate with
  | checksum2 =>
    simp only [h_state] at hc ⊢
    split at hc
    · exact absurd hc (by simp [Ublox.drop])
    · next h_ck =>
      rw [if_neg h_ck]
      exact ubloxComplete_fields hc hu
  | _ =>
    -- no call in any other state
    simp only [h_state, Ublox.drop] at hc
    split at hc <;> exact absurd hc (by simp)

theorem tsipFeed_fields {t : Tsip} {p : Pbuf} {tick : ℕ} {val : UInt8} {c : Call}
    (hc : c ∈ (tsipFeed t p tick val).calls) {tm : Tm} (hu : c.IsUtc tm) :
    tm = timeFields .tsip (p.store (tsipFeed t p tick val).writes) := by
  rcases tsipFeed_cases t p tick val with ⟨-, -, -, h⟩ | ⟨-, -, h⟩ | ⟨-, -, h⟩ <;>
    rw [h] at hc ⊢
  · exact absurd hc (by simp)
  · exact absurd hc (by simp)
  · rcases tsipStore_cases (t.arrive tick val) p val with ⟨-, h⟩ | ⟨-, ⟨-, -, h⟩ | ⟨-, h⟩⟩ <;>
      rw [h] at hc ⊢
    · exact absurd hc (by simp)
    · rcases (tsipComplete_cases _ _).2.2.2.2.2 _ hc with rfl | rfl
      · exact Call.isUtc_setUtc.mp hu
      · exact absurd hu (by simp [Call.IsUtc])
    · exact absurd hc (by simp)

theorem motorolaFeed_fields {m : Motorola} {p : Pbuf} {data : UInt8} {c : Call}
    (hc : c ∈ (motorolaFeed m p data).calls) {tm : Tm} (hu : c.IsUtc tm) :
    tm = timeFields .oncore (p.store (motorolaFeed m p data).writes) := by
  unfold motorolaFeed at hc ⊢
  cases h_state : m.mstate with
  | copying =>
    -- only the last byte of a message calls, and its checksum has to be right
    simp only [h_state] at hc ⊢
    split at hc
    · exact absurd hc (by simp)
    · next h_last =>
      rw [if_neg h_last]
      split at hc
      · exact absurd hc (by simp)
      · next h_sum =>
        rw [if_neg h_sum]
        unfold motorolaComplete at hc
        split at hc
        · rw [List.mem_singleton.mp hc] at hu
          exact Call.isUtc_setUtc.mp hu
        · exact absurd hc (by simp)
  | cmd1 =>
    -- before that no byte calls
    simp only [h_state] at hc
    split at hc
    · split at hc <;> exact absurd hc (by simp)
    · exact absurd hc (by simp)
  | waiting =>
    simp only [h_state] at hc
    split at hc <;> exact absurd hc (by simp)
  | at1 => exact absurd hc (by simp [h_state])
  | at2 => exact absurd hc (by simp [h_state])

/-- The fields that a sentence type reads are those at their places. -/
theorem reader_fields {type : Stype} {fields : List (List UInt8)} {c : Call}
    (hc : type.reader.runPieces fields = some c) {name : List UInt8}
    (h_name : Stype.ofName name = some type) {tm : Tm} (hu : c.IsUtc tm) :
    tm = nmeaFields (name :: fields) := by
  simp only [nmeaFields, h_name]
  cases type with
  | none => exact absurd hc (by simp [Stype.reader, Reader.runPieces])
  | gpzda =>
    -- the reader has taken the fields one by one, and `nmeaFields` names the same ones
    simp only [Stype.reader, gpzda, Reader.runPieces_next, sixChars_runPieces,
      Reader.runPieces_ret] at hc
    obtain ⟨time, _, rfl, -, day, _, rfl, month, _, rfl, year, _, rfl, rfl⟩ := hc
    exact Call.isUtc_setUtc.mp hu
  | gprmc =>
    simp only [Stype.reader, gprmc, Reader.runPieces_next, sixChars_runPieces,
      Reader.runPieces_ret] at hc
    obtain ⟨time, _, rfl, -, _, _, rfl, _, _, rfl, _, _, rfl, _, _, rfl, _, _, rfl, _, _, rfl,
      _, _, rfl, date, _, rfl, -, rfl⟩ := hc
    exact Call.isUtc_setUtc.mp hu
  | pgrmf =>
    simp only [Stype.reader, pgrmf, Reader.runPieces_next, sixChars_runPieces,
      Reader.runPieces_ret] at hc
    obtain ⟨_, _, rfl, _, _, rfl, date, _, rfl, -, time, _, rfl, -, rfl⟩ := hc
    exact Call.isUtc_setUtc.mp hu

theorem nmeaSentence_fields {n : Nmea} {p : Pbuf} {tick : ℕ} {c : Call}
    (hc : c ∈ (nmeaSentence n p tick).calls) {tm : Tm} (hu : c.IsUtc tm) :
    tm = nmeaFields (pieces 0x2C (text (p.store (nmeaSentence n p tick).writes).bytes)) := by
  rw [(nmeaSentence_frame n p tick).2.1]
  rw [nmeaSentence_calls, Option.mem_toList] at hc
  change tm = nmeaFields (pieces 0x2C (sentenceText n p))
  cases h_pieces : pieces 0x2C (sentenceText n p) with
  | nil =>
    -- a text has one piece at least
    exact absurd hc (by simp [h_pieces, sentenceCall])
  | cons name fields =>
    rw [h_pieces] at hc
    simp only [sentenceCall] at hc
    split at hc
    · exact absurd hc (by simp)
    · next type h_type =>
      split at hc
      · exact reader_fields hc h_type hu
      · exact absurd hc (by simp)

theorem nmeaFeed_fields {n : Nmea} {p : Pbuf} {tick : ℕ} {val : UInt8} {c : Call}
    (hc : c ∈ (nmeaFeed n p tick val).calls) {tm : Tm} (hu : c.IsUtc tm) :
    tm = nmeaFields (pieces 0x2C (text (p.store (nmeaFeed n p tick val).writes).bytes)) := by
  unfold nmeaFeed at hc ⊢
  split at hc
  · exact absurd hc (by simp)
  · next h_dollar =>
    rw [if_neg h_dollar]
    cases h_state : n.rxState with
    -- a call needs the end of a sentence: a CR or LF, or the second digit of the checksum
    | waiting => exact absurd hc (by simp [h_state])
    | checksum1 => exact absurd hc (by simp [h_state])
    | copying =>
      simp only [h_state] at hc ⊢
      split at hc
      · exact absurd hc (by simp)
      · next h_star =>
        rw [if_neg h_star]
        split at hc
        · next h_end => rw [if_pos h_end]; exact nmeaSentence_fields hc hu
        · split at hc <;> exact absurd hc (by simp)
    | checksum2 =>
      simp only [h_state] at hc ⊢
      split at hc
      · exact absurd hc (by simp)
      · next h_sum => rw [if_neg h_sum]; exact nmeaSentence_fields hc hu

/-! ### The dispatcher -/

/-- **The fields.** Every parser passes the fields of its message on. -/
theorem deliver_fields (timescaleGps : Bool) (s : State) (x : Input) (p : Proto) :
    (State.deliver timescaleGps s x p).2.PassesFields := by
  intro c hc tm hu
  cases p with
  | ublox => exact ubloxFeed_fields hc hu
  | tsip => exact tsipFeed_fields hc hu
  | oncore => exact motorolaFeed_fields hc hu
  | nmea => exact nmeaFeed_fields hc hu

/-- The time is set from the time messages. -/
theorem deliver_setsUtc (timescaleGps : Bool) (s : State) (x : Input) (p : Proto) :
    setsUtc (State.deliver timescaleGps s x p).2.calls = s.timeMessage timescaleGps x p := by
  cases p with
  | ublox => exact ubloxFeed_setsUtc _ _ _ _
  | tsip => exact tsipFeed_setsUtc _ _ _ _
  | oncore => exact motorolaFeed_setsUtc _ _ _
  | nmea => exact nmeaFeed_setsUtc _ _ _ _

/-- A byte that completes a time message. -/
def Delivery.TimeMessage (timescaleGps : Bool) (d : Delivery) : Prop :=
  d.before.timeMessage timescaleGps d.input d.proto

/-- **The dates of a run.** For every sequence of bytes and ticks from power-up, every call
of `vtimer_set_utc` has a month between 1 and 12, with the table read in bounds, and stores
the NTP seconds of its date, if and only if every time message carries a date of the
calendar and a time of a day. -/
theorem setUtc_date_iff (timescaleGps : Bool) (xs : List Input) :
    (∀ d ∈ State.powerUp.deliveries timescaleGps xs, ∀ c ∈ d.calls, ∀ tm, c.IsUtc tm →
      (1 ≤ tm.mon ∧ tm.mon ≤ 12) ∧ (daysBeforeMonth tm.year tm.mon).isSome ∧ tm.Stores) ↔
    (∀ d ∈ State.powerUp.deliveries timescaleGps xs, d.TimeMessage timescaleGps →
      (timeFields d.proto d.image).OnCalendar) := by
  have h_passes : ∀ d ∈ State.powerUp.deliveries timescaleGps xs, d.PassesFields :=
    State.deliveries_forall (fun s x p => deliver_fields timescaleGps s x p) _ xs
  have h_sets : ∀ d ∈ State.powerUp.deliveries timescaleGps xs,
      d.TimeMessage timescaleGps ↔ ∃ c ∈ d.calls, ∃ tm, c.IsUtc tm := by
    refine State.deliveries_forall (fun s x p => ?_) _ xs
    rw [← setsUtc_iff, deliver_setsUtc]
    cases p <;> exact Iff.rfl
  -- a time message makes one call, and its fields are those of the message
  constructor
  · intro h_calls d hd h_time
    obtain ⟨c, hc, tm, hu⟩ := (h_sets d hd).mp h_time
    obtain ⟨-, -, h_stores⟩ := h_calls d hd c hc tm hu
    rw [h_passes d hd c hc tm hu] at h_stores
    exact (Tm.stores_iff (timeFields_tod _ _)).mp h_stores
  · intro h_fields d hd c hc tm hu
    have h_date := h_fields d hd ((h_sets d hd).mpr ⟨c, hc, tm, hu⟩)
    have h_stores := (Tm.stores_iff (timeFields_tod _ _)).mpr h_date
    rw [← h_passes d hd c hc tm hu] at h_date h_stores
    exact ⟨h_date.2.1, daysBeforeMonth_isSome.mpr h_date.2.1.2, h_stores⟩

/-- A UBX NAV-TIMEUTC packet for the first day of month 13 of 2014. -/
def month13 : List UInt8 :=
  [0xB5, 0x62, 0x01, 0x21, 0x14, 0x00, 0x00, 0x00, 0x00, 0x00, 0x00, 0x00, 0x00, 0x00, 0x00, 0x00,
    0x00, 0x00, 0xDE, 0x07, 0x0D, 0x01, 0x00, 0x00, 0x00, 0x04, 0x2D, 0x3F]

/-- The packet is accepted, and its month is outside the table. -/
theorem setUtc_month13 :
    ¬ ∀ xs, ∀ d ∈ State.powerUp.deliveries false xs, ∀ c ∈ d.calls, ∀ tm, c.IsUtc tm →
      (1 ≤ tm.mon ∧ tm.mon ≤ 12) ∧ (daysBeforeMonth tm.year tm.mon).isSome ∧ tm.Stores := by
  intro h_all
  have h_calls : ((State.powerUp.deliveries false (month13.map (Input.mk 1))).map
      Delivery.calls).getLast? = some [.setUtc 2014 13 1 0 0 0] := by decide +kernel
  obtain ⟨d, hd, h_eq⟩ := List.mem_map.mp (List.mem_of_getLast? h_calls)
  have h_month := h_all _ d hd (.setUtc 2014 13 1 0 0 0) (by simp [h_eq]) ⟨0, 0, 0, 1, 13, 2014⟩ rfl
  exact absurd h_month.1.2 (by decide)

/-- 31 February 2014 is stored as 3 March. -/
example : datetimeToEpoch 2014 2 31 0 0 0 = datetimeToEpoch 2014 3 3 0 0 0 := by decide

end Gps
end Laureline
