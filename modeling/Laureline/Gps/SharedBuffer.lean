import Laureline.Gps.Parser

/-!
# One buffer for four parsers

A parser that is part-way through a packet occupies the first positions of the
buffer. The lock keeps the others away from them, but the timeouts clear the lock
and leave the private states of the parsers as they are (TSIP, which looks at the
time itself, apart). A byte that then starts a packet of another protocol lets two
parsers share the positions.

The search goes through the table in order, and a parser that refuses a byte drops
its packet (`Fills.refused`). So sharing begins only where a byte is taken by a
parser before the one that is part-way; a run in which this does not happen is
`Undisturbed`.

* `Fills` is what one byte does to the positions of the parser it is fed to.
* `State.takes` is whether a parser takes a byte, by its state and the byte.
* `BufferInv` says that at most one parser occupies positions, and that they hold
  what it stored.
* `pbuf_exclusive` is the statement over every such run; `pbuf_shared` is a
  run in which a sentence is completed with a byte of another packet in it.
-/

namespace Laureline
namespace Gps

/-! ### The positions of a packet that is not complete -/

/-- UBX counts only once the packet has begun. -/
def Ublox.occupied (u : Ublox) : ℕ :=
  match u.ustate with
  | .waiting | .sync => 0
  | .header | .copying | .checksum1 | .checksum2 => u.rxCount

/-- TSIP drops its packet on the next byte if it is stale. -/
def Tsip.occupied (t : Tsip) (tick : ℕ) : ℕ := (t.fresh tick).rxCount

/-- Motorola stores only in `M_COPYING`. -/
def Motorola.occupied (m : Motorola) : ℕ := if m.mstate = .copying then m.mptr else 0

/-- A sentence goes on until its checksum is complete. -/
def Nmea.occupied (n : Nmea) : ℕ := if n.rxState = .waiting then 0 else n.rxCount

/-- The effect of one byte on the positions `occ` of the parser it is fed to, which
are `occ'` afterwards. -/
structure Fills {σ : Type} (occ occ' : ℕ) (o : Out σ) : Prop where
  /-- A position is occupied only if it was, or has just been stored. -/
  grows : ∀ i < occ', i < occ ∨ i ∈ o.writes.map Prod.fst
  /-- So is a position of the packet that is complete. -/
  filled : o.rc = .feedComplete → ∀ i < o.filled, i < occ ∨ i ∈ o.writes.map Prod.fst
  /-- Refusing a byte means dropping the packet. -/
  refused : o.rc = .feedUnknown → occ' = 0
  /-- Without a packet, refusing a byte leaves the buffer alone. -/
  quiet : o.rc = .feedUnknown → occ = 0 → o.writes = [] ∧ o.cuts = []

/-- A byte that is stored at the end of the packet. -/
theorem Fills.of_append {σ : Type} {occ occ' : ℕ} {o : Out σ} (val : UInt8)
    (h_writes : o.writes = [(occ, val)]) (h_occ : occ' ≤ occ + 1) (h_filled : o.filled ≤ occ + 1)
    (h_rc : o.rc ≠ .feedUnknown) : Fills occ occ' o where
  grows := fun i hi => by
    rw [h_writes]
    rcases Nat.lt_or_ge i occ with h_lt | h_ge
    · exact Or.inl h_lt
    · exact Or.inr (by simp; omega)
  filled := fun _ i hi => by
    rw [h_writes]
    rcases Nat.lt_or_ge i occ with h_lt | h_ge
    · exact Or.inl h_lt
    · exact Or.inr (by simp; omega)
  refused := fun h => absurd h h_rc
  quiet := fun h => absurd h h_rc

/-- A byte that is looked at and not stored. -/
theorem Fills.of_keep {σ : Type} {occ occ' : ℕ} {o : Out σ} (h_occ : occ' ≤ occ)
    (h_filled : o.filled ≤ occ) (h_rc : o.rc ≠ .feedUnknown) : Fills occ occ' o where
  grows := fun i hi => Or.inl (by omega)
  filled := fun _ i hi => Or.inl (by omega)
  refused := fun h => absurd h h_rc
  quiet := fun h => absurd h h_rc

/-- A byte that is refused. -/
theorem Fills.of_refuse {σ : Type} {occ : ℕ} {o : Out σ} (h_rc : o.rc = .feedUnknown)
    (h_quiet : occ = 0 → o.writes = [] ∧ o.cuts = []) : Fills occ 0 o where
  grows := fun i hi => absurd hi (by omega)
  filled := fun h => absurd (h_rc.symm.trans h) (by decide)
  refused := fun _ => rfl
  quiet := fun _ => h_quiet

/-! ### The parsers one by one -/

theorem ubloxFeed_fills (timescaleGps : Bool) (u : Ublox) (p : Pbuf) (val : UInt8) :
    Fills u.occupied (ubloxFeed timescaleGps u p val).st.occupied
      (ubloxFeed timescaleGps u p val) := by
  have h_drop : Fills u.occupied u.drop.st.occupied u.drop :=
    Fills.of_refuse rfl fun _ => ⟨rfl, rfl⟩
  unfold ubloxFeed
  cases h_state : u.ustate with
  | waiting =>
    dsimp only
    split
    · exact Fills.of_keep (Nat.zero_le _) (Nat.zero_le _) (by simp)
    · exact h_drop
  | sync =>
    dsimp only
    split
    · exact Fills.of_keep (Nat.zero_le _) (Nat.zero_le _) (by simp)
    · exact h_drop
  -- from here on the bytes are stored one behind the other
  | header =>
    have h_occ : u.occupied = u.rxCount := by simp [Ublox.occupied, h_state]
    dsimp only
    rw [h_occ]
    split
    · refine Fills.of_append val rfl ?_ (Nat.zero_le _) (by simp)
      simp only [Ublox.occupied, Ublox.take]
      split <;> omega
    · refine Fills.of_append val rfl ?_ (Nat.zero_le _) (by simp)
      simp only [Ublox.occupied, Ublox.take]
      split <;> omega
  | copying =>
    have h_occ : u.occupied = u.rxCount := by simp [Ublox.occupied, h_state]
    dsimp only
    split
    · exact h_drop
    · rw [h_occ]
      refine Fills.of_append val rfl ?_ (Nat.zero_le _) (by simp)
      simp only [Ublox.occupied, Ublox.take]
      split <;> omega
  -- the checksums are compared and not stored
  | checksum1 =>
    have h_occ : u.occupied = u.rxCount := by simp [Ublox.occupied, h_state]
    dsimp only
    split
    · exact h_drop
    · rw [h_occ]
      exact Fills.of_keep (le_refl _) (Nat.zero_le _) (by simp)
  | checksum2 =>
    have h_occ : u.occupied = u.rxCount := by simp [Ublox.occupied, h_state]
    dsimp only
    split
    · exact h_drop
    · rw [h_occ]
      exact Fills.of_keep (Nat.zero_le _) (le_refl _) (by simp)

theorem tsipFeed_fills {t : Tsip} (h : t.Ok) (p : Pbuf) (tick : ℕ) (val : UInt8) :
    Fills (t.occupied tick) ((tsipFeed t p tick val).st.occupied tick) (tsipFeed t p tick val) := by
  -- the byte has just come, so nothing is stale after it
  have h_now : ∀ t : Tsip, t.rxLastTick = tick → t.occupied tick = t.rxCount := by
    intro t h_tick
    simp [Tsip.occupied, Tsip.fresh, ticksSince, h_tick, u64]
  have h_occ : t.occupied tick = (t.arrive tick val).rxCount := rfl
  have h_tick : (t.arrive tick val).rxLastTick = tick := rfl
  rw [h_occ]
  rcases tsipFeed_cases t p tick val with ⟨-, -, -, h_eq⟩ | ⟨h_val, h_zero, h_eq⟩ | ⟨-, -, h_eq⟩ <;>
    rw [h_eq]
  · rw [h_now _ h_tick]
    exact Fills.of_keep (le_refl _) (Nat.zero_le _) (by simp)
  · -- a byte outside a packet: without DLE nothing has been stored
    have h_idle : (t.arrive tick val).rxCount = 0 := by
      refine (h.fresh tick).idle ?_
      simpa only [Tsip.arrive, if_neg h_val] using h_zero
    rw [h_now _ h_tick, h_idle]
    exact Fills.of_refuse rfl fun _ => ⟨rfl, rfl⟩
  · rcases tsipStore_cases (t.arrive tick val) p val with ⟨-, h_eq⟩ | ⟨h_room, h_or⟩
    · -- the buffer is full
      rw [h_eq, h_now (t.arrive tick val).reset h_tick]
      exact Fills.of_refuse rfl fun _ => ⟨rfl, rfl⟩
    · have h_count : ((t.arrive tick val).rxCount + 1) % 256 ≤ (t.arrive tick val).rxCount + 1 :=
        Nat.mod_le _ _
      rcases h_or with ⟨-, -, h_eq⟩ | ⟨-, h_eq⟩ <;> rw [h_eq]
      · obtain ⟨h_rc, h_filled, -, -, h_st, -⟩ := tsipComplete_cases
          { t.arrive tick val with rxCount := ((t.arrive tick val).rxCount + 1) % 256 }
          (p.store [((t.arrive tick val).rxCount, val)])
        refine Fills.of_append val rfl ?_ (by rw [h_filled]; exact h_count)
          (by rw [h_rc]; decide)
        dsimp only
        rcases h_st with h_st | h_st <;> rw [h_st, h_now _ (by exact h_tick)]
        · exact h_count
        · exact Nat.zero_le _
      · refine Fills.of_append val rfl ?_ (Nat.zero_le _) (by simp)
        rw [h_now _ (by exact h_tick)]
        exact h_count

/-- A message of the one known command has 70 bytes after the command. -/
def Motorola.Ok (m : Motorola) : Prop :=
  m.mstate = .copying → m.mptr + m.mremaining = 70 ∧ 0 < m.mremaining

theorem motorolaFeed_ok {m : Motorola} (h : m.Ok) (p : Pbuf) (data : UInt8) :
    (motorolaFeed m p data).st.Ok := by
  unfold motorolaFeed
  cases h_state : m.mstate with
  | waiting => dsimp only; split <;> simp [Motorola.Ok, h_state]
  | at1 => dsimp only; split <;> simp [Motorola.Ok]
  | at2 => simp [Motorola.Ok]
  | cmd1 =>
    dsimp only
    split
    · split <;> simp [Motorola.Ok]
    · simp [Motorola.Ok]
  | copying =>
    -- one byte more is stored and one less remains
    obtain ⟨h_sum, h_pos⟩ := h h_state
    dsimp only
    split
    · next h_rest => intro _; dsimp only at h_rest ⊢; omega
    · split <;> simp [Motorola.Ok]

theorem motorolaFeed_fills {m : Motorola} (h : m.Ok) (p : Pbuf) (data : UInt8) :
    Fills m.occupied (motorolaFeed m p data).st.occupied (motorolaFeed m p data) := by
  unfold motorolaFeed
  cases h_state : m.mstate with
  | waiting =>
    dsimp only
    split
    · exact Fills.of_keep (Nat.zero_le _) (Nat.zero_le _) (by simp)
    · have h_occ : m.occupied = 0 := by simp [Motorola.occupied, h_state]
      rw [h_occ]
      exact Fills.of_refuse rfl fun _ => ⟨rfl, rfl⟩
  | at1 =>
    dsimp only
    split <;> exact Fills.of_keep (Nat.zero_le _) (Nat.zero_le _) (by simp)
  | at2 => exact Fills.of_keep (Nat.zero_le _) (Nat.zero_le _) (by simp)
  | cmd1 =>
    dsimp only
    split
    · split
      · exact Fills.of_refuse rfl fun _ => ⟨rfl, rfl⟩
      · exact Fills.of_keep (Nat.zero_le _) (Nat.zero_le _) (by simp)
    · exact Fills.of_refuse rfl fun _ => ⟨rfl, rfl⟩
  | copying =>
    obtain ⟨h_sum, h_pos⟩ := h h_state
    have h_occ : m.occupied = m.mptr := by simp [Motorola.occupied, h_state]
    dsimp only
    rw [h_occ]
    split
    · refine Fills.of_append data rfl ?_ (Nat.zero_le _) (by simp)
      simp [Motorola.occupied]
    · next h_last =>
      split
      · -- the last byte of a message with a wrong checksum has been stored
        refine Fills.of_refuse rfl fun h_zero => ?_
        omega
      · exact Fills.of_append data rfl (Nat.zero_le _) (le_refl _) (by simp)

theorem nmeaFeed_fills (n : Nmea) (p : Pbuf) (tick : ℕ) (val : UInt8) :
    Fills n.occupied (nmeaFeed n p tick val).st.occupied (nmeaFeed n p tick val) := by
  have h_sentence : ∀ n' : Nmea, n'.rxCount = n.occupied → Fills n.occupied
      (nmeaSentence n' p tick).st.occupied (nmeaSentence n' p tick) := by
    intro n' h_count
    obtain ⟨h_rc, -, h_filled, -, h_st⟩ := nmeaSentence_frame n' p tick
    refine Fills.of_keep ?_ (by rw [h_filled, h_count]) (by rw [h_rc]; decide)
    -- a sentence without checksum leaves its state, and with it its positions
    unfold Nmea.occupied at *
    split
    · exact Nat.zero_le _
    · rw [h_st, h_count]
  unfold nmeaFeed
  split
  · -- a new sentence gives the positions up
    refine Fills.of_keep ?_ (Nat.zero_le _) (by simp)
    simp [Nmea.occupied]
  · cases h_state : n.rxState with
    | waiting =>
      have h_occ : n.occupied = 0 := by simp [Nmea.occupied, h_state]
      dsimp only
      rw [h_occ]
      exact Fills.of_refuse rfl fun _ => ⟨rfl, rfl⟩
    | copying =>
      have h_occ : n.occupied = n.rxCount := by simp [Nmea.occupied, h_state]
      dsimp only
      split
      · refine Fills.of_keep ?_ (Nat.zero_le _) (by simp)
        simp [Nmea.occupied, h_state]
      · split
        · exact h_sentence n h_occ.symm
        · split
          · exact Fills.of_refuse rfl fun _ => ⟨rfl, rfl⟩
          · rw [h_occ]
            refine Fills.of_append val rfl ?_ (Nat.zero_le _) (by simp)
            simp only [Nmea.occupied]
            split <;> omega
    | checksum1 =>
      refine Fills.of_keep ?_ (Nat.zero_le _) (by simp)
      simp [Nmea.occupied, h_state]
    | checksum2 =>
      dsimp only
      split
      · exact Fills.of_refuse rfl fun _ => ⟨rfl, rfl⟩
      · exact h_sentence _ (by simp [Nmea.occupied, h_state])

/-! ### Whether a byte is taken

The state of a parser and the byte decide; the buffer has no part in it. -/

/-- The UBX parser takes the byte. -/
def Ublox.takes (u : Ublox) (val : UInt8) : Bool :=
  match u.ustate with
  | .waiting => val = 0xB5
  | .sync => val = 0x62
  | .header => true
  | .copying => u.rxCount < pbufSize
  | .checksum1 => u.rxCk1 = val
  | .checksum2 => u.rxCk2 = val

/-- The TSIP parser takes the byte: as the second of a doubled DLE, or into a packet
with room for it. -/
def Tsip.takes (t : Tsip) (tick : ℕ) (val : UInt8) : Bool :=
  let t := t.arrive tick val
  (val = 0x10 ∧ 2 < t.rxDleCount ∧ t.rxDleCount % 2 = 1) ∨
    ((val = 0x10 ∨ t.rxDleCount ≠ 0) ∧ t.rxCount < pbufSize)

/-- The Motorola parser takes the byte. -/
def Motorola.takes (m : Motorola) (data : UInt8) : Bool :=
  match m.mstate with
  | .waiting => data = 0x40
  | .at1 | .at2 => true
  | .cmd1 => (m.mcmd * 256 + data.toNat) % 65536 = mcmdEa
  | .copying => (m.mremaining + 255) % 256 ≠ 0 ∨ m.mcsum ^^^ data = 0

/-- The NMEA parser takes the byte: it starts a sentence at any time. -/
def Nmea.takes (n : Nmea) (val : UInt8) : Bool :=
  if val = 0x24 then true
  else
    match n.rxState with
    | .waiting => false
    | .copying => val = 0x2A ∨ val = 0x0D ∨ val = 0x0A ∨ n.rxCount < pbufSize - 1
    | .checksum1 => true
    | .checksum2 => n.rxCksum ^^^ parseHex val = 0

theorem ubloxFeed_takes (timescaleGps : Bool) (u : Ublox) (p : Pbuf) (val : UInt8) :
    (ubloxFeed timescaleGps u p val).rc ≠ .feedUnknown ↔ u.takes val := by
  unfold ubloxFeed Ublox.takes
  cases u.ustate with
  | header => dsimp only; split <;> simp
  | copying =>
    dsimp only
    split
    · next h_full => simp [Ublox.drop, not_lt.mpr h_full]
    · next h_room => simp [not_le.mp h_room]
  | waiting | sync | checksum1 | checksum2 =>
    dsimp only
    split <;> simp_all [Ublox.drop]

theorem tsipFeed_takes (t : Tsip) (p : Pbuf) (tick : ℕ) (val : UInt8) :
    (tsipFeed t p tick val).rc ≠ .feedUnknown ↔ t.takes tick val := by
  unfold Tsip.takes
  dsimp only
  rw [decide_eq_true_eq]
  rcases tsipFeed_cases t p tick val with ⟨h_val, h_gt, h_odd, h_eq⟩ | ⟨h_val, h_zero, h_eq⟩ |
    ⟨h_single, h_some, h_eq⟩ <;> rw [h_eq]
  · exact iff_of_true (by simp) (Or.inl ⟨h_val, h_gt, h_odd⟩)
  · exact iff_of_false (by simp) (by simp [h_val, h_zero])
  · rcases tsipStore_cases (t.arrive tick val) p val with ⟨h_full, h_eq⟩ | ⟨h_room, h_or⟩
    · rw [h_eq]
      exact iff_of_false (by simp) (not_or.mpr ⟨h_single, fun h => absurd h.2 (not_lt.mpr h_full)⟩)
    · refine iff_of_true ?_ (Or.inr ⟨h_some, h_room⟩)
      rcases h_or with ⟨-, -, h_eq⟩ | ⟨-, h_eq⟩ <;> rw [h_eq]
      · simp [(tsipComplete_cases _ _).1]
      · simp

theorem motorolaFeed_takes (m : Motorola) (p : Pbuf) (data : UInt8) :
    (motorolaFeed m p data).rc ≠ .feedUnknown ↔ m.takes data := by
  unfold motorolaFeed Motorola.takes
  cases m.mstate with
  | waiting => dsimp only; split <;> simp_all
  | at1 => simp
  | at2 => simp
  | cmd1 =>
    -- of the commands only @@Ea is taken
    dsimp only
    split
    · next h_ea => simp [h_ea, pbufSize]
    · next h_other => simp [h_other]
  | copying =>
    -- a byte of the message, or the last one with a right sum
    dsimp only
    split
    · next h_rest => simp [h_rest]
    · next h_last =>
      split <;> simp_all

theorem nmeaFeed_takes (n : Nmea) (p : Pbuf) (tick : ℕ) (val : UInt8) :
    (nmeaFeed n p tick val).rc ≠ .feedUnknown ↔ n.takes val := by
  -- what a sentence gives is never `FEED_UNKNOWN`
  have h_sentence : ∀ n : Nmea, (nmeaSentence n p tick).rc ≠ .feedUnknown := fun n => by
    rw [(nmeaSentence_frame n p tick).1]; decide
  unfold nmeaFeed Nmea.takes
  split
  · simp
  · cases n.rxState with
    | waiting => simp
    | copying =>
      -- `*` ends the body; CR and LF end the sentence; any other byte needs room
      dsimp only
      rw [decide_eq_true_eq]
      split
      · next h_star => exact iff_of_true (by simp) (Or.inl h_star)
      · next h_star =>
        split
        · next h_end =>
          exact iff_of_true (h_sentence n) (Or.inr (h_end.imp_right Or.inl))
        · next h_end =>
          obtain ⟨h_cr, h_lf⟩ := not_or.mp h_end
          split
          · next h_full => exact iff_of_false (by simp) (by simp [h_star, h_cr, h_lf, h_full])
          · next h_room =>
            exact iff_of_true (by simp) (Or.inr (Or.inr (Or.inr (not_le.mp h_room))))
    | checksum1 => simp
    | checksum2 =>
      dsimp only
      rw [decide_eq_true_eq]
      split
      · next h_sum => exact iff_of_false (by simp) h_sum
      · next h_sum => exact iff_of_true (h_sentence _) (not_not.mp h_sum)

/-! ### The buffer in a state of the dispatcher -/

/-- The positions that a parser occupies at a tick. -/
def State.occupied (s : State) (tick : ℕ) : Proto → ℕ
  | .ublox => s.ublox.occupied
  | .tsip => s.tsip.occupied tick
  | .oncore => s.motorola.occupied
  | .nmea => s.nmea.occupied

/-- A parser takes the byte if it is offered to it. -/
def State.takes (s : State) (x : Input) : Proto → Bool
  | .ublox => s.ublox.takes x.data
  | .tsip => s.tsip.takes x.tick.toNat x.data
  | .oncore => s.motorola.takes x.data
  | .nmea => s.nmea.takes x.data

/-- The positions of a parser's packet hold what the parser stored. -/
def State.Holds (s : State) (tick : ℕ) (p : Proto) : Prop :=
  ∀ i < s.occupied tick p, s.pbuf i = s.stored p i

/-- The counters of the parsers are consistent. -/
structure State.PartsOk (s : State) : Prop where
  tsip : s.tsip.Ok
  motorola : s.motorola.Ok

/-- **The invariant**, at the tick of the last byte. -/
structure BufferInv (s : State) (tick : ℕ) : Prop where
  parts : s.PartsOk
  holds : ∀ p, s.Holds tick p
  /-- At most one parser is part-way through a packet. -/
  alone : ∃ p, ∀ q, q ≠ p → s.occupied tick q = 0
  /-- If the lock is held, it is its holder. -/
  lock : ∀ p, s.currentProto = some p → ∀ q, q ≠ p → s.occupied tick q = 0

theorem BufferInv.powerUp : BufferInv State.powerUp 0 where
  parts := ⟨.powerUp, fun h => absurd h (by decide)⟩
  holds := fun p i hi => rfl
  alone := ⟨.ublox, fun q _ => by cases q <;> rfl⟩
  lock := fun p h => absurd h (by simp [State.powerUp])

/-! ### One call -/

/-- The effect on the buffer of a call of the parser `p`. -/
structure Called (s : State) (tick : ℕ) (p : Proto) (s' : State) (d : Delivery) : Prop where
  parts : s'.PartsOk
  others : ∀ q, q ≠ p → s'.occupied tick q = s.occupied tick q
  holds : s.Holds tick p → s'.Holds tick p
  complete : s.Holds tick p → d.rc = .feedComplete → ∀ i < d.filled, d.image i = d.own i
  refused : d.rc = .feedUnknown → s'.occupied tick p = 0
  quiet : d.rc = .feedUnknown → s.occupied tick p = 0 →
    s'.pbuf = s.pbuf ∧ s'.stored = s.stored

/-- What a parser does with its byte is what the buffer shows. -/
theorem Called.of_fills {σ : Type} {s s' : State} {x : Input} {tick : ℕ} {p : Proto} {o : Out σ}
    (h_fills : Fills (s.occupied tick p) (s'.occupied tick p) o)
    (h_pbuf : s'.pbuf = (s.wrote p o).pbuf) (h_stored : s'.stored = (s.wrote p o).stored)
    (h_parts : s'.PartsOk) (h_others : ∀ q, q ≠ p → s'.occupied tick q = s.occupied tick q) :
    Called s tick p s' (s.delivery x p o) := by
  -- a position holds the parser's byte if it did, or if the parser has just stored it
  have h_at : s.Holds tick p → ∀ i, (i < s.occupied tick p ∨ i ∈ o.writes.map Prod.fst) →
      s.pbuf.store o.writes i = (s.stored p).store o.writes i := by
    intro h_holds i h_or
    rcases h_or with h_lt | h_mem
    · exact Pbuf.store_congr (h_holds i h_lt) _
    · exact Pbuf.store_congr_of_mem h_mem
  refine ⟨h_parts, h_others, fun h_holds i hi => ?_, fun h_holds h_rc i hi => ?_,
    h_fills.refused, fun h_rc h_zero => ?_⟩
  · rw [h_pbuf, h_stored]
    simp only [State.wrote, Function.update_self]
    exact Pbuf.cut_congr (h_at h_holds i (h_fills.grows i hi)) _
  · exact h_at h_holds i (h_fills.filled h_rc i hi)
  · obtain ⟨h_writes, h_cuts⟩ := h_fills.quiet h_rc h_zero
    rw [h_pbuf, h_stored]
    simp [State.wrote, h_writes, h_cuts, Pbuf.cut]

namespace State

variable {timescaleGps : Bool} {s : State} {x : Input}

theorem deliver_called (timescaleGps : Bool) (h : s.PartsOk) (x : Input) (p : Proto) :
    Called s x.tick.toNat p (s.deliver timescaleGps x p).1 (s.deliver timescaleGps x p).2 := by
  obtain ⟨h_tsip, h_motorola⟩ := h
  -- each parser fills its own positions, and the other three keep theirs
  cases p with
  | ublox =>
    refine Called.of_fills (ubloxFeed_fills _ _ _ _) rfl rfl ⟨h_tsip, h_motorola⟩ ?_
    intro q hq
    cases q <;> first | rfl | exact absurd rfl hq
  | tsip =>
    refine Called.of_fills (tsipFeed_fills h_tsip _ _ _) rfl rfl
      ⟨tsipFeed_ok h_tsip _ _ _, h_motorola⟩ ?_
    intro q hq
    cases q <;> first | rfl | exact absurd rfl hq
  | oncore =>
    refine Called.of_fills (motorolaFeed_fills h_motorola _ _) rfl rfl
      ⟨h_tsip, motorolaFeed_ok h_motorola _ _⟩ ?_
    intro q hq
    cases q <;> first | rfl | exact absurd rfl hq
  | nmea =>
    refine Called.of_fills (nmeaFeed_fills _ _ _ _) rfl rfl ⟨h_tsip, h_motorola⟩ ?_
    intro q hq
    cases q <;> first | rfl | exact absurd rfl hq

theorem deliver_takes (timescaleGps : Bool) (s : State) (x : Input) (p : Proto) :
    (s.deliver timescaleGps x p).2.rc ≠ .feedUnknown ↔ s.takes x p := by
  cases p with
  | ublox => exact ubloxFeed_takes _ _ _ _
  | tsip => exact tsipFeed_takes _ _ _ _
  | oncore => exact motorolaFeed_takes _ _ _
  | nmea => exact nmeaFeed_takes _ _ _ _

/-- A call of one parser does not change what another one takes. -/
theorem takes_deliver {p q : Proto} (h : q ≠ p) :
    (s.deliver timescaleGps x p).1.takes x q = s.takes x q := by
  cases p <;> cases q <;> first | rfl | exact absurd rfl h

/-! ### One byte -/

/-- One parser is part-way at most, and no other one holds the lock. -/
theorem bufferInv_of_alone {tick : ℕ} {p : Proto} (h_parts : s.PartsOk) (h_holds : s.Holds tick p)
    (h_alone : ∀ q, q ≠ p → s.occupied tick q = 0)
    (h_lock : s.currentProto = none ∨ s.currentProto = some p) : BufferInv s tick := by
  refine ⟨h_parts, fun q => ?_, ⟨p, h_alone⟩, fun r h_holder q hq => ?_⟩
  · by_cases hq : q = p
    · exact hq ▸ h_holds
    · exact fun i hi => absurd hi (by simp [h_alone q hq])
  · rcases h_lock with h_none | h_some
    · exact absurd (h_none.symm.trans h_holder) (by simp)
    · obtain rfl : p = r := Option.some.inj (h_some.symm.trans h_holder)
      exact h_alone q hq

/-- A call with no other parser part-way, and what the dispatcher makes of it. -/
theorem deliver_alone {p : Proto} (h_parts : s.PartsOk) (h_holds : s.Holds x.tick.toNat p)
    (h_alone : ∀ q, q ≠ p → s.occupied x.tick.toNat q = 0)
    (h_lock : s.currentProto = none ∨ s.currentProto = some p) :
    BufferInv ((s.deliver timescaleGps x p).1.concluded x p (s.deliver timescaleGps x p).2.rc)
      x.tick.toNat := by
  have h_called := deliver_called timescaleGps h_parts x p
  have h_kept := deliver_currentProto timescaleGps s x p
  obtain ⟨lock, last, packet, h_eq, h_or⟩ := concluded_cases (s.deliver timescaleGps x p).1 x p
    (s.deliver timescaleGps x p).2.rc
  rw [h_eq]
  refine bufferInv_of_alone (p := p) ⟨h_called.parts.tsip, h_called.parts.motorola⟩
    (h_called.holds h_holds) (fun q hq => (h_called.others q hq).trans (h_alone q hq)) ?_
  rcases h_or with rfl | rfl | rfl
  · exact Or.inl rfl
  · exact Or.inr rfl
  · exact h_kept ▸ h_lock

/-- A parser that refuses a byte drops its packet, if it had one. If it had none, the
buffer is as before. -/
theorem deliver_refused {p : Proto} (h : BufferInv s x.tick.toNat) (h_free : s.currentProto = none)
    (h_rc : (s.deliver timescaleGps x p).2.rc = .feedUnknown) :
    BufferInv (s.deliver timescaleGps x p).1 x.tick.toNat := by
  have h_called := deliver_called timescaleGps h.parts x p
  obtain ⟨r, h_alone⟩ := h.alone
  -- the parser that was part-way, if any, is still the only one
  have h_alone' : ∀ q, q ≠ r → (s.deliver timescaleGps x p).1.occupied x.tick.toNat q = 0 := by
    intro q hq
    by_cases hp : q = p
    · exact hp ▸ h_called.refused h_rc
    · exact (h_called.others q hp).trans (h_alone q hq)
  refine bufferInv_of_alone (p := r) h_called.parts ?_ h_alone' (Or.inl (by simpa using h_free))
  by_cases hr : r = p
  · -- it has dropped its packet
    exact fun i hi => absurd hi (by simp [hr, h_called.refused h_rc])
  · obtain ⟨h_pbuf, h_stored⟩ := h_called.quiet h_rc (h_alone p (Ne.symm hr))
    intro i hi
    rw [h_pbuf, h_stored]
    exact h.holds r i (by rwa [h_called.others r hr] at hi)

/-- The search for a parser, over the rest of the table: the parsers before have
refused the byte, and no parser takes it while one after it is part-way. -/
theorem offer_bufferInv {ps : List Proto} (h : BufferInv s x.tick.toNat)
    (h_free : s.currentProto = none) (h_nodup : ps.Nodup)
    (h_done : ∀ q, q ∉ ps → s.occupied x.tick.toNat q = 0)
    (h_guard : ps.Pairwise fun p q => s.takes x p → s.occupied x.tick.toNat q = 0) :
    BufferInv (s.offer timescaleGps x ps).1 x.tick.toNat ∧
      ∀ d ∈ (s.offer timescaleGps x ps).2, d.rc = .feedComplete →
        ∀ i < d.filled, d.image i = d.own i := by
  induction ps generalizing s with
  | nil => exact ⟨h, fun d hd => absurd hd (by simp [offer])⟩
  | cons p ps ih =>
    obtain ⟨h_new, h_nodup⟩ := List.nodup_cons.mp h_nodup
    obtain ⟨h_first, h_guard⟩ := List.pairwise_cons.mp h_guard
    have h_called := deliver_called timescaleGps h.parts x p
    rw [offer, if_neg (by simp [h_free])]
    dsimp only
    split
    · next h_rc =>
      have h_inv := deliver_refused h h_free h_rc
      have h_rest : ∀ q ∈ ps, q ≠ p := fun q hq => ne_of_mem_of_not_mem hq h_new
      have h_done' : ∀ q, q ∉ ps →
          (s.deliver timescaleGps x p).1.occupied x.tick.toNat q = 0 := by
        intro q hq
        by_cases hp : q = p
        · exact hp ▸ h_called.refused h_rc
        · exact (h_called.others q hp).trans (h_done q (by simp [hp, hq]))
      have h_guard' : ps.Pairwise fun q r =>
          (s.deliver timescaleGps x p).1.takes x q →
            (s.deliver timescaleGps x p).1.occupied x.tick.toNat r = 0 := by
        refine h_guard.imp_of_mem fun {q r} hq hr h_none h_takes => ?_
        rw [h_called.others r (h_rest r hr)]
        rw [takes_deliver (h_rest q hq)] at h_takes
        exact h_none h_takes
      obtain ⟨h_end, h_all⟩ := ih h_inv (by simpa using h_free) h_nodup h_done' h_guard'
      exact ⟨h_end, List.forall_mem_cons.mpr
        ⟨fun h_rc' => absurd (h_rc.symm.trans h_rc') (by decide), h_all⟩⟩
    · next h_rc =>
      -- taken: the parsers before have refused it, and those after have no packet
      refine ⟨deliver_alone h.parts (h.holds p) (fun q hq => ?_) (Or.inl h_free), fun d hd => ?_⟩
      · by_cases h_mem : q ∈ ps
        · exact h_first q h_mem ((deliver_takes timescaleGps s x p).mp h_rc)
        · exact h_done q (by simp [hq, h_mem])
      · obtain rfl := List.mem_singleton.mp hd
        exact h_called.complete (h.holds p)

/-- **The guard** of one byte. A TSIP packet that was stale at the last byte is
not fresh again. If the byte finds the lock free, a parser takes it only if no
parser after it in the table is part-way through a packet. -/
structure Undisturbed (s : State) (x : Input) : Prop where
  stale : s.tsip.occupied s.timeLastByte = 0 → s.tsip.occupied x.tick.toNat = 0
  search : (s.timeouts x.tick.toNat).currentProto = none →
    parsers.Pairwise fun p q => s.takes x p → s.occupied x.tick.toNat q = 0

/-- The positions occupied at a byte were occupied at the last one. -/
theorem Undisturbed.occupied_le (h : Undisturbed s x) (p : Proto) :
    s.occupied x.tick.toNat p ≤ s.occupied s.timeLastByte p := by
  cases p with
  | tsip =>
    have h_stale := h.stale
    have h_or : ∀ tick, s.tsip.occupied tick = 0 ∨ s.tsip.occupied tick = s.tsip.rxCount := by
      intro tick
      unfold Tsip.occupied Tsip.fresh
      split
      · exact Or.inl rfl
      · exact Or.inr rfl
    have h_now := h_or x.tick.toNat
    have h_last := h_or s.timeLastByte
    change s.tsip.occupied x.tick.toNat ≤ s.tsip.occupied s.timeLastByte
    omega
  | _ => exact le_refl _

/-- **One byte.** -/
theorem byteReceived_bufferInv (h : BufferInv s s.timeLastByte)
    (h_guard : Undisturbed s x) :
    BufferInv (s.byteReceived timescaleGps x).1 x.tick.toNat ∧
      ∀ d ∈ (s.byteReceived timescaleGps x).2, d.rc = .feedComplete →
        ∀ i < d.filled, d.image i = d.own i := by
  have h_le := h_guard.occupied_le
  -- the timeouts only ever clear the lock, and have no part in what the parsers do
  have h_lock : ∀ p, (s.timeouts x.tick.toNat).currentProto = some p → s.currentProto = some p := by
    intro p hp
    rw [timeouts_eq] at hp
    dsimp only at hp
    split at hp
    · exact absurd hp (by simp)
    · exact hp
  have h_search := h_guard.search
  have h_occ : (s.timeouts x.tick.toNat).occupied x.tick.toNat = s.occupied x.tick.toNat := by
    rw [timeouts_eq]; rfl
  have h_takes : (s.timeouts x.tick.toNat).takes x = s.takes x := by
    rw [timeouts_eq]
    funext p
    cases p <;> rfl
  have h_inv : BufferInv (s.timeouts x.tick.toNat) x.tick.toNat := by
    refine ⟨?_, fun p i hi => ?_, ?_, fun p hp q hq => ?_⟩
    · rw [timeouts_eq]; exact ⟨h.parts.tsip, h.parts.motorola⟩
    · rw [h_occ] at hi
      rw [timeouts_eq]
      exact h.holds p i (lt_of_lt_of_le hi (h_le p))
    · obtain ⟨p, h_alone⟩ := h.alone
      exact ⟨p, fun q hq => by
        rw [h_occ]; exact Nat.le_zero.mp (h_alone q hq ▸ h_le q)⟩
    · rw [h_occ]
      exact Nat.le_zero.mp (h.lock p (h_lock p hp) q hq ▸ h_le q)
  unfold byteReceived
  cases h_free : (s.timeouts x.tick.toNat).currentProto with
  | none =>
    -- the search, from the head of the table
    refine offer_bufferInv h_inv h_free (by decide) (fun q hq => absurd (mem_parsers q) hq) ?_
    simpa only [h_occ, h_takes] using h_search h_free
  | some p =>
    -- the holder of the lock is the only one that can be part-way
    rw [offer_locked h_free (mem_parsers p) (by decide)]
    refine ⟨deliver_alone h_inv.parts (h_inv.holds p) (h_inv.lock p h_free) (Or.inr h_free),
      fun d hd => ?_⟩
    obtain rfl := List.mem_singleton.mp hd
    exact (deliver_called timescaleGps h_inv.parts x p).complete (h_inv.holds p)

end State

/-! ### Runs -/

/-- Every byte of a run meets the guard. -/
def UndisturbedRun (timescaleGps : Bool) : State → List Input → Prop
  | _, [] => True
  | s, x :: xs => s.Undisturbed x ∧
      UndisturbedRun timescaleGps (s.byteReceived timescaleGps x).1 xs

instance (s : State) (x : Input) : Decidable (s.Undisturbed x) :=
  decidable_of_iff
    ((s.tsip.occupied s.timeLastByte = 0 → s.tsip.occupied x.tick.toNat = 0) ∧
      ((s.timeouts x.tick.toNat).currentProto = none →
        parsers.Pairwise fun p q => s.takes x p → s.occupied x.tick.toNat q = 0))
    ⟨fun h => ⟨h.1, h.2⟩, fun h => ⟨h.stale, h.search⟩⟩

instance UndisturbedRun.decidable (timescaleGps : Bool) :
    (s : State) → (xs : List Input) → Decidable (UndisturbedRun timescaleGps s xs)
  | _, [] => inferInstanceAs (Decidable True)
  | s, x :: xs =>
    have := UndisturbedRun.decidable timescaleGps (s.byteReceived timescaleGps x).1 xs
    inferInstanceAs (Decidable (_ ∧ _))

theorem deliveries_own {timescaleGps : Bool} {s : State} {xs : List Input}
    (h : BufferInv s s.timeLastByte) (h_run : UndisturbedRun timescaleGps s xs) :
    ∀ d ∈ s.deliveries timescaleGps xs, d.rc = .feedComplete →
      ∀ i < d.filled, d.image i = d.own i := by
  induction xs generalizing s with
  | nil => exact fun d hd => absurd hd (by simp [State.deliveries])
  | cons x xs ih =>
    obtain ⟨h_first, h_rest⟩ := h_run
    obtain ⟨h_inv, h_all⟩ := State.byteReceived_bufferInv h h_first
    rw [← State.byteReceived_timeLastByte timescaleGps s x] at h_inv
    intro d hd
    rcases List.mem_append.mp hd with hd | hd
    · exact h_all d hd
    · exact ih h_inv h_rest d hd

/-- **One buffer for four parsers.** From power-up, over bytes and ticks of which
each meets the guard: whenever a packet is complete, the positions that it has
filled hold the bytes that its own parser stored. -/
theorem pbuf_exclusive (timescaleGps : Bool) (xs : List Input)
    (h_run : UndisturbedRun timescaleGps State.powerUp xs) :
    ∀ d ∈ State.powerUp.deliveries timescaleGps xs, d.rc = .feedComplete →
      ∀ i < d.filled, d.image i = d.own i :=
  deliveries_own .powerUp h_run

/-- A TSIP packet that breaks off, and a UBX packet without payload after a gap. -/
def ubloxAfterTsip : List Input :=
  [⟨1, 0x10⟩, ⟨1, 0x41⟩, ⟨11, 0xB5⟩, ⟨11, 0x62⟩, ⟨11, 0x01⟩, ⟨11, 0x02⟩, ⟨11, 0x00⟩, ⟨11, 0x00⟩,
    ⟨11, 0x03⟩, ⟨11, 0x0A⟩]

theorem pbuf_exclusive_ublox :
    UndisturbedRun false State.powerUp ubloxAfterTsip ∧
      ∀ d ∈ State.powerUp.deliveries false ubloxAfterTsip, d.rc = .feedComplete →
        ∀ i < d.filled, d.image i = d.own i :=
  have h_run : UndisturbedRun false State.powerUp ubloxAfterTsip := by decide +kernel
  ⟨h_run, pbuf_exclusive false ubloxAfterTsip h_run⟩

/-- A sentence that breaks off after `$A`, the same UBX packet after a gap, and a
carriage return. -/
def nmeaAroundUblox : List Input :=
  [⟨1, 0x24⟩, ⟨1, 0x41⟩, ⟨11, 0xB5⟩, ⟨11, 0x62⟩, ⟨11, 0x01⟩, ⟨11, 0x02⟩, ⟨11, 0x00⟩, ⟨11, 0x00⟩,
    ⟨11, 0x03⟩, ⟨11, 0x0A⟩, ⟨11, 0x0D⟩]

/-- The gap frees the lock, and the NMEA parser goes on with its sentence after the
UBX packet: the class of that packet is in the place of the `A`. -/
theorem pbuf_shared :
    ¬ ∀ xs, ∀ d ∈ State.powerUp.deliveries false xs, d.rc = .feedComplete →
      ∀ i < d.filled, d.image i = d.own i := by
  intro h_all
  have h_last : ∃ d ∈ State.powerUp.deliveries false nmeaAroundUblox, d.proto = .nmea ∧
      d.rc = .feedComplete ∧ d.filled = 1 ∧ d.image 0 = 0x01 ∧ d.own 0 = 0x41 := by
    decide +kernel
  obtain ⟨d, hd, -, h_rc, h_filled, h_image, h_own⟩ := h_last
  have h_same := h_all nmeaAroundUblox d hd h_rc 0 (by rw [h_filled]; decide)
  rw [h_image, h_own] at h_same
  exact absurd h_same (by decide)

end Gps
end Laureline
