import Laureline.Gps.NmeaAccesses

/-!
# The bounds of the packet buffer

Where the parsers store into `pbuf` and where they read it, over every run of `gps_byte_received`.

* `Delivery.program` is one call of a parser as a program on the buffer, `Delivery.InBounds` says
  that its accesses are in the buffer and that it does what the call does;
* `Delivery.Counts` is about the counter with which a byte is stored;
* `State.Bounded` is the invariant: one bound for each parser, none about the buffer;
* `pbuf_bounds` — every run.
-/

namespace Laureline
namespace Gps

open Access

/-! ### The counters -/

theorem ubloxFeed_room (timescaleGps : Bool) {u : Ublox} (h : u.Room) (p : Pbuf) (val : UInt8) :
    (ubloxFeed timescaleGps u p val).st.Room ∧
      ((ubloxFeed timescaleGps u p val).writes ≠ [] → u.rxCount < pbufSize) := by
  have h_same : ∀ state, state ≠ .header → Ublox.Room { u with ustate := state } :=
    fun state h_ne => ⟨fun h => absurd h h_ne, h.count⟩
  have h_drop : u.drop.st.Room ∧ (u.drop.writes ≠ [] → u.rxCount < pbufSize) :=
    ⟨h_same .waiting (by decide), fun h_some => absurd rfl h_some⟩
  -- a byte that is stored
  have h_take : ∀ len state, u.rxCount < pbufSize → (state = .header → u.rxCount + 1 < 4) →
      Ublox.Room { u.take val with ustate := state, rxPktlen := len } := by
    intro len state h_lt h_header
    simp only [pbufSize] at h_lt
    have h_count : (u.rxCount + 1) % 256 = u.rxCount + 1 := by omega
    refine ⟨fun h_state => ?_, ?_⟩
    · simp only [Ublox.take, h_count]
      exact h_header h_state
    · simp only [Ublox.take, h_count, pbufSize]
      omega
  unfold ubloxFeed
  cases h_state : u.ustate with
  | waiting =>
    dsimp only
    split
    · exact ⟨h_same .sync (by decide), by simp⟩
    · exact h_drop
  | sync =>
    dsimp only
    split
    · exact ⟨⟨fun _ => Nat.succ_pos 3, Nat.zero_le _⟩, by simp⟩
    · exact h_drop
  | header =>
    have h_four := h.header h_state
    have h_lt : u.rxCount < pbufSize := by simp only [pbufSize]; omega
    have h_count : (u.take val).rxCount = u.rxCount + 1 := by simp only [Ublox.take]; omega
    dsimp only
    split
    · refine ⟨h_take _ _ h_lt fun h_header => ?_, fun _ => h_lt⟩
      split at h_header <;> cases h_header
    · next h_few =>
      refine ⟨?_, fun _ => h_lt⟩
      have h_stay := h_take u.rxPktlen .header h_lt fun _ => by omega
      rwa [← h_state] at h_stay
  | copying =>
    dsimp only
    split
    · exact h_drop
    · next h_room =>
      have h_lt := not_le.mp h_room
      refine ⟨h_take _ _ h_lt fun h_header => ?_, fun _ => h_lt⟩
      split at h_header <;> cases h_header
  | checksum1 | checksum2 =>
    dsimp only
    split
    · exact h_drop
    · exact ⟨h_same _ (by decide), by simp⟩

theorem motorolaFeed_counts {m : Motorola} (h : m.Ok) (p : Pbuf) (data : UInt8) :
    (motorolaFeed m p data).writes ≠ [] → 0 < m.mremaining := by
  intro h_some
  unfold motorolaFeed at h_some
  cases h_state : m.mstate with
  -- only here a byte is stored
  | copying => exact (h h_state).2
  | waiting =>
    simp only [h_state] at h_some
    split at h_some <;> exact absurd rfl h_some
  | at1 | at2 =>
    simp only [h_state] at h_some
    exact absurd rfl h_some
  | cmd1 =>
    simp only [h_state] at h_some
    split at h_some
    · split at h_some <;> exact absurd rfl h_some
    · exact absurd rfl h_some

/-- The terminator needs a place too. -/
theorem nmeaFeed_room {n : Nmea} (h : n.rxCount < pbufSize) (p : Pbuf) (tick : ℕ) (val : UInt8) :
    (nmeaFeed n p tick val).st.rxCount < pbufSize := by
  -- the end of a sentence does not move the counter
  have h_sentence : ∀ n' : Nmea, n'.rxCount = n.rxCount →
      (nmeaSentence n' p tick).st.rxCount < pbufSize := by
    intro n' h_count
    rw [(nmeaSentence_frame n' p tick).2.2.2.2, h_count]
    exact h
  unfold nmeaFeed
  split
  · exact Nat.zero_lt_succ _
  · cases n.rxState with
    | waiting => exact h
    | checksum1 => exact h
    | checksum2 =>
      dsimp only
      split
      · exact h
      · exact h_sentence _ rfl
    | copying =>
      dsimp only
      split
      · exact h
      · split
        · exact h_sentence n rfl
        · split
          · exact h
          · next h_room =>
            -- a character is stored only if another one would still have a place
            simp only [pbufSize, not_le] at h_room h ⊢
            omega

/-- A store in the buffer leaves the counter below 256. -/
theorem succ_lt_of_room {k : ℕ} (h : k < pbufSize) : k + 1 < 256 := by
  simp only [pbufSize] at h
  omega

/-! ### The calls of the parsers -/

/-- The static variables of the parsers. -/
def State.parsersOf (s : State) : Ublox × Tsip × Motorola × Nmea :=
  (s.ublox, s.tsip, s.motorola, s.nmea)

/-- One call as a program on the buffer. -/
def Delivery.program (timescaleGps : Bool) (d : Delivery) :
    Access UInt8 (Result (Ublox × Tsip × Motorola × Nmea)) :=
  match d.proto with
  | .ublox => do
    let r ← d.before.ublox.feed timescaleGps d.input.data
    return ⟨(r.st, d.before.tsip, d.before.motorola, d.before.nmea), r.rc, r.calls⟩
  | .tsip => do
    let r ← d.before.tsip.feed d.input.tick.toNat d.input.data
    return ⟨(d.before.ublox, r.st, d.before.motorola, d.before.nmea), r.rc, r.calls⟩
  | .oncore => do
    let r ← d.before.motorola.feed d.input.data
    return ⟨(d.before.ublox, d.before.tsip, r.st, d.before.nmea), r.rc, r.calls⟩
  | .nmea => do
    let r ← d.before.nmea.feed d.input.tick.toNat d.input.data
    return ⟨(d.before.ublox, d.before.tsip, d.before.motorola, r.st), r.rc, r.calls⟩

/-- Every position that is read or stored is in the buffer, and the program does what the call
does: it ends with the same variables, return code and calls, and with the same buffer. -/
def Delivery.InBounds (timescaleGps : Bool) (d : Delivery) : Prop :=
  (∀ i ∈ (d.program timescaleGps).touched d.before.pbuf, i < pbufSize) ∧
    (d.program timescaleGps).run d.before.pbuf =
      some (⟨(d.before.deliver timescaleGps d.input d.proto).1.parsersOf, d.rc, d.calls⟩,
        (d.before.deliver timescaleGps d.input d.proto).1.pbuf)

/-- The counter with which a byte is stored stays below 256 when it is incremented. The Motorola
parser counts down, and does not go below 0. -/
def Delivery.Counts (timescaleGps : Bool) (d : Delivery) : Prop :=
  match d.proto with
  | .ublox => (ubloxFeed timescaleGps d.before.ublox d.before.pbuf d.input.data).writes ≠ [] →
      d.before.ublox.rxCount + 1 < 256
  | .tsip => (tsipFeed d.before.tsip d.before.pbuf d.input.tick.toNat d.input.data).writes ≠ [] →
      (d.before.tsip.fresh d.input.tick.toNat).rxCount + 1 < 256
  | .oncore => (motorolaFeed d.before.motorola d.before.pbuf d.input.data).writes ≠ [] →
      0 < d.before.motorola.mremaining
  | .nmea => (nmeaFeed d.before.nmea d.before.pbuf d.input.tick.toNat d.input.data).writes ≠ [] →
      d.before.nmea.rxCount + 1 < 256

/-- What each parser keeps; the buffer has no part in it. -/
structure State.Bounded (s : State) : Prop where
  ublox : s.ublox.Room
  tsip : s.tsip.Ok
  motorola : s.motorola.Ok
  nmea : s.nmea.rxCount < pbufSize

namespace State

variable (timescaleGps : Bool) {s : State}

theorem Bounded.powerUp : Bounded .powerUp where
  ublox := ⟨fun h => absurd h (by decide), by decide⟩
  tsip := .powerUp
  motorola := fun h => absurd h (by decide)
  nmea := by decide

/-- The program of a parser is the call. -/
theorem inBounds_of_runs {σ : Type} {c : Access UInt8 (Result σ)} {p : Pbuf} {o : Out σ}
    (h : Runs c p o) {τ : Type} (f : σ → τ) :
    (∀ i ∈ (c >>= fun r => pure (Result.mk (f r.st) r.rc r.calls)).touched p, i < pbufSize) ∧
      (c >>= fun r => pure (Result.mk (f r.st) r.rc r.calls)).run p =
        some (⟨f o.st, o.rc, o.calls⟩, (p.store o.writes).cut o.cuts) := by
  have h_all : (c >>= fun r => pure (Result.mk (f r.st) r.rc r.calls)).Within pbufSize p
      fun r p' => r = ⟨f o.st, o.rc, o.calls⟩ ∧ p' = (p.store o.writes).cut o.cuts := by
    refine within_bind.mpr <| h.mono fun r p' h_eq => within_pure.mpr ⟨?_, h_eq.2⟩
    rw [h_eq.1]
    rfl
  obtain ⟨h_touched, r, p', h_run, rfl, rfl⟩ := h_all
  exact ⟨h_touched, h_run⟩

/-- **One call.** -/
theorem deliver_bounded (h : s.Bounded) (x : Input) (p : Proto) :
    (s.deliver timescaleGps x p).1.Bounded ∧
      (s.deliver timescaleGps x p).2.InBounds timescaleGps ∧
      (s.deliver timescaleGps x p).2.Counts timescaleGps := by
  obtain ⟨h_ublox, h_tsip, h_motorola, h_nmea⟩ := id h
  -- the parser that is called keeps its counter in the buffer, the others keep theirs
  cases p with
  | ublox =>
    obtain ⟨h_room, h_stores⟩ := ubloxFeed_room timescaleGps h_ublox s.pbuf x.data
    exact ⟨⟨h_room, h_tsip, h_motorola, h_nmea⟩,
      inBounds_of_runs (Ublox.runs_feed timescaleGps h_ublox s.pbuf x.data)
        fun u => (u, s.tsip, s.motorola, s.nmea),
      fun h_some => succ_lt_of_room (h_stores h_some)⟩
  | tsip =>
    exact ⟨⟨h_ublox, tsipFeed_ok h_tsip _ _ _, h_motorola, h_nmea⟩,
      inBounds_of_runs (Tsip.runs_feed s.tsip s.pbuf x.tick.toNat x.data)
        fun t => (s.ublox, t, s.motorola, s.nmea),
      fun h_some => succ_lt_of_room
        ((tsipFeed_stores s.tsip s.pbuf x.tick.toNat x.data).2.resolve_left h_some).1⟩
  | oncore =>
    exact ⟨⟨h_ublox, h_tsip, motorolaFeed_ok h_motorola _ _, h_nmea⟩,
      inBounds_of_runs (Motorola.runs_feed h_motorola s.pbuf x.data)
        fun m => (s.ublox, s.tsip, m, s.nmea),
      motorolaFeed_counts h_motorola s.pbuf x.data⟩
  | nmea =>
    exact ⟨⟨h_ublox, h_tsip, h_motorola, nmeaFeed_room h_nmea s.pbuf x.tick.toNat x.data⟩,
      inBounds_of_runs (Nmea.runs_feed h_nmea s.pbuf x.tick.toNat x.data)
        fun n => (s.ublox, s.tsip, s.motorola, n),
      fun _ => succ_lt_of_room h_nmea⟩

/-- What every call keeps, and the dispatcher does not look at, is kept. -/
theorem offer_bounded (h : s.Bounded) (x : Input) (ps : List Proto) :
    (s.offer timescaleGps x ps).1.Bounded ∧ ∀ d ∈ (s.offer timescaleGps x ps).2,
      d.InBounds timescaleGps ∧ d.Counts timescaleGps := by
  induction ps generalizing s with
  | nil => exact ⟨h, fun d hd => absurd hd List.not_mem_nil⟩
  | cons p ps ih =>
    -- on the parsers that are still to be called: this one has its bounds
    obtain ⟨h_next, h_call⟩ := deliver_bounded timescaleGps h x p
    rw [offer]
    split
    -- it is skipped
    · exact ih h
    · dsimp only
      split
      -- the byte is passed on to the next one
      · obtain ⟨h_last, h_rest⟩ := ih h_next
        exact ⟨h_last, List.forall_mem_cons.mpr ⟨h_call, h_rest⟩⟩
      -- or it is taken, which changes no parser
      · obtain ⟨_, _, _, h_eq, -⟩ := concluded_cases (s.deliver timescaleGps x p).1 x p
          (s.deliver timescaleGps x p).2.rc
        rw [h_eq]
        exact ⟨⟨h_next.ublox, h_next.tsip, h_next.motorola, h_next.nmea⟩, by simpa using h_call⟩

theorem byteReceived_bounded (h : s.Bounded) (x : Input) :
    (s.byteReceived timescaleGps x).1.Bounded ∧ ∀ d ∈ (s.byteReceived timescaleGps x).2,
      d.InBounds timescaleGps ∧ d.Counts timescaleGps := by
  rw [byteReceived, timeouts_eq]
  refine offer_bounded timescaleGps ?_ x parsers
  exact ⟨h.ublox, h.tsip, h.motorola, h.nmea⟩

/-- A run. -/
theorem run_bounded (h : s.Bounded) (xs : List Input) :
    (s.after timescaleGps xs).Bounded ∧ ∀ d ∈ s.deliveries timescaleGps xs,
      d.InBounds timescaleGps ∧ d.Counts timescaleGps := by
  induction xs generalizing s with
  | nil => exact ⟨h, fun d hd => absurd hd List.not_mem_nil⟩
  | cons x xs ih =>
    obtain ⟨h_next, h_calls⟩ := byteReceived_bounded timescaleGps h x
    obtain ⟨h_last, h_rest⟩ := ih h_next
    exact ⟨h_last, List.forall_mem_append.mpr ⟨h_calls, h_rest⟩⟩

end State

/-- **The bounds of the buffer.** Over every run from power-up, no call reads or stores at a
position outside the buffer or lets a counter wrap, and with its count of DLEs at 0 TSIP has
nothing in the buffer. -/
theorem pbuf_bounds (timescaleGps : Bool) (xs : List Input) :
    (∀ d ∈ State.powerUp.deliveries timescaleGps xs,
      d.InBounds timescaleGps ∧ d.Counts timescaleGps) ∧
    ((State.powerUp.after timescaleGps xs).tsip.rxDleCount = 0 →
      (State.powerUp.after timescaleGps xs).tsip.rxCount = 0) := by
  obtain ⟨h_last, h_calls⟩ := State.run_bounded timescaleGps .powerUp xs
  exact ⟨h_calls, h_last.tsip.idle⟩

end Gps
end Laureline
