import Laureline.Gps.Ublox
import Laureline.Gps.Tsip
import Laureline.Gps.Motorola
import Laureline.Gps.Nmea

/-!
# The dispatcher

`gps_byte_received` offers each byte to the parsers in the order of its table. A
parser that takes the byte locks the others out until its packet is complete. The
lock is cleared by a gap between two bytes, and on every byte that comes long after
the last complete packet.

* `State.timeouts` is what happens before the loop, `State.offer` is the loop.
* `Delivery` records one call of a parser. With it go two views of the buffer at
  the moment the packet is decoded: the buffer itself, and what the parser's own
  stores alone have made of it (`stored`, kept as a history variable).
* `State.after` is the state after a list of bytes.
-/

namespace Laureline
namespace Gps

/-- The protocols of the table. -/
inductive Proto
  | ublox
  | tsip
  | oncore
  | nmea
deriving DecidableEq, Repr

/-- The order of `parsers`. -/
def parsers : List Proto := [.ublox, .tsip, .oncore, .nmea]

theorem mem_parsers (p : Proto) : p ∈ parsers := by cases p <;> decide

/-- One received byte, and the value of `xTaskGetTickCount` for it. -/
structure Input where
  tick : UInt32
  data : UInt8
deriving DecidableEq, Repr

/-- The static variables of the dispatcher and the parsers, and the buffer. -/
structure State where
  /-- `current_proto`; `none` is `PROTO_NONE`. -/
  currentProto : Option Proto
  lastProto : Option Proto
  timeLastByte : ℕ
  timeLastPacket : ℕ
  gpsFixSvs : ℕ
  pbuf : Pbuf
  ublox : Ublox
  tsip : Tsip
  motorola : Motorola
  nmea : Nmea
  /-- What each parser's own stores have left at each position. -/
  stored : Proto → Pbuf

/-- After a reset. -/
def State.powerUp : State where
  currentProto := none
  lastProto := none
  timeLastByte := 0
  timeLastPacket := 0
  gpsFixSvs := 0
  pbuf := fun _ => 0
  ublox := .powerUp
  tsip := .powerUp
  motorola := .powerUp
  nmea := .powerUp
  stored := fun _ _ => 0

/-- One call of a parser. -/
structure Delivery where
  proto : Proto
  /-- The state in which the parser is called. -/
  before : State
  /-- The byte that it is called with. -/
  input : Input
  rc : Rc
  calls : List Call
  filled : ℕ
  /-- The buffer when the packet is decoded. -/
  image : Pbuf
  /-- The bytes that this parser stored, at their positions. -/
  own : Pbuf

namespace State

/-- The stores of a parser, before and while the packet is decoded. -/
def wrote (s : State) (proto : Proto) {σ : Type} (o : Out σ) : State :=
  { s with
    pbuf := (s.pbuf.store o.writes).cut o.cuts
    stored := Function.update s.stored proto (((s.stored proto).store o.writes).cut o.cuts)
    gpsFixSvs := o.calls.foldl (fun n c => match c with
      | .setFixSvs m => m
      | _ => n) s.gpsFixSvs }

/-- The record of a call. -/
def delivery (s : State) (x : Input) (proto : Proto) {σ : Type} (o : Out σ) : Delivery where
  proto := proto
  before := s
  input := x
  rc := o.rc
  calls := o.calls
  filled := o.filled
  image := s.pbuf.store o.writes
  own := (s.stored proto).store o.writes

/-- `parser->func(data)`. -/
def deliver (timescaleGps : Bool) (s : State) (x : Input) : Proto → State × Delivery
  | .ublox =>
    let o := ubloxFeed timescaleGps s.ublox s.pbuf x.data
    ({ s.wrote .ublox o with ublox := o.st }, s.delivery x .ublox o)
  | .tsip =>
    let o := tsipFeed s.tsip s.pbuf x.tick.toNat x.data
    ({ s.wrote .tsip o with tsip := o.st }, s.delivery x .tsip o)
  | .oncore =>
    let o := motorolaFeed s.motorola s.pbuf x.data
    ({ s.wrote .oncore o with motorola := o.st }, s.delivery x .oncore o)
  | .nmea =>
    let o := nmeaFeed s.nmea s.pbuf x.tick.toNat x.data
    ({ s.wrote .nmea o with nmea := o.st }, s.delivery x .nmea o)

/-- What the return code of a parser does to the dispatcher. -/
def concluded (s : State) (x : Input) (p : Proto) : Rc → State
  | .feedContinue =>
    -- lock out all other parsers
    { s with currentProto := some p }
  | .feedComplete =>
    -- go back to search mode
    { s with currentProto := none, lastProto := some p, timeLastPacket := x.tick.toNat }
  | .feedUnknown => s

/-- The loop of `gps_byte_received`, over the rest of the table. -/
def offer (timescaleGps : Bool) (s : State) (x : Input) : List Proto → State × List Delivery
  | [] => (s, [])
  | p :: ps =>
    if s.currentProto ≠ none ∧ s.currentProto ≠ some p then s.offer timescaleGps x ps
    else
      let (s', d) := s.deliver timescaleGps x p
      if d.rc = .feedUnknown then
        let (s'', ds) := s'.offer timescaleGps x ps
        (s'', d :: ds)
      else (s'.concluded x p d.rc, [d])

/-- The timeouts before the loop. -/
def timeouts (s : State) (tick : ℕ) : State :=
  let s :=
    if ticksSince tick s.timeLastByte ≥ packetTimeout then { s with currentProto := none } else s
  let s := { s with timeLastByte := tick }
  if ticksSince tick s.timeLastPacket > parserTimeout then
    { s with currentProto := none, lastProto := none, gpsFixSvs := 0 }
  else s

/-- `gps_byte_received`: the state after it, and the calls of the parsers. -/
def byteReceived (timescaleGps : Bool) (s : State) (x : Input) : State × List Delivery :=
  (s.timeouts x.tick.toNat).offer timescaleGps x parsers

/-- The state after a list of bytes. -/
def after (timescaleGps : Bool) (s : State) (xs : List Input) : State :=
  xs.foldl (fun s x => (s.byteReceived timescaleGps x).1) s

/-- The calls of the parsers over a list of bytes. -/
def deliveries (timescaleGps : Bool) (s : State) : List Input → List Delivery
  | [] => []
  | x :: xs =>
    (s.byteReceived timescaleGps x).2 ++
      deliveries timescaleGps (s.byteReceived timescaleGps x).1 xs

/-! ### What a call leaves alone -/

section Frame

variable (timescaleGps : Bool) (s : State) (x : Input) (p : Proto)

@[simp] theorem deliver_proto : (s.deliver timescaleGps x p).2.proto = p := by cases p <;> rfl

@[simp] theorem deliver_currentProto :
    (s.deliver timescaleGps x p).1.currentProto = s.currentProto := by cases p <;> rfl

@[simp] theorem deliver_timeLastByte :
    (s.deliver timescaleGps x p).1.timeLastByte = s.timeLastByte := by cases p <;> rfl

@[simp] theorem deliver_timeLastPacket :
    (s.deliver timescaleGps x p).1.timeLastPacket = s.timeLastPacket := by cases p <;> rfl

end Frame

/-- What the dispatcher makes of a return code is about the lock. -/
theorem concluded_cases (s : State) (x : Input) (p : Proto) (rc : Rc) :
    ∃ lock last packet, s.concluded x p rc =
        { s with currentProto := lock, lastProto := last, timeLastPacket := packet } ∧
      (lock = none ∨ lock = some p ∨ lock = s.currentProto) := by
  cases rc with
  | feedUnknown => exact ⟨_, _, _, rfl, Or.inr (Or.inr rfl)⟩
  | feedContinue => exact ⟨some p, _, _, rfl, Or.inr (Or.inl rfl)⟩
  | feedComplete => exact ⟨none, _, _, rfl, Or.inl rfl⟩

/-- A timeout has cleared the lock. -/
def timedOut (s : State) (tick : ℕ) : Prop :=
  ticksSince tick s.timeLastByte ≥ packetTimeout ∨ ticksSince tick s.timeLastPacket > parserTimeout

instance (s : State) (tick : ℕ) : Decidable (s.timedOut tick) := inferInstanceAs (Decidable (_ ∨ _))

/-- The timeouts touch the lock and nothing that belongs to a parser. -/
theorem timeouts_eq (s : State) (tick : ℕ) :
    s.timeouts tick = { s with
      currentProto := if s.timedOut tick then none else s.currentProto
      lastProto :=
        if ticksSince tick s.timeLastPacket > parserTimeout then none else s.lastProto
      timeLastByte := tick
      gpsFixSvs :=
        if ticksSince tick s.timeLastPacket > parserTimeout then 0 else s.gpsFixSvs } := by
  unfold timeouts timedOut
  by_cases h_gap : ticksSince tick s.timeLastByte ≥ packetTimeout <;>
    by_cases h_late : ticksSince tick s.timeLastPacket > parserTimeout <;>
    simp [h_gap, h_late]

/-- The rest of the table is skipped if it does not have the holder of the lock. -/
theorem offer_skip {timescaleGps : Bool} {s : State} {x : Input} {p : Proto}
    (h_lock : s.currentProto = some p) {ps : List Proto} (h_mem : p ∉ ps) :
    s.offer timescaleGps x ps = (s, []) := by
  induction ps with
  | nil => rfl
  | cons q ps ih =>
    rw [List.mem_cons, not_or] at h_mem
    rw [offer, if_pos (by simp [h_lock, h_mem.1]), ih h_mem.2]

/-- The loop does not look at the time of the last byte. -/
theorem offer_timeLastByte (timescaleGps : Bool) (s : State) (x : Input) (ps : List Proto) :
    (s.offer timescaleGps x ps).1.timeLastByte = s.timeLastByte := by
  induction ps generalizing s with
  | nil => rfl
  | cons p ps ih =>
    unfold offer
    split
    · exact ih s
    · dsimp only
      split
      · rw [ih]; simp
      · cases (s.deliver timescaleGps x p).2.rc <;> simp [concluded]

/-- The tick of a byte is kept for the next one. -/
theorem byteReceived_timeLastByte (timescaleGps : Bool) (s : State) (x : Input) :
    (s.byteReceived timescaleGps x).1.timeLastByte = x.tick.toNat := by
  rw [byteReceived, offer_timeLastByte, timeouts_eq]

/-- With the lock held, the byte goes to its holder only. -/
theorem offer_locked {timescaleGps : Bool} {s : State} {x : Input} {p : Proto}
    (h_lock : s.currentProto = some p) {ps : List Proto} (h_mem : p ∈ ps) (h_nodup : ps.Nodup) :
    s.offer timescaleGps x ps =
      ((s.deliver timescaleGps x p).1.concluded x p (s.deliver timescaleGps x p).2.rc,
        [(s.deliver timescaleGps x p).2]) := by
  induction ps with
  | nil => exact absurd h_mem (by simp)
  | cons q ps ih =>
    obtain ⟨h_new, h_nodup⟩ := List.nodup_cons.mp h_nodup
    by_cases h_eq : q = p
    · -- even if it refuses the byte, the rest of the table is locked out
      subst h_eq
      rw [offer, if_neg (by simp [h_lock])]
      dsimp only
      split
      · next h_rc => rw [offer_skip (by simp [h_lock]) h_new, h_rc, concluded]
      · rfl
    · rw [offer, if_pos (by simp [h_lock, Ne.symm h_eq])]
      exact ih ((List.mem_cons.mp h_mem).resolve_left (Ne.symm h_eq)) h_nodup

/-! ### What holds of every call -/

/-- What holds of every call of a parser holds of every delivery. -/
theorem offer_forall {timescaleGps : Bool} {x : Input} {Q : Delivery → Prop}
    (h : ∀ (s : State) p, Q (s.deliver timescaleGps x p).2) (s : State) (ps : List Proto) :
    ∀ d ∈ (s.offer timescaleGps x ps).2, Q d := by
  induction ps generalizing s with
  | nil => exact fun d hd => absurd hd (by simp [offer])
  | cons p ps ih =>
    unfold offer
    split
    · exact ih s
    · have h_first := h s p
      dsimp only
      split
      · exact List.forall_mem_cons.mpr ⟨h_first, ih _⟩
      · simpa using h_first

/-- The same over a list of bytes. -/
theorem deliveries_forall {timescaleGps : Bool} {Q : Delivery → Prop}
    (h : ∀ (s : State) x p, Q (s.deliver timescaleGps x p).2) (s : State) (xs : List Input) :
    ∀ d ∈ s.deliveries timescaleGps xs, Q d := by
  induction xs generalizing s with
  | nil => exact fun d hd => absurd hd (by simp [deliveries])
  | cons x xs ih =>
    intro d hd
    rcases List.mem_append.mp hd with hd | hd
    · exact offer_forall (fun s p => h s x p) _ _ d hd
    · exact ih _ d hd

end State
end Gps
end Laureline
