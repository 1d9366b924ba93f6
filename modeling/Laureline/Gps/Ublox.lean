import Laureline.Gps.Feed

/-!
# The UBX parser

`ublox_feed`. A packet is a sync pair, a header of class, id and little-endian
length, the payload and two checksum bytes; header and payload go to the buffer.
The counters are 8 bits wide and the packet length 16.

`ubloxFeed_cases` says what each return code leaves behind: a byte that is refused
or completes a packet is not stored, and the parser waits after it.
-/

namespace Laureline
namespace Gps

/-- `ustate_t`. -/
inductive Ustate
  | waiting
  | sync
  | header
  | copying
  | checksum1
  | checksum2
deriving DecidableEq, Repr

/-- The static variables of `ublox.c`. -/
structure Ublox where
  ustate : Ustate
  rxCount : ℕ
  rxCk1 : UInt8
  rxCk2 : UInt8
  rxPktlen : ℕ
deriving DecidableEq, Repr

/-- After a reset. -/
def Ublox.powerUp : Ublox := ⟨.waiting, 0, 0, 0, 0⟩

/-- A complete packet, by class and id; `timescaleGps` is `FLAG_TIMESCALE_GPS`. -/
def ubloxComplete (timescaleGps : Bool) (pbuf : Pbuf) (rxCount : ℕ) : List Call :=
  if pbuf 0 = 0x01 ∧ pbuf 1 = 0x06 ∧ rxCount ≥ 4 + 52 then
    -- NAV-SOL
    [.setFixSvs (pbuf (4 + 47)).toNat]
  else if pbuf 0 = 0x01 ∧ pbuf 1 = 0x20 ∧ rxCount ≥ 4 + 16 then
    -- NAV-TIMEGPS; `valid` must have the bits for week number and time of week
    if timescaleGps ∧ pbuf 15 &&& 0x02 ≠ 0 ∧ pbuf 15 &&& 0x01 ≠ 0 then
      [.setGps (pbuf.le16 12) (pbuf.le32 4 / 1000)]
    else []
  else if pbuf 0 = 0x01 ∧ pbuf 1 = 0x21 ∧ rxCount ≥ 4 + 20 then
    -- NAV-TIMEUTC; `valid` must have the bit for UTC
    if !timescaleGps ∧ pbuf 23 &&& 0x04 ≠ 0 then
      [.setUtc (pbuf.le16 16) (pbuf 18).toNat (pbuf 19).toNat (pbuf 20).toNat
        (pbuf 21).toNat (pbuf 22).toNat]
    else []
  else if pbuf 0 = 0x0B ∧ pbuf 1 = 0x02 ∧ rxCount ≥ 4 + 72 then
    -- AID-HUI
    []
  else if pbuf 0 = 0x0D ∧ pbuf 1 = 0x01 ∧ rxCount ≥ 4 + 16 then
    -- TIM-TP
    [.setCorrection (pbuf.le32 (4 + 8)) .leading]
  else []

/-- A byte of header or payload is stored and enters the checksums. -/
def Ublox.take (u : Ublox) (val : UInt8) : Ublox :=
  { u with
    rxCount := (u.rxCount + 1) % 256
    rxCk1 := u.rxCk1 + val
    rxCk2 := u.rxCk2 + (u.rxCk1 + val) }

/-- The end of `ublox_feed`: the parser waits again. -/
def Ublox.drop (u : Ublox) : Out Ublox :=
  { st := { u with ustate := .waiting }, rc := .feedUnknown }

/-- `ublox_feed`. -/
def ubloxFeed (timescaleGps : Bool) (u : Ublox) (pbuf : Pbuf) (val : UInt8) : Out Ublox :=
  match u.ustate with
  | .waiting =>
    if val = 0xB5 then { st := { u with ustate := .sync }, rc := .feedContinue } else u.drop
  | .sync =>
    if val = 0x62 then
      { st := { u with ustate := .header, rxCount := 0, rxCk1 := 0, rxCk2 := 0 }
        rc := .feedContinue }
    else u.drop
  | .header =>
    let u' := u.take val
    let writes := [(u.rxCount, val)]
    -- the fourth byte completes the length
    if u'.rxCount ≥ 4 then
      let p := pbuf.store writes
      let rxPktlen := (p.le16 2 + 4) % 65536
      { st := { u' with
          rxPktlen
          ustate := if u'.rxCount ≥ rxPktlen then .checksum1 else .copying }
        rc := .feedContinue
        writes }
    else { st := u', rc := .feedContinue, writes }
  | .copying =>
    -- a payload that does not fit is noticed when the buffer is full
    if u.rxCount ≥ pbufSize then u.drop
    else
      let u' := u.take val
      { st := { u' with ustate := if u'.rxCount ≥ u'.rxPktlen then .checksum1 else .copying }
        rc := .feedContinue
        writes := [(u.rxCount, val)] }
  | .checksum1 =>
    if u.rxCk1 ≠ val then u.drop
    else { st := { u with ustate := .checksum2 }, rc := .feedContinue }
  | .checksum2 =>
    if u.rxCk2 ≠ val then u.drop
    else
      { st := { u with ustate := .waiting }
        rc := .feedComplete
        calls := ubloxComplete timescaleGps pbuf u.rxCount
        filled := u.rxCount }

/-- A byte is refused, or continues the packet, or completes it as the second
checksum. -/
theorem ubloxFeed_cases (timescaleGps : Bool) (u : Ublox) (p : Pbuf) (val : UInt8) :
    ubloxFeed timescaleGps u p val = u.drop ∨
    (ubloxFeed timescaleGps u p val).rc = .feedContinue ∨
    (u.ustate = .checksum2 ∧ ubloxFeed timescaleGps u p val =
      { st := { u with ustate := .waiting }
        rc := .feedComplete
        calls := ubloxComplete timescaleGps p u.rxCount
        filled := u.rxCount }) := by
  unfold ubloxFeed
  cases u.ustate with
  | waiting | sync =>
    dsimp only
    split
    · exact Or.inr (Or.inl rfl)
    · exact Or.inl rfl
  | header =>
    -- the header is taken whatever it says
    dsimp only
    split <;> exact Or.inr (Or.inl rfl)
  | copying | checksum1 =>
    dsimp only
    split
    · exact Or.inl rfl
    · exact Or.inr (Or.inl rfl)
  | checksum2 =>
    -- only here is a packet complete
    dsimp only
    split
    · exact Or.inl rfl
    · exact Or.inr (Or.inr ⟨rfl, rfl⟩)

end Gps
end Laureline
