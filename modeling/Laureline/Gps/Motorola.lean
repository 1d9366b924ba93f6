import Laureline.Gps.Feed

/-!
# The Motorola binary parser

`motorola_feed`. A message is `@@`, a command of two bytes, data, a checksum byte
and CR LF; `@@Ea` is the only command known. The bytes after the command go to the
buffer.
-/

namespace Laureline
namespace Gps

/-- `mstate_t`. -/
inductive Mstate
  | waiting
  | at1
  | at2
  | cmd1
  | copying
deriving DecidableEq, Repr

/-- The variables of `motorola.c`; `mptr` is an offset into the buffer. -/
structure Motorola where
  mstate : Mstate
  mremaining : ℕ
  mcsum : UInt8
  mcmd : ℕ
  mptr : ℕ
deriving DecidableEq, Repr

/-- After a reset. -/
def Motorola.powerUp : Motorola := ⟨.waiting, 0, 0, 0, 0⟩

/-- `MCMD_Ea`. -/
def mcmdEa : ℕ := 0x4561

/-- The call for a complete message. -/
def motorolaComplete (mcmd : ℕ) (pbuf : Pbuf) : List Call :=
  if mcmd = mcmdEa then
    [.setUtc (pbuf.be16 2) (pbuf 0).toNat (pbuf 1).toNat (pbuf 4).toNat (pbuf 5).toNat
      (pbuf 6).toNat]
  else []

/-- `motorola_feed`. -/
def motorolaFeed (m : Motorola) (pbuf : Pbuf) (data : UInt8) : Out Motorola :=
  match m.mstate with
  | .waiting =>
    if data = 0x40 then { st := { m with mstate := .at1 }, rc := .feedContinue }
    else { st := m, rc := .feedUnknown }
  | .at1 =>
    -- a byte other than `@` is taken too
    { st := { m with mstate := if data = 0x40 then .at2 else .waiting }, rc := .feedContinue }
  | .at2 =>
    { st := { m with mcmd := data.toNat, mcsum := data, mstate := .cmd1 }, rc := .feedContinue }
  | .cmd1 =>
    let m := { m with mcmd := (m.mcmd * 256 + data.toNat) % 65536, mcsum := m.mcsum ^^^ data }
    if m.mcmd = mcmdEa then
      let m := { m with mremaining := 70 }
      -- packet too big
      if m.mremaining > pbufSize then { st := { m with mstate := .waiting }, rc := .feedUnknown }
      else { st := { m with mstate := .copying, mptr := 0 }, rc := .feedContinue }
    else
      -- unknown command
      { st := { m with mstate := .waiting }, rc := .feedUnknown }
  | .copying =>
    let writes := [(m.mptr, data)]
    let m := { m with
      mptr := m.mptr + 1
      mcsum := m.mcsum ^^^ data
      mremaining := (m.mremaining + 255) % 256 }
    if m.mremaining ≠ 0 then { st := m, rc := .feedContinue, writes }
    else
      let m := { m with mstate := .waiting }
      -- the checksum byte is among the bytes that are summed up; CR LF are not waited for
      if m.mcsum ≠ 0 then { st := m, rc := .feedUnknown, writes }
      else
        { st := m
          rc := .feedComplete
          writes
          calls := motorolaComplete m.mcmd (pbuf.store writes)
          filled := m.mptr }

end Gps
end Laureline
