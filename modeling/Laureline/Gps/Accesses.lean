import Laureline.Gps.Motorola
import Laureline.Gps.Tsip
import Laureline.Gps.SharedBuffer
import Laureline.Lib.Access

/-!
# The binary parsers by their accesses

UBX, TSIP and Motorola once more, as programs that load and store single bytes of `pbuf`. Each
ends inside the buffer, with the state, the return code and the calls of the parser and with the
same buffer (`Runs`). A condition is read as a whole, also where C stops at its first false part.

* `Ublox.runs_feed`, from `Ublox.Room`: the header goes to the first positions;
* `Tsip.runs_feed`, from any state: the count is tested before each store;
* `Motorola.runs_feed`, from `Motorola.Ok`: what has been stored and what remains are 70 bytes.
-/

namespace Laureline
namespace Gps

open Access

/-- What a call of a parser gives, apart from the buffer. -/
structure Result (σ : Type) where
  st : σ
  rc : Rc
  calls : List Call := []

/-- The same of the parser that names its stores. -/
def Out.result {σ : Type} (o : Out σ) : Result σ := ⟨o.st, o.rc, o.calls⟩

/-- The program ends inside the buffer with what the parser does. -/
def Runs {σ : Type} (c : Access UInt8 (Result σ)) (p : Pbuf) (o : Out σ) : Prop :=
  c.Within pbufSize p fun r p' => r = o.result ∧ p' = (p.store o.writes).cut o.cuts

/-- The program reads the buffer, inside it, and has this result. -/
def Reads {α : Type} (c : Access UInt8 α) (p : Pbuf) (v : α) : Prop :=
  c.Within pbufSize p fun a p' => a = v ∧ p' = p

/-! ### Values of several bytes -/

/-- Two bytes, the low one first. -/
def le16 (i : ℕ) : Access UInt8 ℕ := do
  let lo ← fetch i
  let hi ← fetch (i + 1)
  return lo.toNat + 256 * hi.toNat

/-- Four bytes, the lowest first. -/
def le32 (i : ℕ) : Access UInt8 ℕ := do
  let lo ← le16 i
  let hi ← le16 (i + 2)
  return lo + 65536 * hi

/-- Two bytes, the high one first. -/
def be16 (i : ℕ) : Access UInt8 ℕ := do
  let hi ← fetch i
  let lo ← fetch (i + 1)
  return 256 * hi.toNat + lo.toNat

section Values

variable {i : ℕ} {p : Pbuf}

theorem reads_fetch (h : i < pbufSize) : Reads (fetch i) p (p i) :=
  within_fetch.mpr ⟨h, rfl, rfl⟩

theorem reads_pure {α : Type} {a : α} : Reads (pure a) p a := within_pure.mpr ⟨rfl, rfl⟩

theorem reads_le16 (h : i + 1 < pbufSize) : Reads (le16 i) p (p.le16 i) :=
  (reads_fetch (by omega)).then <| (reads_fetch h).then reads_pure

theorem reads_le32 (h : i + 3 < pbufSize) : Reads (le32 i) p (p.le32 i) :=
  (reads_le16 (by omega)).then <| (reads_le16 (by omega)).then reads_pure

theorem reads_be16 (h : i + 1 < pbufSize) : Reads (be16 i) p (p.be16 i) :=
  (reads_fetch (by omega)).then <| (reads_fetch h).then reads_pure

end Values

/-! ### UBX -/

/-- The class and id of a packet are looked at one after the other. -/
def isPacket (i : ℕ) (cls id : UInt8) : Access UInt8 Bool := do
  if (← fetch i) = cls then return decide ((← fetch (i + 1)) = id) else return false

theorem reads_isPacket {i : ℕ} {p : Pbuf} (h : i + 1 < pbufSize) (cls id : UInt8) :
    Reads (isPacket i cls id) p (decide (p i = cls ∧ p (i + 1) = id)) := by
  refine (reads_fetch (by omega)).then ?_
  split
  · next h_cls =>
    refine (reads_fetch h).then ?_
    rw [h_cls]
    simp only [true_and]
    exact reads_pure
  · next h_cls =>
    rw [decide_eq_false fun h => h_cls h.1]
    exact reads_pure

/-- The second half of `ublox_feed`. -/
def Ublox.decode (timescaleGps : Bool) (rxCount : ℕ) : Access UInt8 (List Call) := do
  if (← isPacket 0 0x01 0x06) ∧ rxCount ≥ 4 + 52 then
    return [.setFixSvs (← fetch (4 + 47)).toNat]
  else if (← isPacket 0 0x01 0x20) ∧ rxCount ≥ 4 + 16 then
    if timescaleGps ∧ (← fetch 15) &&& 0x02 ≠ 0 ∧ (← fetch 15) &&& 0x01 ≠ 0 then
      return [.setGps (← le16 12) ((← le32 4) / 1000)]
    else return []
  else if (← isPacket 0 0x01 0x21) ∧ rxCount ≥ 4 + 20 then
    if !timescaleGps ∧ (← fetch 23) &&& 0x04 ≠ 0 then
      return [.setUtc (← le16 16) (← fetch 18).toNat (← fetch 19).toNat (← fetch 20).toNat
        (← fetch 21).toNat (← fetch 22).toNat]
    else return []
  else if (← isPacket 0 0x0B 0x02) ∧ rxCount ≥ 4 + 72 then return []
  else if (← isPacket 0 0x0D 0x01) ∧ rxCount ≥ 4 + 16 then
    return [.setCorrection (← le32 (4 + 8)) .leading]
  else return []

/-- One branch of the chain. -/
theorem reads_branch {p : Pbuf} {cls id : UInt8} {n rxCount : ℕ}
    {c d : Access UInt8 (List Call)} {x y : List Call} (hc : Reads c p x) (hd : Reads d p y) :
    Reads (do if (← isPacket 0 cls id) ∧ rxCount ≥ n then c else d) p
      (if p 0 = cls ∧ p 1 = id ∧ rxCount ≥ n then x else y) := by
  refine (reads_isPacket (by decide) _ _).then ?_
  simp only [decide_eq_true_eq, and_assoc, Nat.zero_add]
  split
  · exact hc
  · exact hd

theorem Ublox.reads_decode (timescaleGps : Bool) (rxCount : ℕ) (p : Pbuf) :
    Reads (decode timescaleGps rxCount) p (ubloxComplete timescaleGps p rxCount) := by
  refine reads_branch ?_ <| reads_branch ?_ <| reads_branch ?_ <| reads_branch ?_ <|
    reads_branch ?_ ?_
  -- NAV-SOL, NAV-TIMEGPS and NAV-TIMEUTC
  · exact (reads_fetch (by decide)).then reads_pure
  · refine (reads_fetch (by decide)).then <| (reads_fetch (by decide)).then ?_
    split
    · exact (reads_le16 (by decide)).then <| (reads_le32 (by decide)).then reads_pure
    · exact reads_pure
  · refine (reads_fetch (by decide)).then ?_
    split
    · exact (reads_le16 (by decide)).then <| (reads_fetch (by decide)).then <|
        (reads_fetch (by decide)).then <| (reads_fetch (by decide)).then <|
        (reads_fetch (by decide)).then <| (reads_fetch (by decide)).then reads_pure
    · exact reads_pure
  · exact reads_pure
  -- TIM-TP
  · exact (reads_le32 (by decide)).then reads_pure
  · exact reads_pure

/-- `ublox_feed`. -/
def Ublox.feed (timescaleGps : Bool) (u : Ublox) (val : UInt8) : Access UInt8 (Result Ublox) :=
  match u.ustate with
  | .waiting =>
    if val = 0xB5 then pure { st := { u with ustate := .sync }, rc := .feedContinue }
    else pure u.drop.result
  | .sync =>
    if val = 0x62 then
      pure { st := { u with ustate := .header, rxCount := 0, rxCk1 := 0, rxCk2 := 0 }
             rc := .feedContinue }
    else pure u.drop.result
  | .header => do
    put u.rxCount val
    let u' := u.take val
    if u'.rxCount ≥ 4 then
      let rxPktlen := ((← le16 2) + 4) % 65536
      return { st := { u' with
                 rxPktlen
                 ustate := if u'.rxCount ≥ rxPktlen then .checksum1 else .copying }
               rc := .feedContinue }
    else return { st := u', rc := .feedContinue }
  | .copying =>
    if u.rxCount ≥ pbufSize then pure u.drop.result
    else do
      put u.rxCount val
      let u' := u.take val
      return { st := { u' with ustate := if u'.rxCount ≥ u'.rxPktlen then .checksum1 else .copying }
               rc := .feedContinue }
  | .checksum1 =>
    if u.rxCk1 ≠ val then pure u.drop.result
    else pure { st := { u with ustate := .checksum2 }, rc := .feedContinue }
  | .checksum2 =>
    if u.rxCk2 ≠ val then pure u.drop.result
    else do
      let calls ← decode timescaleGps u.rxCount
      return { st := { u with ustate := .waiting }, rc := .feedComplete, calls }

/-- A call that does not touch the buffer. -/
theorem runs_pure {σ : Type} {p : Pbuf} {r : Result σ} {o : Out σ} (h_result : r = o.result)
    (h_writes : o.writes = []) (h_cuts : o.cuts = []) : Runs (pure r) p o := by
  refine within_pure.mpr ⟨h_result, ?_⟩
  rw [h_writes, h_cuts]
  rfl

/-- A byte is stored, and the buffer is read. -/
theorem runs_put {σ : Type} {p : Pbuf} {o : Out σ} {i : ℕ} {v : UInt8}
    {c : Access UInt8 (Result σ)} (h : i < pbufSize) (h_writes : o.writes = [(i, v)])
    (h_cuts : o.cuts = []) (h_rest : Reads c (p.store [(i, v)]) o.result) :
    Runs (do put i v; c) p o := by
  refine within_bind.mpr <| within_put.mpr ⟨h, h_rest.mono fun r p' h_eq => ?_⟩
  rw [h_writes, h_cuts]
  exact h_eq

/-- The UBX header goes to the first positions, and the rest where there is room. -/
structure Ublox.Room (u : Ublox) : Prop where
  header : u.ustate = .header → u.rxCount < 4
  count : u.rxCount ≤ pbufSize

theorem Ublox.runs_feed (timescaleGps : Bool) {u : Ublox} (h : u.Room) (p : Pbuf) (val : UInt8) :
    Runs (u.feed timescaleGps val) p (ubloxFeed timescaleGps u p val) := by
  unfold feed ubloxFeed
  cases h_state : u.ustate with
  | waiting | sync | checksum1 =>
    dsimp only
    split <;> exact runs_pure rfl rfl rfl
  | header =>
    -- the four bytes of the header come first, and the last of them is followed by the load of two
    have h_lt : u.rxCount < pbufSize := (h.header h_state).trans (by decide)
    dsimp only
    split
    · exact runs_put h_lt rfl rfl <| (reads_le16 (by decide)).then reads_pure
    · exact runs_put h_lt rfl rfl reads_pure
  | copying =>
    -- the payload is stored only after the test of the count
    dsimp only
    split
    · exact runs_pure rfl rfl rfl
    · next h_room => exact runs_put (not_le.mp h_room) rfl rfl reads_pure
  | checksum2 =>
    -- a complete packet is decoded
    dsimp only
    split
    · exact runs_pure rfl rfl rfl
    · exact (reads_decode timescaleGps u.rxCount p).then <| within_pure.mpr ⟨rfl, rfl⟩

/-! ### TSIP -/

/-- The end of a packet in `tsip_feed`. -/
def Tsip.decode (t : Tsip) : Access UInt8 (Result Tsip) := do
  if t.rxCount ≥ 19 ∧ (← isPacket 1 0x8F 0xAB) then
    if (← fetch 11) &&& (0x04 ||| 0x08) ≠ 0 then return { st := t, rc := .feedComplete }
    else
      return { st := t.reset
               rc := .feedComplete
               calls := [.setUtc (← be16 17) (← fetch 16).toNat (← fetch 15).toNat
                 (← fetch 14).toNat (← fetch 13).toNat (← fetch 12).toNat] }
  else if t.rxCount > 65 ∧ (← isPacket 1 0x8F 0xAC) then
    return { st := t.reset
             rc := .feedComplete
             calls := [.setCorrection (65536 * (← be16 62) + (← be16 64)) .lagging] }
  else return { st := t.reset, rc := .feedComplete }

/-- `tsip_feed` at the given tick. -/
def Tsip.feed (t : Tsip) (tick : ℕ) (val : UInt8) : Access UInt8 (Result Tsip) :=
  let t := t.arrive tick val
  if val = 0x10 ∧ t.rxDleCount > 2 ∧ t.rxDleCount % 2 = 1 then
    pure { st := t, rc := .feedContinue }
  else if val ≠ 0x10 ∧ t.rxDleCount = 0 then pure { st := t, rc := .feedUnknown }
  else if t.rxCount ≥ pbufSize then pure { st := t.reset, rc := .feedUnknown }
  else do
    put t.rxCount val
    let t := { t with rxCount := (t.rxCount + 1) % 256 }
    if val = 0x03 ∧ t.rxDleCount % 2 = 0 then t.decode else return { st := t, rc := .feedContinue }

theorem Tsip.reads_decode (t : Tsip) (p : Pbuf) : Reads t.decode p (tsipComplete t p).result := by
  unfold decode tsipComplete
  refine (reads_isPacket (by decide) _ _).then ?_
  simp only [decide_eq_true_eq]
  split
  · refine (reads_fetch (by decide)).then ?_
    split
    · exact reads_pure
    · exact (reads_be16 (by decide)).then <| (reads_fetch (by decide)).then <|
        (reads_fetch (by decide)).then <| (reads_fetch (by decide)).then <|
        (reads_fetch (by decide)).then <| (reads_fetch (by decide)).then reads_pure
  · refine (reads_isPacket (by decide) _ _).then ?_
    simp only [decide_eq_true_eq]
    split
    · exact (reads_be16 (by decide)).then <| (reads_be16 (by decide)).then reads_pure
    · exact reads_pure

theorem Tsip.runs_feed (t : Tsip) (p : Pbuf) (tick : ℕ) (val : UInt8) :
    Runs (t.feed tick val) p (tsipFeed t p tick val) := by
  unfold feed
  dsimp only
  -- a DLE of a pair, a byte between two frames, or a byte of a packet
  rcases tsipFeed_cases t p tick val with ⟨h_val, h_gt, h_odd, h⟩ | ⟨h_val, h_zero, h⟩ |
    ⟨h_not, h_some, h⟩ <;> rw [h]
  · rw [if_pos ⟨h_val, h_gt, h_odd⟩]
    exact runs_pure rfl rfl rfl
  · rw [if_neg fun h => h_val h.1, if_pos ⟨h_val, h_zero⟩]
    exact runs_pure rfl rfl rfl
  · rw [if_neg h_not, if_neg fun h => h_some.elim h.1 fun h_ne => h_ne h.2]
    -- which does not fit, or ends the packet, or is only stored
    rcases tsipStore_cases (t.arrive tick val) p val with ⟨h_full, h⟩ |
      ⟨h_room, ⟨h_end, h_even, h⟩ | ⟨h_on, h⟩⟩ <;> rw [h]
    · rw [if_pos h_full]
      exact runs_pure rfl rfl rfl
    · rw [if_neg (not_le.mpr h_room)]
      refine runs_put h_room rfl ((tsipComplete_cases _ _).2.2.2.1) ?_
      rw [if_pos ⟨h_end, h_even⟩]
      exact reads_decode _ _
    · rw [if_neg (not_le.mpr h_room)]
      refine runs_put h_room rfl rfl ?_
      rw [if_neg h_on]
      exact reads_pure

/-! ### Motorola -/

/-- `motorola_feed`. -/
def Motorola.feed (m : Motorola) (data : UInt8) : Access UInt8 (Result Motorola) :=
  match m.mstate with
  | .waiting =>
    if data = 0x40 then pure { st := { m with mstate := .at1 }, rc := .feedContinue }
    else pure { st := m, rc := .feedUnknown }
  | .at1 =>
    pure { st := { m with mstate := if data = 0x40 then .at2 else .waiting }, rc := .feedContinue }
  | .at2 =>
    pure { st := { m with mcmd := data.toNat, mcsum := data, mstate := .cmd1 }
           rc := .feedContinue }
  | .cmd1 =>
    let m := { m with mcmd := (m.mcmd * 256 + data.toNat) % 65536, mcsum := m.mcsum ^^^ data }
    if m.mcmd = mcmdEa then
      let m := { m with mremaining := 70 }
      if m.mremaining > pbufSize then
        pure { st := { m with mstate := .waiting }, rc := .feedUnknown }
      else pure { st := { m with mstate := .copying, mptr := 0 }, rc := .feedContinue }
    else pure { st := { m with mstate := .waiting }, rc := .feedUnknown }
  | .copying => do
    put m.mptr data
    let m := { m with
      mptr := m.mptr + 1
      mcsum := m.mcsum ^^^ data
      mremaining := (m.mremaining + 255) % 256 }
    if m.mremaining ≠ 0 then return { st := m, rc := .feedContinue }
    else
      let m := { m with mstate := .waiting }
      if m.mcsum ≠ 0 then return { st := m, rc := .feedUnknown }
      else if m.mcmd = mcmdEa then
        return { st := m
                 rc := .feedComplete
                 calls := [.setUtc (← be16 2) (← fetch 0).toNat (← fetch 1).toNat
                   (← fetch 4).toNat (← fetch 5).toNat (← fetch 6).toNat] }
      else return { st := m, rc := .feedComplete }

theorem Motorola.runs_feed {m : Motorola} (h : m.Ok) (p : Pbuf) (data : UInt8) :
    Runs (m.feed data) p (motorolaFeed m p data) := by
  unfold feed motorolaFeed
  cases h_state : m.mstate with
  | waiting => dsimp only; split <;> exact runs_pure rfl rfl rfl
  | at1 | at2 => exact runs_pure rfl rfl rfl
  | cmd1 =>
    dsimp only
    split
    · split <;> exact runs_pure rfl rfl rfl
    · exact runs_pure rfl rfl rfl
  | copying =>
    -- 70 bytes in all, so the position is in the buffer
    obtain ⟨h_sum, h_pos⟩ := h h_state
    have h_lt : m.mptr < pbufSize := by simp only [pbufSize]; omega
    dsimp only
    split
    · exact runs_put h_lt rfl rfl reads_pure
    · split
      · exact runs_put h_lt rfl rfl reads_pure
      -- the last byte with the right sum: the message is decoded
      · unfold motorolaComplete
        split
        · exact runs_put h_lt rfl rfl <| (reads_be16 (by decide)).then <|
            (reads_fetch (by decide)).then <| (reads_fetch (by decide)).then <|
            (reads_fetch (by decide)).then <| (reads_fetch (by decide)).then <|
            (reads_fetch (by decide)).then reads_pure
        · exact runs_put h_lt rfl rfl reads_pure

end Gps
end Laureline
