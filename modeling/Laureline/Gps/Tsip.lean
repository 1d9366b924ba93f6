import Laureline.Gps.Feed
import Laureline.Lib.CInt

/-!
# The TSIP parser

`tsip_feed`. A packet is framed by DLE (`0x10`) and DLE ETX, and a DLE in its data
is doubled. The parser counts the DLEs, keeps its own timeout, and has no other
check; the packet goes to the buffer with its framing.
-/

namespace Laureline
namespace Gps

/-- `PACKET_TIMEOUT`, 50 ms in ticks of 10 ms. -/
def packetTimeout : ℕ := 5

/-- `PARSER_TIMEOUT`, 5 s in ticks of 10 ms. -/
def parserTimeout : ℕ := 500

/-- The ticks since a saved tick: `xTaskGetTickCount() - last` in `uint64_t`. -/
def ticksSince (tick last : ℕ) : ℕ := u64 ((tick : ℤ) - last)

/-- The static variables of `tsip.c`. -/
structure Tsip where
  rxCount : ℕ
  rxDleCount : ℕ
  rxLastTick : ℕ
deriving DecidableEq, Repr

/-- After a reset. -/
def Tsip.powerUp : Tsip := ⟨0, 0, 0⟩

/-- The packet counters are cleared. -/
def Tsip.reset (t : Tsip) : Tsip := { t with rxCount := 0, rxDleCount := 0 }

/-- `rx_count = rx_dle_count = 0` after the end of a packet; in a packet 0x8F-AB
with incomplete time the counters stay. -/
def tsipComplete (t : Tsip) (pbuf : Pbuf) : Out Tsip :=
  if t.rxCount ≥ 19 ∧ pbuf 1 = 0x8F ∧ pbuf 2 = 0xAB then
    if pbuf 11 &&& (0x04 ||| 0x08) ≠ 0 then { st := t, rc := .feedComplete, filled := t.rxCount }
    else
      { st := t.reset
        rc := .feedComplete
        calls := [.setUtc (pbuf.be16 17) (pbuf 16).toNat (pbuf 15).toNat (pbuf 14).toNat
          (pbuf 13).toNat (pbuf 12).toNat]
        filled := t.rxCount }
  else if t.rxCount > 65 ∧ pbuf 1 = 0x8F ∧ pbuf 2 = 0xAC then
    -- the bytes of the single-precision value are in reverse order
    { st := t.reset
      rc := .feedComplete
      calls := [.setCorrection (65536 * pbuf.be16 62 + pbuf.be16 64) .lagging]
      filled := t.rxCount }
  else { st := t.reset, rc := .feedComplete, filled := t.rxCount }

/-- A byte of the packet is stored; ETX after an even number of DLEs ends it. -/
def tsipStore (t : Tsip) (pbuf : Pbuf) (val : UInt8) : Out Tsip :=
  if t.rxCount ≥ pbufSize then { st := t.reset, rc := .feedUnknown }
  else
    let writes := [(t.rxCount, val)]
    let t' := { t with rxCount := (t.rxCount + 1) % 256 }
    if val = 0x03 ∧ t'.rxDleCount % 2 = 0 then
      { tsipComplete t' (pbuf.store writes) with writes }
    else { st := t', rc := .feedContinue, writes }

/-- After 50 ms without bytes, synchronization is assumed to be lost. -/
def Tsip.fresh (t : Tsip) (tick : ℕ) : Tsip :=
  if ticksSince tick t.rxLastTick > packetTimeout then t.reset else t

/-- `tsip_feed` at the given tick. -/
def tsipFeed (t : Tsip) (pbuf : Pbuf) (tick : ℕ) (val : UInt8) : Out Tsip :=
  let t := { t.fresh tick with rxLastTick := tick }
  if val = 0x10 then
    let t := { t with rxDleCount := (t.rxDleCount + 1) % 256 }
    if t.rxDleCount > 2 ∧ t.rxDleCount % 2 = 1 then
      -- doubled DLE in the data
      { st := t, rc := .feedContinue }
    else tsipStore t pbuf val
  else if t.rxDleCount = 0 then { st := t, rc := .feedUnknown }
  else tsipStore t pbuf val

/-! ### What a byte can do -/

/-- The counters when a byte is looked at: after the timeout, and with the byte
counted if it is a DLE. -/
def Tsip.arrive (t : Tsip) (tick : ℕ) (val : UInt8) : Tsip :=
  let t := t.fresh tick
  { t with
    rxLastTick := tick
    rxDleCount := if val = 0x10 then (t.rxDleCount + 1) % 256 else t.rxDleCount }

/-- A byte is the second of a doubled DLE, or comes outside a packet, or is stored. -/
theorem tsipFeed_cases (t : Tsip) (pbuf : Pbuf) (tick : ℕ) (val : UInt8) :
    (val = 0x10 ∧ 2 < (t.arrive tick val).rxDleCount ∧ (t.arrive tick val).rxDleCount % 2 = 1 ∧
      tsipFeed t pbuf tick val = { st := t.arrive tick val, rc := .feedContinue }) ∨
    (val ≠ 0x10 ∧ (t.arrive tick val).rxDleCount = 0 ∧
      tsipFeed t pbuf tick val = { st := t.arrive tick val, rc := .feedUnknown }) ∨
    (¬ (val = 0x10 ∧ 2 < (t.arrive tick val).rxDleCount ∧
        (t.arrive tick val).rxDleCount % 2 = 1) ∧
      (val = 0x10 ∨ (t.arrive tick val).rxDleCount ≠ 0) ∧
      tsipFeed t pbuf tick val = tsipStore (t.arrive tick val) pbuf val) := by
  unfold tsipFeed Tsip.arrive
  generalize t.fresh tick = t
  dsimp only
  -- only a DLE can be the second one of a pair, and only another byte can come between frames
  by_cases h_dle : val = 0x10
  · rw [if_pos h_dle, if_pos h_dle]
    split
    · next h_odd => exact Or.inl ⟨h_dle, h_odd.1, h_odd.2, rfl⟩
    · next h_single => exact Or.inr (Or.inr ⟨fun h => h_single h.2, Or.inl h_dle, rfl⟩)
  · rw [if_neg h_dle, if_neg h_dle]
    split
    · next h_zero => exact Or.inr (Or.inl ⟨h_dle, h_zero, rfl⟩)
    · next h_some => exact Or.inr (Or.inr ⟨fun h => h_dle h.1, Or.inr h_some, rfl⟩)

/-- The end of a packet leaves the parser cleared, or as it is if the time is
incomplete, and sets the time from the fields at their places. -/
theorem tsipComplete_cases (t : Tsip) (pbuf : Pbuf) :
    (tsipComplete t pbuf).rc = .feedComplete ∧ (tsipComplete t pbuf).filled = t.rxCount ∧
    (tsipComplete t pbuf).writes = [] ∧ (tsipComplete t pbuf).cuts = [] ∧
    ((tsipComplete t pbuf).st = t ∨ (tsipComplete t pbuf).st = t.reset) ∧
    (∀ c ∈ (tsipComplete t pbuf).calls,
      c = .setUtc (pbuf.be16 17) (pbuf 16).toNat (pbuf 15).toNat (pbuf 14).toNat
        (pbuf 13).toNat (pbuf 12).toNat ∨
      c = .setCorrection (65536 * pbuf.be16 62 + pbuf.be16 64) .lagging) := by
  unfold tsipComplete
  split
  · split
    · exact ⟨rfl, rfl, rfl, rfl, Or.inl rfl, by simp⟩
    · exact ⟨rfl, rfl, rfl, rfl, Or.inr rfl, by simp⟩
  · split
    · exact ⟨rfl, rfl, rfl, rfl, Or.inr rfl, by simp⟩
    · exact ⟨rfl, rfl, rfl, rfl, Or.inr rfl, by simp⟩

/-- A byte to be stored finds the buffer full, ends the packet, or continues it. -/
theorem tsipStore_cases (t : Tsip) (pbuf : Pbuf) (val : UInt8) :
    (pbufSize ≤ t.rxCount ∧ tsipStore t pbuf val = { st := t.reset, rc := .feedUnknown }) ∨
    (t.rxCount < pbufSize ∧
      ((val = 0x03 ∧ t.rxDleCount % 2 = 0 ∧ tsipStore t pbuf val =
          { tsipComplete { t with rxCount := (t.rxCount + 1) % 256 }
              (pbuf.store [(t.rxCount, val)]) with writes := [(t.rxCount, val)] }) ∨
        (¬ (val = 0x03 ∧ t.rxDleCount % 2 = 0) ∧ tsipStore t pbuf val =
          { st := { t with rxCount := (t.rxCount + 1) % 256 }
            rc := .feedContinue
            writes := [(t.rxCount, val)] }))) := by
  unfold tsipStore
  -- no room: the packet is dropped
  split
  · next h_full => exact Or.inl ⟨h_full, rfl⟩
  · next h_room =>
    refine Or.inr ⟨not_le.mp h_room, ?_⟩
    dsimp only
    split
    -- an ETX behind an even number of DLEs ends the packet
    · next h_end => exact Or.inl ⟨h_end.1, h_end.2, rfl⟩
    · next h_on => exact Or.inr ⟨h_on, rfl⟩

/-- A byte is stored behind the others or not at all. -/
theorem tsipFeed_stores (t : Tsip) (pbuf : Pbuf) (tick : ℕ) (val : UInt8) :
    (tsipFeed t pbuf tick val).cuts = [] ∧
      ((tsipFeed t pbuf tick val).writes = [] ∨ (t.fresh tick).rxCount < pbufSize ∧
        (tsipFeed t pbuf tick val).writes = [((t.fresh tick).rxCount, val)]) := by
  rcases tsipFeed_cases t pbuf tick val with ⟨-, -, -, h_eq⟩ | ⟨-, -, h_eq⟩ | ⟨-, -, h_eq⟩ <;>
    rw [h_eq]
  · exact ⟨rfl, Or.inl rfl⟩
  · exact ⟨rfl, Or.inl rfl⟩
  · rcases tsipStore_cases (t.arrive tick val) pbuf val with ⟨-, h_eq⟩ |
      ⟨h_room, ⟨-, -, h_eq⟩ | ⟨-, h_eq⟩⟩ <;> rw [h_eq]
    · exact ⟨rfl, Or.inl rfl⟩
    · exact ⟨(tsipComplete_cases _ _).2.2.2.1, Or.inr ⟨h_room, rfl⟩⟩
    · exact ⟨rfl, Or.inr ⟨h_room, rfl⟩⟩

/-! ### The counters -/

/-- The counters of a reachable parser. The DLE counter does not outrun the bytes
stored: of every two DLEs after the first, one is stored. So it reaches 255 only
with the buffer full, and is 0 only outside a packet. -/
structure Tsip.Ok (t : Tsip) : Prop where
  room : t.rxCount ≤ pbufSize
  byte : t.rxDleCount < 256
  idle : t.rxDleCount = 0 → t.rxCount = 0
  packet : t.rxDleCount ≠ 0 → t.rxDleCount / 2 + 1 ≤ t.rxCount

theorem Tsip.Ok.powerUp : Tsip.powerUp.Ok := ⟨by decide, by decide, by decide, by decide⟩

theorem Tsip.Ok.reset (t : Tsip) : t.reset.Ok :=
  ⟨Nat.zero_le _, by simp [Tsip.reset], fun _ => rfl, fun h => absurd rfl h⟩

theorem Tsip.Ok.fresh {t : Tsip} (h : t.Ok) (tick : ℕ) : (t.fresh tick).Ok := by
  unfold Tsip.fresh
  split
  · exact .reset t
  · exact h

/-- The byte that is looked at has been counted, and not yet stored. -/
theorem Tsip.Ok.store {t : Tsip} (h : t.Ok) {val : UInt8} {dle : ℕ}
    (h_dle : dle = if val = 0x10 then (t.rxDleCount + 1) % 256 else t.rxDleCount)
    (h_some : val = 0x10 ∨ dle ≠ 0) (h_room : t.rxCount < pbufSize) (tick : ℕ) :
    Tsip.Ok { rxCount := (t.rxCount + 1) % 256, rxDleCount := dle, rxLastTick := tick } := by
  obtain ⟨-, h_byte, h_none, h_lower⟩ := h
  simp only [pbufSize] at h_room
  by_cases h_val : val = 0x10
  · -- with room in the buffer the count is too small to wrap
    rw [if_pos h_val] at h_dle
    have h_next : dle = t.rxDleCount + 1 := by omega
    refine ⟨?_, ?_, ?_, ?_⟩ <;> simp only [pbufSize] <;> omega
  · rw [if_neg h_val] at h_dle
    have h_ne := h_some.resolve_left h_val
    refine ⟨?_, ?_, ?_, ?_⟩ <;> simp only [pbufSize] <;> omega

/-- **The counters are kept.** -/
theorem tsipFeed_ok {t : Tsip} (h : t.Ok) (pbuf : Pbuf) (tick : ℕ) (val : UInt8) :
    (tsipFeed t pbuf tick val).st.Ok := by
  have h_fresh := h.fresh tick
  have h_dle : (t.arrive tick val).rxDleCount =
      if val = 0x10 then ((t.fresh tick).rxDleCount + 1) % 256 else (t.fresh tick).rxDleCount :=
    rfl
  rcases tsipFeed_cases t pbuf tick val with ⟨h_val, h_gt, h_odd, h_eq⟩ | ⟨h_val, h_zero, h_eq⟩ |
    ⟨-, h_some, h_eq⟩ <;> rw [h_eq]
  · -- a doubled DLE is counted and not stored; the one before it was, so the bound holds
    obtain ⟨h_room, h_byte, h_none, h_lower⟩ := h_fresh
    rw [if_pos h_val] at h_dle
    have h_count : (t.arrive tick val).rxCount = (t.fresh tick).rxCount := rfl
    refine ⟨?_, ?_, ?_, ?_⟩ <;> dsimp only <;> omega
  · rw [if_neg h_val] at h_dle
    have h_count : (t.arrive tick val).rxCount = (t.fresh tick).rxCount := rfl
    obtain ⟨h_room, h_byte, h_none, h_lower⟩ := h_fresh
    refine ⟨?_, ?_, ?_, ?_⟩ <;> dsimp only <;> omega
  · rcases tsipStore_cases (t.arrive tick val) pbuf val with ⟨-, h_eq⟩ | ⟨h_room, h_or⟩
    · rw [h_eq]; exact .reset _
    · have h_stored := h_fresh.store h_dle h_some h_room tick
      rcases h_or with ⟨-, -, h_eq⟩ | ⟨-, h_eq⟩ <;> rw [h_eq]
      · rcases (tsipComplete_cases { t.arrive tick val with
            rxCount := ((t.arrive tick val).rxCount + 1) % 256 }
            (pbuf.store [((t.arrive tick val).rxCount, val)])).2.2.2.2.1 with h_st | h_st
        · exact h_st.symm ▸ h_stored
        · exact h_st.symm ▸ .reset _
      · exact h_stored

end Gps
end Laureline
