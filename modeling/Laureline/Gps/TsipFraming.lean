import Laureline.Gps.Frame
import Laureline.Gps.Parser
import Laureline.Gps.Run
import Mathlib.Data.List.Chain

/-!
# TSIP frames

A TSIP frame is DLE, a body in which every DLE is doubled, and DLE ETX. The parser recognises it
from the parity of a count of DLEs: the count is odd inside the frame, and even behind a DLE that is
not yet paired.

* `Tsip.Took` is what the parser has when a part of a frame is received;
* `tsip_frame_iff` — a frame that fits into the buffer is received as a whole, unless it is a time
  packet without the time, or the tick count comes round in it.
-/

namespace Laureline
namespace Gps

open Run

/-! ### Frames -/

/-- A body with every DLE doubled. -/
def stuff (body : List UInt8) : List UInt8 :=
  body.flatMap fun b => if b = 0x10 then [0x10, 0x10] else [b]

@[simp] theorem stuff_nil : stuff [] = [] := rfl

theorem stuff_cons (b : UInt8) (body : List UInt8) :
    stuff (b :: body) = (if b = 0x10 then [0x10, 0x10] else [b]) ++ stuff body := rfl

theorem stuff_append (xs ys : List UInt8) : stuff (xs ++ ys) = stuff xs ++ stuff ys :=
  List.flatMap_append

/-- The body of a packet: an id and data. -/
structure TsipBody where
  id : UInt8
  data : List UInt8
  id_ne : id ≠ 0x10

namespace TsipBody

variable (b : TsipBody)

/-- The bytes between the framing, before DLEs are doubled. -/
def bytes : List UInt8 := b.id :: b.data

/-- The bytes on the wire. -/
def frame : List UInt8 := 0x10 :: stuff b.bytes ++ [0x10, 0x03]

/-- The bytes in the buffer. -/
def image : List UInt8 := 0x10 :: b.bytes ++ [0x10, 0x03]

theorem length_image : b.image.length = b.bytes.length + 3 := by simp [image]

end TsipBody

/-- `tsip_feed` for an input. -/
def tsipByte (t : Tsip) (p : Pbuf) (x : Input) : Out Tsip := tsipFeed t p x.tick.toNat x.data

/-- No gap of more than `PACKET_TIMEOUT` between two bytes. -/
def Gapless (xs : List Input) : Prop :=
  xs.IsChain fun x y => (y.tick - x.tick).toNat ≤ packetTimeout

/-- The tick count does not come round. -/
def Rising (xs : List Input) : Prop := xs.IsChain fun x y => x.tick ≤ y.tick

/-- No byte finds the packet of the bytes before stale. -/
def Unbroken (last : ℕ) : List Input → Prop
  | [] => True
  | x :: xs => ticksSince x.tick.toNat last ≤ packetTimeout ∧ Unbroken x.tick.toNat xs

/-- The parser subtracts in 64 bits a tick count of 32. -/
theorem ticksSince_le_iff (x y : UInt32) :
    ticksSince y.toNat x.toNat ≤ packetTimeout ↔ (y - x).toNat ≤ packetTimeout ∧ x ≤ y := by
  have hx := x.toNat_lt
  have hy := y.toNat_lt
  rw [UInt32.le_iff_toNat_le, UInt32.toNat_sub]
  simp only [ticksSince, u64, packetTimeout]
  omega

/-- The bytes are close and the tick count does not come round. -/
theorem unbroken_iff (x : Input) (xs : List Input) :
    Unbroken x.tick.toNat xs ↔ Gapless (x :: xs) ∧ Rising (x :: xs) := by
  induction xs generalizing x with
  | nil => simp [Unbroken, Gapless, Rising]
  | cons y xs ih =>
    rw [Unbroken, ticksSince_le_iff, ih]
    simp only [Gapless, Rising, List.isChain_cons_cons]
    tauto

/-- Every byte is the last one for the timeout. -/
theorem tsipByte_rxLastTick (t : Tsip) (p : Pbuf) (x : Input) :
    (tsipByte t p x).st.rxLastTick = x.tick.toNat := by
  unfold tsipByte
  rcases tsipFeed_cases t p x.tick.toNat x.data with ⟨-, -, -, h_eq⟩ | ⟨-, -, h_eq⟩ | ⟨-, -, h_eq⟩
  · rw [h_eq]; rfl
  · rw [h_eq]; rfl
  · rw [h_eq]
    rcases tsipStore_cases (t.arrive x.tick.toNat x.data) p x.data with ⟨-, h_eq⟩ | ⟨-, h_or⟩
    · rw [h_eq]; rfl
    · rcases h_or with ⟨-, -, h_eq⟩ | ⟨-, h_eq⟩ <;> rw [h_eq]
      · obtain ⟨-, -, -, -, h_st, -⟩ := tsipComplete_cases
          { t.arrive x.tick.toNat x.data with
            rxCount := ((t.arrive x.tick.toNat x.data).rxCount + 1) % 256 }
          (p.store [((t.arrive x.tick.toNat x.data).rxCount, x.data)])
        dsimp only
        rcases h_st with h_st | h_st <;> rw [h_st] <;> rfl
      · rfl

/-- The tick of the last byte. -/
def lastTick (last : ℕ) : List Input → ℕ
  | [] => last
  | x :: xs => lastTick x.tick.toNat xs

theorem after_rxLastTick (c : Tsip × Pbuf) (xs : List Input) :
    (after tsipByte c xs).1.rxLastTick = lastTick c.1.rxLastTick xs := by
  induction xs generalizing c with
  | nil => rfl
  | cons x xs ih =>
    have h_tick : (next tsipByte c x).1.rxLastTick = x.tick.toNat := tsipByte_rxLastTick _ _ x
    rw [after_cons, ih, h_tick, lastTick]

theorem unbroken_append (last : ℕ) (xs ys : List Input) :
    Unbroken last (xs ++ ys) ↔ Unbroken last xs ∧ Unbroken (lastTick last xs) ys := by
  induction xs generalizing last with
  | nil => simp [Unbroken, lastTick]
  | cons x xs ih => rw [List.cons_append, Unbroken, Unbroken, ih, and_assoc, lastTick]

/-! ### One byte of a frame -/

/-- The end of a packet clears the counters, but for a time packet without the time. -/
theorem tsipComplete_idle_iff {t : Tsip} (h : t.rxDleCount ≠ 0) (p : Pbuf) :
    ((tsipComplete t p).st.rxCount = 0 ∧ (tsipComplete t p).st.rxDleCount = 0) ↔
      ¬ (t.rxCount ≥ 19 ∧ p 1 = 0x8F ∧ p 2 = 0xAB ∧ p 11 &&& (0x04 ||| 0x08) ≠ 0) := by
  unfold tsipComplete
  by_cases h_time : t.rxCount ≥ 19 ∧ p 1 = 0x8F ∧ p 2 = 0xAB
  · by_cases h_flags : p 11 &&& (0x04 ||| 0x08) ≠ 0
    · simp [h_time, h_flags, h]
    · simp [h_time, h_flags, Tsip.reset]
  · rw [if_neg h_time]
    split <;> simp [Tsip.reset] <;> tauto

namespace Tsip

/-- A part of a frame is in the buffer. After an odd number of DLEs a byte is data, and after an
even number of them a DLE is waiting for the second one of its pair, or for ETX. -/
structure Took (parity : ℕ) (got : List UInt8) (c : Tsip × Pbuf) : Prop where
  count : c.1.rxCount = got.length
  parity : c.1.rxDleCount % 2 = parity
  some : c.1.rxDleCount ≠ 0
  few : c.1.rxDleCount / 2 + 1 ≤ got.length
  stored : (List.range got.length).map c.2 = got

variable {c : Tsip × Pbuf} {x : Input} {got : List UInt8} {parity : ℕ}

theorem fresh_of_le {t : Tsip} {tick : ℕ} (h : ticksSince tick t.rxLastTick ≤ packetTimeout) :
    t.fresh tick = t := if_neg (Nat.not_lt.mpr h)

/-- A byte that is stored, counted or not. -/
theorem Took.store (h : Took parity got c) (b : UInt8) {c' : Tsip × Pbuf}
    (h_count : c'.1.rxCount = got.length + 1) (h_pbuf : c'.2 = c.2.store [(got.length, b)])
    (h_dle : c'.1.rxDleCount = c.1.rxDleCount ∨ c'.1.rxDleCount = c.1.rxDleCount + 1)
    {parity' : ℕ} (h_parity : c'.1.rxDleCount % 2 = parity') : Took parity' (got ++ [b]) c' := by
  have h_some := h.some
  have h_few := h.few
  refine ⟨?_, h_parity, by omega, ?_, ?_⟩
  · rw [h_count, List.length_append, List.length_singleton]
  · rw [List.length_append, List.length_singleton]; omega
  · rw [h_pbuf]; exact Pbuf.store_append h.stored b

/-- The first byte of a frame. -/
theorem took_open (h_count : c.1.rxCount = 0) (h_dle : c.1.rxDleCount = 0)
    (h_data : x.data = 0x10) :
    (tsipByte c.1 c.2 x).rc = .feedContinue ∧ Took 1 [0x10] (next tsipByte c x) := by
  have h_idle : (c.1.fresh x.tick.toNat).rxCount = 0 ∧ (c.1.fresh x.tick.toNat).rxDleCount = 0 := by
    unfold fresh
    split
    · exact ⟨rfl, rfl⟩
    · exact ⟨h_count, h_dle⟩
  have h_out : tsipByte c.1 c.2 x =
      { st := ⟨1, 1, x.tick.toNat⟩, rc := .feedContinue, writes := [(0, 0x10)] } := by
    simp [tsipByte, tsipFeed, h_idle, h_data, tsipStore, pbufSize]
  rw [Run.next, h_out]
  exact ⟨rfl, rfl, rfl, Nat.one_ne_zero, by simp, by simp [Pbuf.cut]⟩

/-- A byte of data other than DLE. -/
theorem Took.plain (h : Took 1 got c) (h_room : got.length < pbufSize)
    (h_gap : ticksSince x.tick.toNat c.1.rxLastTick ≤ packetTimeout) (h_data : x.data ≠ 0x10) :
    (tsipByte c.1 c.2 x).rc = .feedContinue ∧ Took 1 (got ++ [x.data]) (next tsipByte c x) := by
  have h_byte : (got.length + 1) % 256 = got.length + 1 := by
    simp only [pbufSize] at h_room; omega
  have h_out : tsipByte c.1 c.2 x =
      { st := ⟨got.length + 1, c.1.rxDleCount, x.tick.toNat⟩
        rc := .feedContinue
        writes := [(got.length, x.data)] } := by
    simp [tsipByte, tsipFeed, fresh_of_le h_gap, h_data, h.some, tsipStore, h.count,
      Nat.not_le.mpr h_room, h.parity, h_byte]
  rw [Run.next, h_out]
  refine ⟨rfl, h.store x.data ?_ ?_ (Or.inl ?_) h.parity⟩ <;> rfl

/-- A DLE that is not paired yet. -/
theorem Took.dle (h : Took 1 got c) (h_room : got.length < pbufSize)
    (h_gap : ticksSince x.tick.toNat c.1.rxLastTick ≤ packetTimeout) (h_data : x.data = 0x10) :
    (tsipByte c.1 c.2 x).rc = .feedContinue ∧ Took 0 (got ++ [0x10]) (next tsipByte c x) := by
  have h_few := h.few
  have h_parity := h.parity
  simp only [pbufSize] at h_room
  -- neither counter wraps
  have h_byte : (got.length + 1) % 256 = got.length + 1 := by omega
  have h_dle : (c.1.rxDleCount + 1) % 256 = c.1.rxDleCount + 1 := by omega
  have h_even : (c.1.rxDleCount + 1) % 2 = 0 := by omega
  -- the DLE is stored, since it is the first of a pair
  have h_out : tsipByte c.1 c.2 x =
      { st := ⟨got.length + 1, c.1.rxDleCount + 1, x.tick.toNat⟩
        rc := .feedContinue
        writes := [(got.length, 0x10)] } := by
    simp [tsipByte, tsipFeed, fresh_of_le h_gap, h_data, tsipStore, h.count, h_dle, h_even,
      pbufSize, Nat.not_le.mpr h_room, h_byte]
  rw [Run.next, h_out]
  refine ⟨rfl, h.store 0x10 ?_ ?_ (Or.inr ?_) (by dsimp only; omega)⟩ <;> rfl

/-- The second DLE of a pair is counted and not stored. -/
theorem Took.pair (h : Took 0 got c) (h_room : got.length ≤ pbufSize)
    (h_gap : ticksSince x.tick.toNat c.1.rxLastTick ≤ packetTimeout) (h_data : x.data = 0x10) :
    (tsipByte c.1 c.2 x).rc = .feedContinue ∧ Took 1 got (next tsipByte c x) := by
  have h_few := h.few
  have h_parity := h.parity
  have h_some := h.some
  simp only [pbufSize] at h_room
  have h_dle : (c.1.rxDleCount + 1) % 256 = c.1.rxDleCount + 1 := by omega
  have h_odd : 2 < c.1.rxDleCount + 1 ∧ (c.1.rxDleCount + 1) % 2 = 1 := by omega
  have h_out : tsipByte c.1 c.2 x =
      { st := ⟨got.length, c.1.rxDleCount + 1, x.tick.toNat⟩, rc := .feedContinue } := by
    simp [tsipByte, tsipFeed, fresh_of_le h_gap, h_data, h_dle, h_odd, h.count]
  rw [Run.next, h_out]
  exact ⟨rfl, rfl, h_odd.2, Nat.succ_ne_zero _, by dsimp only; omega, h.stored⟩

/-- The end of a frame. -/
theorem Took.etx (h : Took 0 got c) (h_room : got.length < pbufSize)
    (h_gap : ticksSince x.tick.toNat c.1.rxLastTick ≤ packetTimeout) (h_data : x.data = 0x03) :
    tsipByte c.1 c.2 x =
      { tsipComplete ⟨got.length + 1, c.1.rxDleCount, x.tick.toNat⟩
          (c.2.store [(got.length, 0x03)]) with
        writes := [(got.length, 0x03)] } := by
  have h_byte : (got.length + 1) % 256 = got.length + 1 := by
    simp only [pbufSize] at h_room; omega
  simp [tsipByte, tsipFeed, fresh_of_le h_gap, h_data, h.some, tsipStore, h.count,
    Nat.not_le.mpr h_room, h.parity, h_byte]

/-- What the end of a frame leaves behind. -/
theorem Took.complete (h : Took 0 got c) (h_room : got.length < pbufSize)
    (h_gap : ticksSince x.tick.toNat c.1.rxLastTick ≤ packetTimeout) (h_data : x.data = 0x03) :
    (tsipByte c.1 c.2 x).rc = .feedComplete ∧
      (tsipByte c.1 c.2 x).filled = (got ++ [0x03]).length ∧
      (List.range (got ++ [0x03]).length).map (next tsipByte c x).2 = got ++ [0x03] ∧
      (((next tsipByte c x).1.rxCount = 0 ∧ (next tsipByte c x).1.rxDleCount = 0) ↔
        ¬ ((got ++ [0x03]).length ≥ 19 ∧ (next tsipByte c x).2 1 = 0x8F ∧
          (next tsipByte c x).2 2 = 0xAB ∧
          (next tsipByte c x).2 11 &&& (0x04 ||| 0x08) ≠ 0)) := by
  have h_out := h.etx h_room h_gap h_data
  obtain ⟨h_rc, h_filled, -, h_cuts, -, -⟩ := tsipComplete_cases
    ⟨got.length + 1, c.1.rxDleCount, x.tick.toNat⟩ (c.2.store [(got.length, 0x03)])
  -- the ETX is stored behind the body, and nothing of the buffer is cut
  have h_next : next tsipByte c x =
      ((tsipComplete ⟨got.length + 1, c.1.rxDleCount, x.tick.toNat⟩
        (c.2.store [(got.length, 0x03)])).st, c.2.store [(got.length, 0x03)]) := by
    simp only [Run.next, h_out, h_cuts, Pbuf.cut, List.map_nil, Pbuf.store_nil]
  rw [h_next, h_out]
  refine ⟨h_rc, ?_, Pbuf.store_append h.stored 0x03, ?_⟩
  · rw [List.length_append, List.length_singleton]; exact h_filled
  · rw [List.length_append, List.length_singleton]
    have h_idle := tsipComplete_idle_iff (t := ⟨got.length + 1, c.1.rxDleCount, x.tick.toNat⟩)
      h.some (c.2.store [(got.length, 0x03)])
    exact h_idle

/-- The rest of a body. -/
theorem Took.body {body : List UInt8} {xs : List Input} (h : Took 1 got c)
    (h_data : xs.map Input.data = stuff body) (h_room : got.length + body.length ≤ pbufSize)
    (h_gap : Unbroken c.1.rxLastTick xs) :
    (outs tsipByte c xs).map Out.rc = List.replicate xs.length .feedContinue ∧
      Took 1 (got ++ body) (after tsipByte c xs) := by
  -- the induction is over the body before stuffing: a DLE takes two bytes of the wire
  induction body generalizing c got xs with
  | nil =>
    obtain rfl := List.map_eq_nil_iff.mp h_data
    rw [List.append_nil]
    exact ⟨rfl, h⟩
  | cons b body ih =>
    rw [stuff_cons] at h_data
    rw [List.length_cons] at h_room
    split at h_data
    · next h_dle =>
      subst h_dle
      obtain ⟨x, xs, rfl, h_x, h_data⟩ := List.map_eq_cons_iff.mp h_data
      obtain ⟨y, xs, rfl, h_y, h_data⟩ := List.map_eq_cons_iff.mp h_data
      obtain ⟨h_gap_x, h_gap_y, h_gap⟩ := h_gap
      -- the first DLE of the pair is held back, the second one is stored
      obtain ⟨h_rc_x, h_half⟩ := h.dle (by omega) h_gap_x h_x
      rw [← tsipByte_rxLastTick c.1 c.2 x] at h_gap_y
      obtain ⟨h_rc_y, h_took⟩ := h_half.pair (by simp; omega) h_gap_y h_y
      rw [← tsipByte_rxLastTick (next tsipByte c x).1 (next tsipByte c x).2 y] at h_gap
      obtain ⟨h_rcs, h_all⟩ := ih h_took h_data (by simp; omega) h_gap
      rw [List.append_assoc] at h_all
      refine ⟨?_, h_all⟩
      rw [outs_cons, outs_cons, List.map_cons, List.map_cons, h_rc_x, h_rc_y, h_rcs]
      rfl
    · next h_ne =>
      obtain ⟨x, xs, rfl, rfl, h_rest⟩ := List.map_eq_cons_iff.mp h_data
      obtain ⟨h_gap_x, h_gap⟩ := h_gap
      -- any other byte is stored as it comes
      obtain ⟨h_rc, h_took⟩ := h.plain (by omega) h_gap_x h_ne
      rw [← tsipByte_rxLastTick c.1 c.2 x] at h_gap
      obtain ⟨h_rcs, h_all⟩ := ih h_took h_rest (by simp; omega) h_gap
      rw [List.append_assoc] at h_all
      refine ⟨?_, h_all⟩
      rw [outs_cons, List.map_cons, h_rc, h_rcs]
      rfl

/-- A frame up to its ETX. -/
theorem took_frame {b : TsipBody} (h_fits : b.bytes.length ≤ 125) (h_count : c.1.rxCount = 0)
    (h_dle : c.1.rxDleCount = 0) {xs : List Input} (h_data : xs.map Input.data = b.frame)
    (h_gap : Gapless xs ∧ Rising xs) :
    ∃ init last, xs = init ++ [last] ∧ last.data = 0x03 ∧
      (outs tsipByte c init).map Out.rc = List.replicate init.length .feedContinue ∧
      Took 0 (0x10 :: b.bytes ++ [0x10]) (after tsipByte c init) ∧
      ticksSince last.tick.toNat (after tsipByte c init).1.rxLastTick ≤ packetTimeout := by
  obtain ⟨x, xs, rfl, h_x, h_xs⟩ := List.map_eq_cons_iff.mp h_data
  obtain ⟨ys, zs, rfl, h_ys, h_zs⟩ := List.map_eq_append_iff.mp h_xs
  obtain ⟨y, zs, rfl, h_y, h_zs⟩ := List.map_eq_cons_iff.mp h_zs
  obtain ⟨z, zs, rfl, h_z, h_zs⟩ := List.map_eq_cons_iff.mp h_zs
  obtain rfl := List.map_eq_nil_iff.mp h_zs
  obtain ⟨h_rc_x, h_open⟩ := took_open h_count h_dle h_x
  -- the gaps, one part of the frame after the other
  have h_unbroken := (unbroken_iff x _).mpr h_gap
  rw [← tsipByte_rxLastTick c.1 c.2 x] at h_unbroken
  obtain ⟨h_gap_ys, h_gap_end⟩ := (unbroken_append _ ys [y, z]).mp h_unbroken
  have h_room : [(0x10 : UInt8)].length + b.bytes.length ≤ pbufSize := by
    simp only [List.length_singleton, pbufSize]; omega
  obtain ⟨h_rcs, h_body⟩ := h_open.body h_ys h_room h_gap_ys
  obtain ⟨h_gap_y, h_gap_z, -⟩ := h_gap_end
  replace h_gap_y : ticksSince y.tick.toNat
      (after tsipByte (next tsipByte c x) ys).1.rxLastTick ≤ packetTimeout := by
    rw [after_rxLastTick]; exact h_gap_y
  obtain ⟨h_rc_y, h_took⟩ := h_body.dle (by simp [pbufSize]; omega) h_gap_y h_y
  rw [← tsipByte_rxLastTick _ (after tsipByte (next tsipByte c x) ys).2 y] at h_gap_z
  have h_after : after tsipByte c (x :: ys ++ [y]) =
      next tsipByte (after tsipByte (next tsipByte c x) ys) y := by
    rw [after_concat, after_cons]
  refine ⟨x :: ys ++ [y], z, by simp, h_z, ?_, ?_, ?_⟩
  · rw [outs_append, outs_cons, List.map_append, List.map_cons, h_rc_x, h_rcs, after_cons]
    simp only [outs_cons, outs_nil, List.map_cons, List.map_nil, h_rc_y]
    rw [← List.replicate_succ, ← List.replicate_succ']
    simp
  · rw [h_after]; exact h_took
  · rw [h_after]; exact h_gap_z

end Tsip

/-! ### A frame that is broken -/

/-- The DLEs of a sequence. -/
def dles (bs : List UInt8) : ℕ := bs.countP (· = 0x10)

/-- The other bytes of a sequence. -/
def others (bs : List UInt8) : ℕ := bs.countP (· ≠ 0x10)

@[simp] theorem dles_append (xs ys : List UInt8) : dles (xs ++ ys) = dles xs + dles ys :=
  List.countP_append

@[simp] theorem others_append (xs ys : List UInt8) : others (xs ++ ys) = others xs + others ys :=
  List.countP_append

theorem counts_cons (b : UInt8) (bs : List UInt8) :
    dles (b :: bs) = (if b = 0x10 then 1 else 0) + dles bs ∧
      others (b :: bs) = (if b = 0x10 then 0 else 1) + others bs := by
  by_cases h : b = 0x10 <;> simp [dles, others, h, Nat.add_comm]

theorem length_eq_counts (bs : List UInt8) : bs.length = dles bs + others bs := by
  induction bs with
  | nil => rfl
  | cons b bs ih =>
    rw [List.length_cons, ih, (counts_cons b bs).1, (counts_cons b bs).2]
    split <;> omega

theorem counts_stuff (bs : List UInt8) :
    dles (stuff bs) = 2 * dles bs ∧ others (stuff bs) = others bs := by
  induction bs with
  | nil => exact ⟨rfl, rfl⟩
  | cons b bs ih =>
    rw [stuff_cons, dles_append, others_append, ih.1, ih.2, (counts_cons b bs).1,
      (counts_cons b bs).2]
    split
    · exact ⟨(Nat.mul_add 2 1 _).symm, rfl⟩
    · next h =>
      rw [(counts_cons b []).1, (counts_cons b []).2, if_neg h, if_neg h]
      simp [dles, others]

/-- The number of bytes stored, of which this many have been seen. -/
structure Tsip.Bounded (o d : ℕ) (t : Tsip) : Prop where
  dle_le : t.rxDleCount ≤ d
  idle : t.rxDleCount = 0 → t.rxCount = 0
  few : t.rxDleCount ≠ 0 → t.rxCount ≤ o + t.rxDleCount / 2 + 1

namespace Tsip

theorem Bounded.reset (t : Tsip) (o d : ℕ) : Bounded o d t.reset :=
  ⟨Nat.zero_le _, fun _ => rfl, fun h => absurd rfl h⟩

theorem Bounded.fresh {o d : ℕ} {t : Tsip} (h : Bounded o d t) (tick : ℕ) :
    Bounded o d (t.fresh tick) := by
  unfold Tsip.fresh
  split
  · exact .reset t o d
  · exact h

/-- One byte more: it is counted, and stored unless it is the second DLE of a pair. -/
theorem Bounded.next {o d : ℕ} {t : Tsip} {x : Input} (h : Bounded o d (t.fresh x.tick.toNat))
    (h_d : d + dles [x.data] < 256) (p : Pbuf) :
    Bounded (o + others [x.data]) (d + dles [x.data]) (tsipByte t p x).st ∧
      (tsipByte t p x).filled ≤ o + others [x.data] + (d + dles [x.data]) / 2 + 1 := by
  obtain ⟨h_le, h_idle, h_few⟩ := h
  have h_dle : (t.arrive x.tick.toNat x.data).rxDleCount =
      if x.data = 0x10 then ((t.fresh x.tick.toNat).rxDleCount + 1) % 256
      else (t.fresh x.tick.toNat).rxDleCount := rfl
  have h_count : (t.arrive x.tick.toNat x.data).rxCount = (t.fresh x.tick.toNat).rxCount := rfl
  have h_one := counts_cons x.data []
  simp only [show dles [] = 0 from rfl, show others [] = 0 from rfl, Nat.add_zero] at h_one
  -- the byte counts as a DLE or as another byte
  rw [h_one.1] at h_d ⊢
  rw [h_one.2]
  have h_mod := Nat.mod_le ((t.arrive x.tick.toNat x.data).rxCount + 1) 256
  have h_cases := tsipFeed_cases t p x.tick.toNat x.data
  unfold tsipByte
  generalize t.arrive x.tick.toNat x.data = a at h_dle h_count h_mod h_cases
  rcases h_cases with ⟨h_val, h_gt, h_odd, h_eq⟩ | ⟨h_val, h_zero, h_eq⟩ | ⟨h_not, h_some, h_eq⟩
  · -- a pair of DLEs has one of them stored
    rw [h_eq]
    simp only [if_pos h_val] at h_dle h_d ⊢
    refine ⟨⟨?_, ?_, ?_⟩, Nat.zero_le _⟩ <;> omega
  · rw [h_eq]
    simp only [if_neg h_val] at h_dle h_d ⊢
    refine ⟨⟨?_, ?_, ?_⟩, Nat.zero_le _⟩ <;> omega
  · have h_stored : Bounded (o + if x.data = 0x10 then 0 else 1)
        (d + if x.data = 0x10 then 1 else 0) { a with rxCount := (a.rxCount + 1) % 256 } := by
      by_cases h_val : x.data = 0x10
      · simp only [if_pos h_val] at h_dle h_d ⊢
        have h_even : ¬ (2 < a.rxDleCount ∧ a.rxDleCount % 2 = 1) := fun h => h_not ⟨h_val, h⟩
        refine ⟨?_, ?_, ?_⟩ <;> dsimp only <;> omega
      · simp only [if_neg h_val] at h_dle h_d ⊢
        have h_ne := h_some.resolve_left h_val
        refine ⟨?_, ?_, ?_⟩ <;> dsimp only <;> omega
    -- a byte that is stored is refused as the id, ends the packet, or goes on
    rw [h_eq]
    rcases tsipStore_cases a p x.data with ⟨-, h_eq⟩ | ⟨-, ⟨h_etx, -, h_eq⟩ | ⟨-, h_eq⟩⟩ <;>
      rw [h_eq]
    · exact ⟨.reset _ _ _, Nat.zero_le _⟩
    · obtain ⟨-, h_filled, -, -, h_st, -⟩ := tsipComplete_cases
        { a with rxCount := (a.rxCount + 1) % 256 } (p.store [(a.rxCount, x.data)])
      refine ⟨?_, ?_⟩
      · dsimp only
        rcases h_st with h_st | h_st <;> rw [h_st]
        · exact h_stored
        · exact .reset _ _ _
      · dsimp only
        rw [h_filled]
        have h_ne : x.data ≠ 0x10 := by rw [h_etx]; decide
        have h_pos := h_some.resolve_left h_ne
        have h_bound := h_stored.few h_pos
        have h_small := h_stored.dle_le
        dsimp only at h_bound h_small ⊢
        omega
    · exact ⟨h_stored, Nat.zero_le _⟩

/-- No packet that ends after the bytes seen is longer than they allow. -/
theorem Bounded.filled_le {o d : ℕ} {c : Tsip × Pbuf} {x : Input} {xs : List Input}
    (h : Bounded o d (c.1.fresh x.tick.toNat)) (h_d : d + dles ((x :: xs).map Input.data) < 256) :
    ∀ out ∈ outs tsipByte c (x :: xs), out.filled ≤
      o + others ((x :: xs).map Input.data) + (d + dles ((x :: xs).map Input.data)) / 2 + 1 := by
  induction xs generalizing o d c x with
  | nil =>
    intro out h_out
    rw [outs_cons, outs_nil, List.mem_singleton] at h_out
    rw [h_out]
    exact (h.next h_d c.2).2
  | cons y ys ih =>
    -- the counts of the run are those of its first byte and of the rest
    have h_dles : dles ((x :: y :: ys).map Input.data) =
        dles [x.data] + dles ((y :: ys).map Input.data) := dles_append [x.data] _
    have h_others : others ((x :: y :: ys).map Input.data) =
        others [x.data] + others ((y :: ys).map Input.data) := others_append [x.data] _
    rw [h_dles] at h_d ⊢
    rw [h_others]
    -- the first byte moves the bound, and the rest starts from there
    obtain ⟨h_next, h_filled⟩ := h.next (by omega) c.2
    have h_rest := ih (c := Run.next tsipByte c x) (h_next.fresh y.tick.toNat) (by omega)
    intro out h_out
    rw [outs_cons] at h_out
    rcases List.mem_cons.mp h_out with rfl | h_out
    · omega
    · have h_le := h_rest out h_out
      omega

/-- A frame in which the counters are cleared is not received: the id is refused, or what comes
after it is too short. -/
theorem not_received_of_reset {c : Tsip × Pbuf} {b : TsipBody} (h_fits : b.bytes.length ≤ 125)
    {pre post : List Input} {x y : Input}
    (h_data : (pre ++ x :: y :: post).map Input.data = b.frame)
    (h_reset : (after tsipByte c (pre ++ [x])).1.fresh y.tick.toNat =
      (after tsipByte c (pre ++ [x])).1.reset)
    (h_taken : ∀ out ∈ outs tsipByte c (pre ++ x :: y :: post), out.rc ≠ .feedUnknown) :
    (outs tsipByte c (pre ++ x :: y :: post)).getLast?.map Out.filled ≠ some b.image.length := by
  intro h_filled
  rw [List.append_cons, outs_append] at h_taken h_filled
  generalize h_after : after tsipByte c (pre ++ [x]) = c' at h_reset h_taken h_filled
  cases pre with
  | nil =>
    -- the first byte after the opening DLE
    have h_y : y.data = b.id := by
      simp only [TsipBody.frame, TsipBody.bytes, stuff_cons, if_neg b.id_ne, List.nil_append,
        List.map_cons, List.cons_append, List.cons.injEq] at h_data
      exact h_data.2.1
    refine h_taken (tsipByte c'.1 c'.2 y) (by simp) ?_
    simp [tsipByte, tsipFeed, h_reset, h_y, b.id_ne, Tsip.reset]
  | cons w pre =>
    obtain ⟨out, h_out, h_eq⟩ : ∃ out ∈ outs tsipByte c' (y :: post),
        out.filled = b.image.length := by
      rw [List.getLast?_append_of_ne_nil _ (by simp), Option.map_eq_some_iff] at h_filled
      obtain ⟨out, h_last, h_eq⟩ := h_filled
      exact ⟨out, List.mem_of_getLast? h_last, h_eq⟩
    have h_counts : dles b.frame = 2 * dles b.bytes + 2 ∧ others b.frame = others b.bytes + 1 := by
      have h_stuff := counts_stuff b.bytes
      simp only [TsipBody.frame, List.cons_append, counts_cons, dles_append, others_append,
        h_stuff.1, h_stuff.2]
      constructor
      · simp [dles]; omega
      · simp [others]
    have h_start : 1 ≤ dles ((w :: pre ++ [x]).map Input.data) ∧
        1 ≤ others ((w :: pre ++ [x]).map Input.data) := by
      obtain ⟨v, vs, h_cons⟩ := List.exists_cons_of_ne_nil (l := pre ++ [x]) (by simp)
      rw [List.append_cons, List.cons_append, h_cons] at h_data
      simp only [TsipBody.frame, TsipBody.bytes, stuff_cons, if_neg b.id_ne, List.cons_append,
        List.nil_append, List.map_cons, List.map_append, List.cons.injEq] at h_data
      rw [List.cons_append, h_cons, List.map_cons, List.map_cons, h_data.1, h_data.2.1]
      simp only [counts_cons, if_neg b.id_ne, if_true]
      omega
    have h_len := length_eq_counts b.bytes
    have h_image := b.length_image
    rw [List.append_cons, List.map_append] at h_data
    rw [← h_data, dles_append, others_append] at h_counts
    have h_bounded : Bounded 0 0 (c'.1.fresh y.tick.toNat) := h_reset ▸ .reset _ 0 0
    have h_le := h_bounded.filled_le (c := c') (by omega) out h_out
    omega

end Tsip

/-! ### A frame as a whole -/

/-- A time packet whose flags say that the time or the offset to UTC is not known. -/
def TsipBody.Untimed (b : TsipBody) : Prop :=
  16 ≤ b.bytes.length ∧ b.bytes[0]? = some 0x8F ∧ b.bytes[1]? = some 0xAB ∧
    ∃ flags, b.bytes[10]? = some flags ∧ flags &&& (0x04 ||| 0x08) ≠ 0

/-- The frame is received: the codes, the packet in the buffer, and the idle parser after it. -/
structure Received (c : Tsip × Pbuf) (b : TsipBody) (xs : List Input) : Prop where
  codes : (outs tsipByte c xs).map Out.rc =
    List.replicate (xs.length - 1) .feedContinue ++ [.feedComplete]
  filled : (outs tsipByte c xs).getLast?.map Out.filled = some b.image.length
  pbuf : (List.range b.image.length).map (after tsipByte c xs).2 = b.image
  idle : (after tsipByte c xs).1.rxCount = 0 ∧ (after tsipByte c xs).1.rxDleCount = 0

/-- A packet in the buffer, byte by byte. -/
theorem TsipBody.bytes_at {b : TsipBody} {p : Pbuf}
    (h : (List.range b.image.length).map p = b.image) {i : ℕ} (hi : i < b.bytes.length) :
    b.bytes[i]? = some (p (i + 1)) := by
  have h_len := b.length_image
  have h_at : b.image[i + 1]? = some (p (i + 1)) := by
    rw [← h, List.getElem?_map, List.getElem?_range (by omega), Option.map_some]
  rw [← h_at, TsipBody.image, List.cons_append, List.getElem?_cons_succ,
    List.getElem?_append_left hi]

/-- The condition in the buffer is the one on the body. -/
theorem TsipBody.untimed_iff {b : TsipBody} {p : Pbuf}
    (h : (List.range b.image.length).map p = b.image) :
    b.Untimed ↔ b.image.length ≥ 19 ∧ p 1 = 0x8F ∧ p 2 = 0xAB ∧
      p 11 &&& (0x04 ||| 0x08) ≠ 0 := by
  rw [TsipBody.Untimed, b.length_image]
  by_cases h_len : 16 ≤ b.bytes.length
  · rw [TsipBody.bytes_at h (i := 0) (by omega), TsipBody.bytes_at h (i := 1) (by omega),
      TsipBody.bytes_at h (i := 10) (by omega)]
    simp [h_len]
  · simp only [h_len, false_and, false_iff]
    omega

/-- **The last byte.** What was taken is received as a frame, if the counters are cleared. -/
theorem received_iff_of_took {c : Tsip × Pbuf} {b : TsipBody} {init : List Input} {last : Input}
    (h_fits : b.bytes.length ≤ 125) (h_last : last.data = 0x03)
    (h_rcs : (outs tsipByte c init).map Out.rc = List.replicate init.length .feedContinue)
    (h_took : Tsip.Took 0 (0x10 :: b.bytes ++ [0x10]) (after tsipByte c init))
    (h_gap : ticksSince last.tick.toNat (after tsipByte c init).1.rxLastTick ≤ packetTimeout) :
    Received c b (init ++ [last]) ↔ ¬ b.Untimed := by
  have h_image : 0x10 :: b.bytes ++ [0x10] ++ [0x03] = b.image := by
    rw [TsipBody.image, List.append_assoc]; rfl
  -- the last byte completes the packet
  obtain ⟨h_rc, h_filled, h_stored, h_idle⟩ :=
    h_took.complete (by simp [pbufSize]; omega) h_gap h_last
  rw [h_image] at h_filled h_stored h_idle
  rw [← TsipBody.untimed_iff h_stored, ← after_concat] at h_idle
  rw [← after_concat] at h_stored
  rw [← h_idle]
  -- everything but the idle parser holds in both cases
  refine ⟨Received.idle, fun h => ⟨?_, ?_, h_stored, h⟩⟩
  · rw [outs_append, outs_cons, outs_nil, List.map_append, h_rcs, List.map_singleton, h_rc]
    simp
  · rw [outs_append, outs_cons, outs_nil, List.getLast?_concat, Option.map_some, h_filled]

/-- **A TSIP frame.** For every body of up to 125 bytes, from the idle parser, with no gap between
the bytes: the frame is received exactly if it is not a time packet without the time, and the tick
count does not come round in it. -/
theorem tsip_frame_iff (b : TsipBody) (h_fits : b.bytes.length ≤ 125) (t : Tsip)
    (h_count : t.rxCount = 0) (h_dle : t.rxDleCount = 0) (p : Pbuf) (xs : List Input)
    (h_data : xs.map Input.data = b.frame) (h_close : Gapless xs) :
    Received (t, p) b xs ↔ ¬ b.Untimed ∧ Rising xs := by
  by_cases h_rising : Rising xs
  · obtain ⟨init, last, rfl, h_last, h_rcs, h_took, h_gap⟩ :=
      Tsip.took_frame (c := (t, p)) h_fits h_count h_dle h_data ⟨h_close, h_rising⟩
    rw [received_iff_of_took h_fits h_last h_rcs h_took h_gap]
    simp [h_rising]
  · refine iff_of_false (fun h => ?_) (fun h => h_rising h.2)
    -- at some byte the tick count is smaller than at the byte before, which the parser takes for
    -- a long gap
    rw [Rising, List.isChain_iff_forall_rel_of_append_cons_cons] at h_rising
    simp only [not_forall] at h_rising
    obtain ⟨x, y, pre, post, rfl, h_back⟩ := h_rising
    refine Tsip.not_received_of_reset h_fits h_data ?_ ?_ h.filled
    · refine if_pos (Nat.lt_of_not_le fun h_le => h_back ?_)
      rw [after_concat, Run.next, tsipByte_rxLastTick] at h_le
      exact ((ticksSince_le_iff x.tick y.tick).mp h_le).2
    · intro out h_out h_rc
      have h_mem := List.mem_map_of_mem (f := Out.rc) h_out
      rw [h.codes, h_rc] at h_mem
      simp at h_mem

/-- Bytes that come at one tick. -/
def atTick (tick : UInt32) (bs : List UInt8) : List Input := bs.map fun b => ⟨tick, b⟩

theorem data_atTick (tick : UInt32) (bs : List UInt8) :
    (atTick tick bs).map Input.data = bs := by simp [atTick, Function.comp_def]

theorem gapless_atTick (tick : UInt32) (bs : List UInt8) : Gapless (atTick tick bs) := by
  rw [Gapless, atTick, List.isChain_map]
  exact List.isChain_iff_forall_rel_of_append_cons_cons.mpr fun _ _ _ _ _ => by simp

theorem rising_atTick (tick : UInt32) (bs : List UInt8) : Rising (atTick tick bs) := by
  rw [Rising, atTick, List.isChain_map]
  exact List.isChain_iff_forall_rel_of_append_cons_cons.mpr fun _ _ _ _ _ => UInt32.le_refl _

/-- A body with a DLE and an ETX in its data. -/
def dleEtxBody : TsipBody := ⟨0x41, [0x10, 0x03], by decide⟩

theorem tsip_frame_dleEtx :
    Received (.powerUp, fun _ => 0) dleEtxBody (atTick 7 dleEtxBody.frame) :=
  (tsip_frame_iff dleEtxBody (by decide) .powerUp rfl rfl _ _ (data_atTick _ _)
    (gapless_atTick _ _)).mpr ⟨fun h => absurd h.1 (by decide), rising_atTick _ _⟩

/-- A time packet with the flag for an unknown offset to UTC. -/
def untimedBody : TsipBody :=
  ⟨0x8F, [0xAB, 0, 0, 0, 0, 0, 0, 0, 0, 0x08, 0, 0, 0, 0, 0], by decide⟩

/-- The counters are not cleared after it. -/
theorem tsip_frame_untimed :
    ¬ ∀ (b : TsipBody) (t : Tsip) (p : Pbuf) (xs : List Input), b.bytes.length ≤ 125 →
      t.rxCount = 0 → t.rxDleCount = 0 → xs.map Input.data = b.frame → Gapless xs →
      Received (t, p) b xs := by
  intro h_all
  have h_received := h_all untimedBody .powerUp (fun _ => 0) (atTick 7 untimedBody.frame)
    (by decide) rfl rfl (data_atTick _ _) (gapless_atTick _ _)
  have h_stale : (after tsipByte (.powerUp, fun _ => 0)
      (atTick 7 untimedBody.frame)).1.rxDleCount = 2 := by decide +kernel
  rw [h_received.idle.2] at h_stale
  exact absurd h_stale (by decide)

end Gps
end Laureline
