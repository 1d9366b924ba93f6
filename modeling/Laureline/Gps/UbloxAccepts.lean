import Laureline.Gps.Frame
import Laureline.Gps.Run
import Mathlib.Data.List.Basic

/-!
# What the UBX parser accepts

The parser learns the length of a packet from its header, adds 4 to it in 16 bits, and compares
the sum with the bytes received. A declared length of 65532 or more wraps to a sum of at most 3, so
that the packet ends with its header.

* `Since` — the bytes after the sync pair that was accepted last;
* `Received` — what the state of the parser says about these bytes;
* `complete_wellFormed_iff` — exactly the sequences with such a header, and the checksums of the
  header after it, complete a packet that is not a frame.
-/

namespace Laureline
namespace Gps
namespace Ublox

open Run

/-- Class, id, length, as many bytes of payload, and the checksums of all of them. -/
def WellFormed (got : List UInt8) : Prop :=
  ∃ cls id lo hi payload, payload.length = lo.toNat + 256 * hi.toNat ∧
    got = cls :: id :: lo :: hi :: payload ++
      [(fletcher (cls :: id :: lo :: hi :: payload)).1,
        (fletcher (cls :: id :: lo :: hi :: payload)).2]

section

variable (timescaleGps : Bool) (c : Ublox × Pbuf)

/-- After the bytes `pre` of `bs` the parser accepts a sync pair, which is followed by `got`. -/
structure Accepts (bs pre got : List UInt8) : Prop where
  split : bs = pre ++ 0xB5 :: 0x62 :: got
  waiting : (after (ubloxFeed timescaleGps) c pre).1.ustate = .waiting

/-- The bytes since the sync pair that was accepted last are a frame. -/
def EndsFrame (bs : List UInt8) : Prop :=
  ∃ pre got, Accepts timescaleGps c bs pre got ∧
    (∀ pre' got', Accepts timescaleGps c bs pre' got' → pre'.length ≤ pre.length) ∧
    WellFormed got

/-- A header that declares 65532 bytes or more, followed by its own checksums. -/
def Overlong (bs : List UInt8) : Prop :=
  ∃ pre cls id lo hi post, 65532 ≤ lo.toNat + 256 * hi.toNat ∧
    Accepts timescaleGps c bs pre ([cls, id, lo, hi, (fletcher [cls, id, lo, hi]).1,
      (fletcher [cls, id, lo, hi]).2] ++ post)

/-- The byte after `pre` completes a packet. -/
def Completes (pre : List UInt8) (val : UInt8) : Prop :=
  (ubloxFeed timescaleGps (after (ubloxFeed timescaleGps) c pre).1
    (after (ubloxFeed timescaleGps) c pre).2 val).rc = .feedComplete

/-! ### The packet in progress -/

/-- The parser has accepted a sync pair after `pre` and has not waited since. -/
structure Since (bs pre got : List UInt8) : Prop extends Accepts timescaleGps c bs pre got where
  busy : ∀ pre' post, bs = pre' ++ post → pre.length < pre'.length →
    (after (ubloxFeed timescaleGps) c pre').1.ustate ≠ .waiting

variable {timescaleGps c} {bs pre got : List UInt8}

theorem Since.concat (h : Since timescaleGps c bs pre got) (val : UInt8)
    (h_busy : (next (ubloxFeed timescaleGps) (after (ubloxFeed timescaleGps) c bs) val).1.ustate ≠
      .waiting) : Since timescaleGps c (bs ++ [val]) pre (got ++ [val]) := by
  refine ⟨⟨?_, h.waiting⟩, fun pre' post h_split h_len => ?_⟩
  · rw [h.split, List.append_assoc]; rfl
  · rcases split_concat h_split with rfl | ⟨post', h_split⟩
    · rwa [after_concat]
    · exact h.busy pre' post' h_split h_len

/-- A byte later, no sync pair after `pre` has been accepted. -/
theorem Since.last (h : Since timescaleGps c bs pre got) {val : UInt8} {pre' got' : List UInt8}
    (h' : Accepts timescaleGps c (bs ++ [val]) pre' got') : pre'.length ≤ pre.length := by
  by_contra h_len
  rcases split_concat h'.split with h_all | ⟨post, h_split⟩
  · have h_length := congrArg List.length h'.split
    rw [h_all] at h_length
    simp at h_length
  · exact h.busy pre' post h_split (Nat.lt_of_not_le h_len) h'.waiting

end

/-- The parser has the bytes `got` of header and payload. -/
structure Holds (c : Ublox × Pbuf) (got : List UInt8) : Prop where
  count : c.1.rxCount = got.length
  ck : (c.1.rxCk1, c.1.rxCk2) = fletcher got
  stored : (List.range got.length).map c.2 = got

/-- Header and payload are complete. The second case is the declared length that wraps. -/
def Complete (got : List UInt8) : Prop :=
  ∃ cls id lo hi payload, got = cls :: id :: lo :: hi :: payload ∧
    (payload.length = lo.toNat + 256 * hi.toNat ∨
      payload = [] ∧ 65532 ≤ lo.toNat + 256 * hi.toNat)

/-- What the state of the parser says about the bytes since the sync pair. -/
inductive Received (timescaleGps : Bool) (c₀ : Ublox × Pbuf) (bs : List UInt8)
    (c : Ublox × Pbuf) : Prop
  | waiting (h_state : c.1.ustate = .waiting)
  | sync (pre : List UInt8) (h_state : c.1.ustate = .sync) (h_split : bs = pre ++ [0xB5])
      (h_wait : (after (ubloxFeed timescaleGps) c₀ pre).1.ustate = .waiting)
  | header (pre got : List UInt8) (h_state : c.1.ustate = .header)
      (h_since : Since timescaleGps c₀ bs pre got) (h_holds : Holds c got) (h_len : got.length < 4)
  | copying (pre payload : List UInt8) (cls id lo hi : UInt8) (h_state : c.1.ustate = .copying)
      (h_since : Since timescaleGps c₀ bs pre (cls :: id :: lo :: hi :: payload))
      (h_holds : Holds c (cls :: id :: lo :: hi :: payload))
      (h_pktlen : c.1.rxPktlen = (lo.toNat + 256 * hi.toNat + 4) % 65536)
      (h_more : payload.length + 4 < c.1.rxPktlen)
  | checksum1 (pre got : List UInt8) (h_state : c.1.ustate = .checksum1)
      (h_since : Since timescaleGps c₀ bs pre got) (h_holds : Holds c got)
      (h_complete : Complete got)
  | checksum2 (pre got : List UInt8) (h_state : c.1.ustate = .checksum2)
      (h_since : Since timescaleGps c₀ bs pre (got ++ [(fletcher got).1])) (h_holds : Holds c got)
      (h_complete : Complete got)

/-- A byte of header or payload that the parser takes. -/
theorem Holds.take {c c' : Ublox × Pbuf} {got : List UInt8} (h : Holds c got)
    (h_room : got.length < 255) (val : UInt8) (h_count : c'.1.rxCount = (c.1.take val).rxCount)
    (h_ck : c'.1.rxCk1 = (c.1.take val).rxCk1 ∧ c'.1.rxCk2 = (c.1.take val).rxCk2)
    (h_pbuf : c'.2 = c.2.store [(c.1.rxCount, val)]) : Holds c' (got ++ [val]) := by
  refine ⟨?_, ?_, ?_⟩
  · have h_len := h.count
    rw [h_count, List.length_append, List.length_singleton]
    simp only [Ublox.take]
    omega
  · rw [fletcher_append, ← h.ck, h_ck.1, h_ck.2]; rfl
  · rw [h_pbuf, h.count]
    exact Pbuf.store_append h.stored val

/-- The header in the buffer declares the length. -/
theorem Holds.le16 {c : Ublox × Pbuf} {cls id lo hi : UInt8} {payload : List UInt8}
    (h : Holds c (cls :: id :: lo :: hi :: payload)) : c.2.le16 2 = lo.toNat + 256 * hi.toNat := by
  have h_stored := h.stored
  have h_lo : c.2 2 = lo := by
    have h_at := congrArg (·[2]?) h_stored
    simpa using h_at
  have h_hi : c.2 3 = hi := by
    have h_at := congrArg (·[3]?) h_stored
    simpa using h_at
  rw [Pbuf.le16, h_lo, h_hi]

variable {timescaleGps : Bool} {c₀ c : Ublox × Pbuf} {bs : List UInt8}

/-- Header and a part of the payload are received: the rest follows, or the checksums. -/
theorem Received.of_header {pre payload : List UInt8} {cls id lo hi : UInt8}
    (h_since : c.1.ustate ≠ .waiting →
      Since timescaleGps c₀ bs pre (cls :: id :: lo :: hi :: payload))
    (h_holds : Holds c (cls :: id :: lo :: hi :: payload))
    (h_pktlen : c.1.rxPktlen = (lo.toNat + 256 * hi.toNat + 4) % 65536)
    (h_state : c.1.ustate = if c.1.rxCount ≥ c.1.rxPktlen then .checksum1 else .copying)
    (h_end : c.1.rxCount ≥ c.1.rxPktlen → Complete (cls :: id :: lo :: hi :: payload)) :
    Received timescaleGps c₀ bs c := by
  have h_count := h_holds.count
  simp only [List.length_cons] at h_count
  -- the packet is already as long as the header says, or its payload follows
  by_cases h_full : c.1.rxCount ≥ c.1.rxPktlen
  · rw [if_pos h_full] at h_state
    exact .checksum1 pre _ h_state (h_since (by simp [h_state])) h_holds (h_end h_full)
  · rw [if_neg h_full] at h_state
    exact .copying pre payload cls id lo hi h_state (h_since (by simp [h_state])) h_holds h_pktlen
      (by omega)

/-- The second sync byte, or another byte. -/
theorem Received.sync_next (h_after : after (ubloxFeed timescaleGps) c₀ bs = c)
    (h_state : c.1.ustate = .sync) {pre : List UInt8} (h_split : bs = pre ++ [0xB5])
    (h_wait : (after (ubloxFeed timescaleGps) c₀ pre).1.ustate = .waiting) (val : UInt8) :
    Received timescaleGps c₀ (bs ++ [val]) (Run.next (ubloxFeed timescaleGps) c val) := by
  by_cases h_val : val = 0x62
  · have h_next : Run.next (ubloxFeed timescaleGps) c val =
        ({ c.1 with ustate := .header, rxCount := 0, rxCk1 := 0, rxCk2 := 0 }, c.2) := by
      simp [Run.next, ubloxFeed, h_state, h_val, Pbuf.cut]
    rw [h_next]
    refine .header pre [] rfl ⟨⟨by simp [h_split, h_val], h_wait⟩, ?_⟩ ⟨rfl, rfl, rfl⟩ (by simp)
    intro pre' post h_split' h_len
    -- the first byte of the pair has left the parser in `sync`, the second in `header`
    rcases split_concat h_split' with rfl | ⟨post, h_split'⟩
    · rw [after_concat, h_after, h_next]; simp
    · rcases split_concat (h_split ▸ h_split') with rfl | ⟨post, h_split'⟩
      · rw [← h_split, h_after, h_state]; simp
      · have h_length := congrArg List.length h_split'
        rw [List.length_append] at h_length
        omega
  -- any other byte is dropped, and the search starts again
  · exact .waiting (by simp [Run.next, ubloxFeed, h_state, h_val, drop])

/-- The last byte of the header: the length is known. -/
theorem Received.length_next (h_after : after (ubloxFeed timescaleGps) c₀ bs = c)
    (h_state : c.1.ustate = .header) {pre : List UInt8} {cls id lo : UInt8}
    (h_since : Since timescaleGps c₀ bs pre [cls, id, lo]) (h_holds : Holds c [cls, id, lo])
    (val : UInt8) :
    Received timescaleGps c₀ (bs ++ [val]) (Run.next (ubloxFeed timescaleGps) c val) := by
  have h_grows := h_since.concat val
  rw [h_after] at h_grows
  have h_count := h_holds.count
  -- the fourth byte completes the header
  have h_take : (c.1.take val).rxCount = 4 := by
    simp only [Ublox.take, List.length_cons, List.length_nil] at h_count ⊢
    omega
  have h_pbuf : (Run.next (ubloxFeed timescaleGps) c val).2 =
      c.2.store [(c.1.rxCount, val)] := by
    simp only [Run.next, ubloxFeed, h_state]; split <;> rfl
  have h_ge : (c.1.take val).rxCount ≥ 4 := by omega
  have h_next : (Run.next (ubloxFeed timescaleGps) c val).1 =
      { c.1.take val with
        rxPktlen := ((c.2.store [(c.1.rxCount, val)]).le16 2 + 4) % 65536
        ustate := if (c.1.take val).rxCount ≥
            ((c.2.store [(c.1.rxCount, val)]).le16 2 + 4) % 65536 then .checksum1
          else .copying } := by
    simp only [Run.next, ubloxFeed, h_state, if_pos h_ge]
  have h_holds' : Holds (Run.next (ubloxFeed timescaleGps) c val) ([cls, id, lo] ++ [val]) :=
    h_holds.take (by simp) val (by rw [h_next]) (by rw [h_next]; exact ⟨rfl, rfl⟩) h_pbuf
  -- the length that the parser reads from the buffer is that of the bytes
  have h_le16 := h_holds'.le16
  rw [h_pbuf] at h_le16
  rw [h_le16] at h_next
  refine .of_header h_grows h_holds' (by rw [h_next]) (by rw [h_next]) fun h_full => ?_
  refine ⟨cls, id, lo, val, [], rfl, ?_⟩
  have h_lo := lo.toNat_lt
  have h_hi := val.toNat_lt
  have h_full' : (c.1.take val).rxCount ≥ (lo.toNat + 256 * val.toNat + 4) % 65536 := by
    rw [h_next] at h_full
    exact h_full
  rw [List.length_nil]
  -- from 65532 on the length wraps to less than the header
  by_cases h_over : 65532 ≤ lo.toNat + 256 * val.toNat
  · exact Or.inr ⟨rfl, h_over⟩
  · exact Or.inl (by omega)

/-- A byte of the header. -/
theorem Received.header_next (h_after : after (ubloxFeed timescaleGps) c₀ bs = c)
    (h_state : c.1.ustate = .header) {pre got : List UInt8}
    (h_since : Since timescaleGps c₀ bs pre got) (h_holds : Holds c got) (h_len : got.length < 4)
    (val : UInt8) :
    Received timescaleGps c₀ (bs ++ [val]) (Run.next (ubloxFeed timescaleGps) c val) := by
  -- the fourth byte is the last one
  by_cases h_four : got.length + 1 = 4
  · obtain ⟨cls, id, lo, rfl⟩ := List.length_eq_three.mp (Nat.succ.inj h_four)
    exact Received.length_next h_after h_state h_since h_holds val
  · have h_grows := h_since.concat val
    rw [h_after] at h_grows
    have h_count := h_holds.count
    have h_take : (c.1.take val).rxCount = got.length + 1 := by simp only [Ublox.take]; omega
    have h_lt : ¬ (c.1.take val).rxCount ≥ 4 := by rw [h_take]; omega
    have h_next : Run.next (ubloxFeed timescaleGps) c val =
        (c.1.take val, c.2.store [(c.1.rxCount, val)]) := by
      simp [Run.next, ubloxFeed, h_state, h_lt, Pbuf.cut]
    have h_more := h_grows (by rw [h_next]; simp [Ublox.take, h_state])
    rw [h_next]
    refine .header pre _ h_state h_more (h_holds.take (by omega) val rfl ⟨rfl, rfl⟩ rfl) ?_
    rw [List.length_append, List.length_singleton]
    omega

/-- A byte of the payload. -/
theorem Received.copying_next (h_after : after (ubloxFeed timescaleGps) c₀ bs = c)
    (h_state : c.1.ustate = .copying) {pre payload : List UInt8} {cls id lo hi : UInt8}
    (h_since : Since timescaleGps c₀ bs pre (cls :: id :: lo :: hi :: payload))
    (h_holds : Holds c (cls :: id :: lo :: hi :: payload))
    (h_pktlen : c.1.rxPktlen = (lo.toNat + 256 * hi.toNat + 4) % 65536)
    (h_more : payload.length + 4 < c.1.rxPktlen) (val : UInt8) :
    Received timescaleGps c₀ (bs ++ [val]) (Run.next (ubloxFeed timescaleGps) c val) := by
  have h_grows := h_since.concat val
  rw [h_after] at h_grows
  have h_count := h_holds.count
  simp only [List.length_cons] at h_count
  -- a payload that does not fit is dropped
  by_cases h_room : c.1.rxCount ≥ pbufSize
  · exact .waiting (by simp [Run.next, ubloxFeed, h_state, h_room, drop])
  · have h_small : payload.length + 4 < 128 := by simp only [pbufSize] at h_room; omega
    have h_take : (c.1.take val).rxCount = payload.length + 5 := by
      simp only [Ublox.take]; omega
    generalize h_out : Run.next (ubloxFeed timescaleGps) c val = c' at h_grows ⊢
    simp only [Run.next, ubloxFeed, h_state, if_neg h_room] at h_out
    subst h_out
    have h_lt := val.toNat_lt
    refine @Received.of_header _ _ _ _ pre (payload ++ [val]) cls id lo hi h_grows ?_
      h_pktlen rfl ?_
    · exact h_holds.take (by simp; omega) val rfl ⟨rfl, rfl⟩ rfl
    · -- the length is reached, so it has not wrapped
      intro h_full
      have h_lo := lo.toNat_lt
      have h_hi := hi.toNat_lt
      have h_full' : payload.length + 5 ≥ (lo.toNat + 256 * hi.toNat + 4) % 65536 := by
        rw [← h_take, ← h_pktlen]; exact h_full
      refine ⟨cls, id, lo, hi, payload ++ [val], rfl, Or.inl ?_⟩
      rw [List.length_append, List.length_singleton]
      omega

/-- **One byte.** -/
theorem Received.next (h : Received timescaleGps c₀ bs (after (ubloxFeed timescaleGps) c₀ bs))
    (val : UInt8) : Received timescaleGps c₀ (bs ++ [val])
      (Run.next (ubloxFeed timescaleGps) (after (ubloxFeed timescaleGps) c₀ bs) val) := by
  have h_grows {pre got : List UInt8} (h_since : Since timescaleGps c₀ bs pre got) :=
    h_since.concat val
  generalize h_after : after (ubloxFeed timescaleGps) c₀ bs = c at h h_grows ⊢
  cases h with
  | waiting h_state =>
    by_cases h_val : val = 0xB5
    · exact .sync bs (by simp [Run.next, ubloxFeed, h_state, h_val]) (by rw [h_val])
        (by rw [h_after, h_state])
    · exact .waiting (by simp [Run.next, ubloxFeed, h_state, h_val, drop])
  | sync pre h_state h_split h_wait =>
    exact Received.sync_next h_after h_state h_split h_wait val
  | header pre got h_state h_since h_holds h_len =>
    exact Received.header_next h_after h_state h_since h_holds h_len val
  | copying pre payload cls id lo hi h_state h_since h_holds h_pktlen h_more =>
    exact Received.copying_next h_after h_state h_since h_holds h_pktlen h_more val
  | checksum1 pre got h_state h_since h_holds h_complete =>
    by_cases h_val : c.1.rxCk1 = val
    · have h_next : Run.next (ubloxFeed timescaleGps) c val =
          ({ c.1 with ustate := .checksum2 }, c.2) := by
        simp [Run.next, ubloxFeed, h_state, h_val, Pbuf.cut]
      have h_ck : val = (fletcher got).1 := by rw [← h_holds.ck, ← h_val]
      have h_more := h_grows h_since (by rw [h_next]; simp)
      rw [h_next]
      exact .checksum2 pre got rfl (h_ck ▸ h_more) ⟨h_holds.count, h_holds.ck, h_holds.stored⟩
        h_complete
    · exact .waiting (by simp [Run.next, ubloxFeed, h_state, h_val, drop])
  | checksum2 pre got h_state h_since h_holds h_complete =>
    -- the packet is complete or refused, and the parser waits for the next
    refine .waiting ?_
    simp only [Run.next, ubloxFeed, h_state]
    split <;> rfl

theorem received_after (h : c.1.ustate = .waiting) (bs : List UInt8) :
    Received timescaleGps c bs (after (ubloxFeed timescaleGps) c bs) := by
  refine (after_induction (ubloxFeed timescaleGps) (c := c)
    (I := fun bs c' => c' = after (ubloxFeed timescaleGps) c bs ∧
      Received timescaleGps c bs c') ⟨rfl, .waiting h⟩ ?_ bs).2
  rintro bs _ val ⟨rfl, h_received⟩
  exact ⟨(after_concat c val bs).symm, h_received.next val⟩

/-! ### The last byte -/

/-- The byte that completes a packet is the second checksum of what was received. -/
theorem Completes.received (h : c.1.ustate = .waiting) {val : UInt8}
    (h_rc : Completes timescaleGps c bs val) :
    ∃ pre got, Since timescaleGps c bs pre (got ++ [(fletcher got).1]) ∧ Complete got ∧
      val = (fletcher got).2 := by
  have h_received : Received timescaleGps c bs _ := received_after h bs
  unfold Completes at h_rc
  generalize after (ubloxFeed timescaleGps) c bs = c' at h_rc h_received
  -- a packet is complete only with the second checksum
  have h_state : c'.1.ustate = .checksum2 := by
    rcases ubloxFeed_cases timescaleGps c'.1 c'.2 val with h_eq | h_eq | ⟨h_state, -⟩
    · rw [h_eq] at h_rc; exact absurd h_rc (by simp [drop])
    · rw [h_eq] at h_rc; exact absurd h_rc (by decide)
    · exact h_state
  -- which is the one that was computed
  have h_val : c'.1.rxCk2 = val := by
    by_contra h_ne
    simp [ubloxFeed, h_state, h_ne, drop] at h_rc
  cases h_received with
  | checksum2 pre got _ h_since h_holds h_complete =>
    exact ⟨pre, got, h_since, h_complete, by rw [← h_holds.ck, ← h_val]⟩
  | waiting h' | sync _ h' | header _ _ h' | copying _ _ _ _ _ _ h' | checksum1 _ _ h' =>
    rw [h'] at h_state
    exact absurd h_state (by decide)

/-- A header alone, with its checksums, completes a packet if its length wraps. -/
theorem completes_of_wrap (timescaleGps : Bool) (h : c.1.ustate = .waiting) (cls id : UInt8)
    {lo hi : UInt8} (h_over : 65532 ≤ lo.toNat + 256 * hi.toNat) :
    Completes timescaleGps c [0xB5, 0x62, cls, id, lo, hi, (fletcher [cls, id, lo, hi]).1]
      (fletcher [cls, id, lo, hi]).2 := by
  have h_lo := lo.toNat_lt
  have h_hi := hi.toNat_lt
  have h_wrap : (lo.toNat + 256 * hi.toNat + 4) % 65536 ≤ 4 := by omega
  simp [Completes, next, ubloxFeed, h, Ublox.take, Pbuf.cut, Pbuf.le16, Function.update, h_wrap,
    fletcher]

theorem WellFormed.length {got : List UInt8} (h : WellFormed got) : 6 ≤ got.length := by
  obtain ⟨cls, id, lo, hi, payload, -, rfl⟩ := h
  simp

/-- Such a header is not a frame. -/
theorem Overlong.exists_bad (h : Overlong timescaleGps c bs) :
    ∃ pre val post, bs = pre ++ val :: post ∧ Completes timescaleGps c pre val ∧
      ¬ EndsFrame timescaleGps c (pre ++ [val]) := by
  obtain ⟨pre, cls, id, lo, hi, post, h_over, h_split, h_wait⟩ := h
  refine ⟨pre ++ [0xB5, 0x62, cls, id, lo, hi, (fletcher [cls, id, lo, hi]).1],
    (fletcher [cls, id, lo, hi]).2, post, by simp [h_split], ?_, ?_⟩
  · have h_rc := completes_of_wrap timescaleGps h_wait cls id h_over
    unfold Completes at h_rc ⊢
    rwa [after_append]
  · rintro ⟨pre', got, h_accepts, h_last, h_frame⟩
    have h_len := h_last pre [cls, id, lo, hi, (fletcher [cls, id, lo, hi]).1,
      (fletcher [cls, id, lo, hi]).2] ⟨by simp, h_wait⟩
    have h_got := h_frame.length
    have h_eq := h_accepts.split
    have h_length := congrArg List.length h_eq
    simp only [List.length_append, List.length_cons, List.length_nil] at h_length
    -- the last sync pair is the one before the header, by the length of a frame
    rw [List.append_assoc] at h_eq
    obtain ⟨-, h_eq⟩ := List.append_inj h_eq (by omega)
    obtain ⟨cls', id', lo', hi', payload, h_payload, rfl⟩ := h_frame
    simp only [List.cons_append, List.nil_append, List.cons.injEq, true_and] at h_eq
    obtain ⟨-, -, rfl, rfl, h_rest⟩ := h_eq
    have h_empty := congrArg List.length h_rest
    simp only [List.length_append, List.length_cons, List.length_nil] at h_empty
    omega

/-- **What completes a packet.** The packets completed over a sequence of bytes are all frames
exactly if no header in it declares a length that wraps and is followed by its checksums. -/
theorem complete_wellFormed_iff (timescaleGps : Bool) (p : Pbuf) (bs : List UInt8) :
    (∀ pre val post, bs = pre ++ val :: post → Completes timescaleGps (.powerUp, p) pre val →
      EndsFrame timescaleGps (.powerUp, p) (pre ++ [val])) ↔
    ¬ Overlong timescaleGps (.powerUp, p) bs := by
  constructor
  · intro h_all h_over
    obtain ⟨pre, val, post, h_split, h_rc, h_bad⟩ := h_over.exists_bad
    exact h_bad (h_all pre val post h_split h_rc)
  · intro h_none pre val post h_split h_rc
    obtain ⟨pre', got, h_since, ⟨cls, id, lo, hi, payload, rfl, h_or⟩, h_val⟩ := h_rc.received rfl
    have h_accepts : Accepts timescaleGps (.powerUp, p) (pre ++ [val]) pre'
        (cls :: id :: lo :: hi :: payload ++ [(fletcher (cls :: id :: lo :: hi :: payload)).1,
          (fletcher (cls :: id :: lo :: hi :: payload)).2]) := by
      refine ⟨?_, h_since.waiting⟩
      rw [h_since.split, h_val]
      simp
    rcases h_or with h_len | ⟨rfl, h_over⟩
    · exact ⟨pre', _, h_accepts, fun _ _ => h_since.last, cls, id, lo, hi, payload, h_len, rfl⟩
    · -- the header of a length that wraps
      refine absurd ⟨pre', cls, id, lo, hi, post, h_over, ?_, h_since.waiting⟩ h_none
      rw [h_split, List.append_cons, h_accepts.split]
      simp

/-- A header with the length 65532 and its checksums. -/
theorem complete_overlong :
    ¬ ∀ bs pre val post, bs = pre ++ val :: post →
      Completes false (.powerUp, fun _ => 0) pre val →
      EndsFrame false (.powerUp, fun _ => 0) (pre ++ [val]) := by
  intro h_all
  have h_over : Overlong false (.powerUp, fun _ => 0)
      [0xB5, 0x62, 0x01, 0x06, 0xFC, 0xFF, 0x02, 0x0D] :=
    ⟨[], 0x01, 0x06, 0xFC, 0xFF, [], by decide, rfl, rfl⟩
  obtain ⟨pre, val, post, h_split, h_rc, h_bad⟩ := h_over.exists_bad
  exact h_bad (h_all _ pre val post h_split h_rc)

end Ublox
end Gps
end Laureline
