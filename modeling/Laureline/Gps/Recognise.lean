import Laureline.Gps.Frame
import Laureline.Gps.Parser

/-!
# A UBX frame after a gap

The gap before a frame clears the lock, so its first byte is offered to the UBX
parser, which is the first of the table. If this parser waits for a packet, the
frame is recognised, whatever the other parsers are in the middle of. If it is
part-way through a packet of its own, the sync pair is taken for bytes of that
packet and the frame is lost.

* `byteReceived_ublox` says what one byte does to the UBX parser.
* `receive_body`: header and payload are received byte by byte.
* `UbloxInv` holds in every reachable state: the parser's packet length is the one
  in the buffer, and the parser has the lock or nobody has.
* `Placed` relates the position of a parser that was part-way to the position in
  the frame: they never come to match.
* `frame_recognised_iff` puts the two together; `frame_lost` is a frame after a
  packet that breaks off.
-/

namespace Laureline
namespace Gps

/-! ### The UBX parser in the dispatcher -/

namespace State

variable {s : State} {x : Input}

/-- The UBX parser is not locked out. -/
def UbloxOpen (s : State) : Prop := s.currentProto = none ∨ s.currentProto = some .ublox

/-- The rest of the table leaves the UBX parser alone. -/
theorem offer_ublox (timescaleGps : Bool) {ps : List Proto} (h : .ublox ∉ ps) :
    (s.offer timescaleGps x ps).1.ublox = s.ublox ∧
      ∀ d ∈ (s.offer timescaleGps x ps).2, d.proto ≠ .ublox := by
  induction ps generalizing s with
  | nil => exact ⟨rfl, fun d hd => absurd hd (by simp [offer])⟩
  | cons p ps ih =>
    rw [List.mem_cons, not_or] at h
    -- a call of another parser leaves the state of UBX alone
    have h_part : (s.deliver timescaleGps x p).1.ublox = s.ublox := by
      cases p with
      | ublox => exact absurd rfl h.1
      | _ => rfl
    have h_proto : (s.deliver timescaleGps x p).2.proto ≠ .ublox := by
      rw [deliver_proto]; exact Ne.symm h.1
    unfold offer
    -- a parser that is not current is passed over
    split
    · exact ih h.2
    · dsimp only
      -- and one that takes the byte is the last to be called
      split
      · obtain ⟨h_ublox, h_rest⟩ := ih (s := (s.deliver timescaleGps x p).1) h.2
        exact ⟨h_ublox.trans h_part, List.forall_mem_cons.mpr ⟨h_proto, h_rest⟩⟩
      · refine ⟨?_, by simpa using h_proto⟩
        rw [← h_part]
        cases (s.deliver timescaleGps x p).2.rc <;> rfl

theorem ubloxFeed_cuts (timescaleGps : Bool) (u : Ublox) (p : Pbuf) (val : UInt8) :
    (ubloxFeed timescaleGps u p val).cuts = [] := by
  unfold ubloxFeed
  cases u.ustate <;> dsimp only <;> split <;> rfl

/-- **One byte**, for the UBX parser. It is locked out; or it refuses the byte, and
waits; or it takes the byte, and no other parser sees it. -/
theorem byteReceived_ublox (timescaleGps : Bool) (s : State) (x : Input) :
    (¬ (s.timeouts x.tick.toNat).UbloxOpen ∧
      (s.byteReceived timescaleGps x).1.ublox = s.ublox ∧
      ∀ d ∈ (s.byteReceived timescaleGps x).2, d.proto ≠ .ublox) ∨
    ((ubloxFeed timescaleGps s.ublox s.pbuf x.data).rc = .feedUnknown ∧
      (s.timeouts x.tick.toNat).UbloxOpen ∧
      (s.byteReceived timescaleGps x).1.ublox =
        (ubloxFeed timescaleGps s.ublox s.pbuf x.data).st ∧
      ∀ d ∈ (s.byteReceived timescaleGps x).2, d.proto = .ublox → d.rc = .feedUnknown) ∨
    ((ubloxFeed timescaleGps s.ublox s.pbuf x.data).rc ≠ .feedUnknown ∧
      (s.timeouts x.tick.toNat).UbloxOpen ∧
      (s.byteReceived timescaleGps x).1.ublox =
        (ubloxFeed timescaleGps s.ublox s.pbuf x.data).st ∧
      (s.byteReceived timescaleGps x).1.UbloxOpen ∧
      ∃ d, (s.byteReceived timescaleGps x).2 = [d] ∧ d.proto = .ublox ∧
        d.rc = (ubloxFeed timescaleGps s.ublox s.pbuf x.data).rc ∧
        d.image = s.pbuf.store (ubloxFeed timescaleGps s.ublox s.pbuf x.data).writes ∧
        (s.byteReceived timescaleGps x).1.pbuf = d.image) := by
  have h_ublox : (s.timeouts x.tick.toNat).ublox = s.ublox := by rw [timeouts_eq]
  have h_pbuf : (s.timeouts x.tick.toNat).pbuf = s.pbuf := by rw [timeouts_eq]
  unfold byteReceived
  generalize s.timeouts x.tick.toNat = t at h_ublox h_pbuf ⊢
  rw [← h_ublox, ← h_pbuf]
  have h_rest : Proto.ublox ∉ [Proto.tsip, .oncore, .nmea] := by decide
  by_cases h_open : t.UbloxOpen
  · -- the UBX parser is the first of the table
    have h_first : ¬ (t.currentProto ≠ none ∧ t.currentProto ≠ some .ublox) := by
      rcases h_open with h | h <;> simp [h]
    rw [parsers, offer, if_neg h_first]
    dsimp only
    split
    · next h_rc =>
      -- the other parsers get the byte, and leave the state of this one alone
      obtain ⟨h_same, h_other⟩ := offer_ublox timescaleGps (x := x)
        (s := (t.deliver timescaleGps x .ublox).1) h_rest
      refine Or.inr (Or.inl ⟨h_rc, h_open, h_same, fun d hd h_proto => ?_⟩)
      rcases List.mem_cons.mp hd with rfl | hd
      · exact h_rc
      · exact absurd h_proto (h_other d hd)
    · next h_rc =>
      obtain ⟨lock, last, packet, h_eq, h_or⟩ := concluded_cases (t.deliver timescaleGps x .ublox).1
        x .ublox (t.deliver timescaleGps x .ublox).2.rc
      rw [h_eq]
      refine Or.inr (Or.inr ⟨h_rc, h_open, rfl, ?_, _, rfl, rfl, rfl, rfl, ?_⟩)
      · rcases h_or with rfl | rfl | rfl
        · exact Or.inl rfl
        · exact Or.inr rfl
        · exact h_open
      · change (t.pbuf.store _).cut (ubloxFeed timescaleGps t.ublox t.pbuf x.data).cuts = _
        rw [ubloxFeed_cuts]
        rfl
  · have h_first : t.currentProto ≠ none ∧ t.currentProto ≠ some .ublox := not_or.mp h_open
    rw [parsers, offer, if_pos h_first]
    exact Or.inl ⟨h_open, offer_ublox timescaleGps h_rest⟩

/-- The timeouts do not lock the UBX parser out. -/
theorem UbloxOpen.timeouts (h : s.UbloxOpen) (tick : ℕ) : (s.timeouts tick).UbloxOpen := by
  rw [timeouts_eq]
  unfold UbloxOpen
  dsimp only
  split
  · exact Or.inl rfl
  · exact h

/-- A byte that the UBX parser takes. -/
theorem byteReceived_taken (timescaleGps : Bool) (h_open : (s.timeouts x.tick.toNat).UbloxOpen)
    (h_rc : (ubloxFeed timescaleGps s.ublox s.pbuf x.data).rc ≠ .feedUnknown) :
    (s.byteReceived timescaleGps x).1.ublox =
        (ubloxFeed timescaleGps s.ublox s.pbuf x.data).st ∧
      (s.byteReceived timescaleGps x).1.UbloxOpen ∧
      ∃ d, (s.byteReceived timescaleGps x).2 = [d] ∧ d.proto = .ublox ∧
        d.rc = (ubloxFeed timescaleGps s.ublox s.pbuf x.data).rc ∧
        d.image = s.pbuf.store (ubloxFeed timescaleGps s.ublox s.pbuf x.data).writes ∧
        (s.byteReceived timescaleGps x).1.pbuf = d.image := by
  rcases byteReceived_ublox timescaleGps s x with ⟨h_locked, -⟩ | ⟨h_refused, -⟩ | ⟨-, -, h⟩
  · exact absurd h_open h_locked
  · exact absurd h_refused h_rc
  · exact h

end State

/-! ### A frame that is received -/

/-- The UBX parser has received this much of the body of a frame. -/
structure Receiving (f : Frame) (got : List UInt8) (s : State) : Prop where
  lock : s.UbloxOpen
  count : s.ublox.rxCount = got.length
  ck : (s.ublox.rxCk1, s.ublox.rxCk2) = fletcher got
  stored : (List.range got.length).map s.pbuf = got
  state : s.ublox.ustate =
    if got.length < 4 then .header
    else if got.length < f.body.length then .copying else .checksum1
  pktlen : 4 ≤ got.length → s.ublox.rxPktlen = f.body.length

variable {timescaleGps : Bool} {s : State} {x : Input} {f : Frame}

/-- What it has received. -/
theorem Receiving.took {got : List UInt8} (h : Receiving f got s) : s.ublox.Took f got s.pbuf :=
  ⟨h.count, h.ck, h.stored, h.state, h.pktlen⟩

theorem Ublox.Took.receiving {got : List UInt8} (h : s.ublox.Took f got s.pbuf)
    (h_open : s.UbloxOpen) : Receiving f got s :=
  ⟨h_open, h.count, h.ck, h.stored, h.state, h.pktlen⟩

/-- **One byte of the body.** -/
theorem Receiving.step (timescaleGps : Bool) {got rest : List UInt8} (h : Receiving f got s)
    (h_body : f.body = got ++ x.data :: rest) :
    Receiving f (got ++ [x.data]) (s.byteReceived timescaleGps x).1 := by
  obtain ⟨u, h_feed, h_took⟩ := h.took.feed timescaleGps h_body
  obtain ⟨h_ublox, h_open, d, -, -, -, h_image, h_pbuf⟩ :=
    State.byteReceived_taken timescaleGps (h.lock.timeouts x.tick.toNat) (by rw [h_feed]; simp)
  rw [h_feed] at h_ublox h_image
  refine Ublox.Took.receiving ?_ h_open
  rw [h_ublox, h_pbuf, h_image]
  exact h_took

/-- The rest of the body. -/
theorem receive_body (timescaleGps : Bool) {got rest : List UInt8} (h : Receiving f got s)
    (h_body : f.body = got ++ rest) {xs : List Input} (h_data : xs.map Input.data = rest) :
    Receiving f f.body (s.after timescaleGps xs) := by
  induction xs generalizing s got rest with
  | nil =>
    subst h_data
    rw [List.map_nil, List.append_nil] at h_body
    exact h_body ▸ h
  | cons x xs ih =>
    subst h_data
    exact ih (h.step timescaleGps h_body) (by rw [h_body]; simp) rfl

/-- The sync pair starts a packet. -/
theorem receive_sync (timescaleGps : Bool) (f : Frame) {x' : Input}
    (h_wait : s.ublox.ustate = .waiting) (h_open : (s.timeouts x.tick.toNat).UbloxOpen)
    (h_x : x.data = 0xB5) (h_x' : x'.data = 0x62) :
    Receiving f [] ((s.byteReceived timescaleGps x).1.byteReceived timescaleGps x').1 := by
  obtain ⟨h_first, u, h_second, h_took⟩ := ubloxFeed_sync (f := f) timescaleGps s.pbuf
    (s.byteReceived timescaleGps x).1.pbuf h_wait
  rw [← h_x] at h_first
  -- the first byte is taken, so no other parser gets it
  obtain ⟨h_ublox, h_open, -⟩ :=
    State.byteReceived_taken timescaleGps h_open (by rw [h_first]; simp)
  rw [h_first] at h_ublox
  generalize (s.byteReceived timescaleGps x).1 = t at h_ublox h_open h_second h_took
  dsimp only at h_ublox
  rw [← h_ublox, ← h_x'] at h_second
  -- the second one too
  obtain ⟨h_ublox', h_open', d, -, -, -, h_image, h_pbuf⟩ :=
    State.byteReceived_taken timescaleGps (h_open.timeouts x'.tick.toNat)
      (by rw [h_second]; simp)
  rw [h_second] at h_ublox' h_image
  refine Ublox.Took.receiving ?_ h_open'
  rw [h_ublox', h_pbuf, h_image]
  exact h_took

/-- The checksums complete the packet, and nothing is stored meanwhile. -/
theorem receive_checksums (timescaleGps : Bool) {c y : Input} (h : Receiving f f.body s)
    (h_c : c.data = (fletcher f.body).1) (h_y : y.data = (fletcher f.body).2) :
    ∃ d ∈ ((s.byteReceived timescaleGps c).1.byteReceived timescaleGps y).2,
      d.proto = .ublox ∧ d.rc = .feedComplete ∧
        (List.range f.body.length).map d.image = f.body := by
  obtain ⟨h_first, h_second⟩ :=
    h.took.checksums timescaleGps (s.byteReceived timescaleGps c).1.pbuf
  rw [← h_c] at h_first
  -- the first checksum is compared and not stored
  obtain ⟨h_ublox, h_open, d, -, -, -, h_image, h_pbuf⟩ :=
    State.byteReceived_taken timescaleGps (h.lock.timeouts c.tick.toNat)
      (by rw [h_first]; simp)
  rw [h_first] at h_ublox h_image
  rw [h_image] at h_pbuf
  generalize (s.byteReceived timescaleGps c).1 = t at h_ublox h_open h_pbuf h_second ⊢
  dsimp only at h_ublox
  rw [← h_ublox, ← h_y] at h_second
  -- the second one completes the packet, over the buffer as it was
  obtain ⟨-, -, e, h_eq, h_proto, h_rc, h_image', -⟩ :=
    State.byteReceived_taken timescaleGps (h_open.timeouts y.tick.toNat)
      (by rw [h_second]; simp)
  rw [h_second] at h_rc h_image'
  refine ⟨e, by rw [h_eq]; exact List.mem_singleton_self e, h_proto, h_rc, ?_⟩
  rw [h_image', h_pbuf]
  exact h.stored

/-- The UBX parser completes a packet with the last byte, and the buffer holds class,
id, length and payload of the frame. -/
def Recognised (timescaleGps : Bool) (f : Frame) (s : State) (xs : List Input) (y : Input) : Prop :=
  ∃ d ∈ ((s.after timescaleGps xs).byteReceived timescaleGps y).2,
    d.proto = .ublox ∧ d.rc = .feedComplete ∧ (List.range f.body.length).map d.image = f.body

instance (timescaleGps : Bool) (f : Frame) (s : State) (xs : List Input) (y : Input) :
    Decidable (Recognised timescaleGps f s xs y) := inferInstanceAs (Decidable (∃ d ∈ _, _))

/-- A frame begins with the sync pair and ends with the checksums of its body. -/
theorem Frame.bytes_split {x y : Input} {xs : List Input}
    (h : (x :: (xs ++ [y])).map Input.data = f.bytes) :
    ∃ x' ys c, xs = x' :: (ys ++ [c]) ∧ x.data = 0xB5 ∧ x'.data = 0x62 ∧
      ys.map Input.data = f.body ∧ c.data = (fletcher f.body).1 ∧
      y.data = (fletcher f.body).2 := by
  simp only [Frame.bytes, List.map_cons, List.map_append, List.map_nil, List.cons_append,
    List.nil_append, List.cons.injEq] at h
  obtain ⟨h_first, h_rest⟩ := h
  -- the second checksum byte is the last one
  have h_last : [(fletcher f.body).1, (fletcher f.body).2] =
      [(fletcher f.body).1] ++ [(fletcher f.body).2] := rfl
  rw [h_last, ← List.append_assoc, ← List.cons_append] at h_rest
  obtain ⟨h_xs, h_y⟩ := List.append_inj' h_rest rfl
  -- the others are cut at the lengths of their parts
  obtain ⟨x', zs, rfl, h_x', h_zs⟩ := List.map_eq_cons_iff.mp h_xs
  obtain ⟨ys, cs, rfl, h_ys, h_cs⟩ := List.map_eq_append_iff.mp h_zs
  obtain ⟨c, ws, rfl, h_c, h_ws⟩ := List.map_eq_cons_iff.mp h_cs
  obtain rfl := List.map_eq_nil_iff.mp h_ws
  exact ⟨x', ys, c, rfl, h_first, h_x', h_ys, h_c, by simpa using h_y⟩

/-- **A waiting parser recognises the frame.** -/
theorem recognised_of_waiting {x y : Input} {xs : List Input}
    (h_wait : s.ublox.ustate = .waiting)
    (h_gap : packetTimeout ≤ ticksSince x.tick.toNat s.timeLastByte)
    (h_data : (x :: (xs ++ [y])).map Input.data = f.bytes) :
    Recognised timescaleGps f s (x :: xs) y := by
  obtain ⟨x', ys, c, rfl, h_x, h_x', h_ys, h_c, h_y⟩ := f.bytes_split h_data
  -- the gap clears the lock
  have h_open : (s.timeouts x.tick.toNat).UbloxOpen := by
    rw [State.timeouts_eq]
    exact Or.inl (if_pos (Or.inl h_gap))
  have h_start := receive_sync timescaleGps f h_wait h_open h_x h_x'
  have h_body := receive_body timescaleGps h_start (List.nil_append f.body).symm h_ys
  have h_after : s.after timescaleGps (x :: x' :: (ys ++ [c])) =
      ((((s.byteReceived timescaleGps x).1.byteReceived timescaleGps x').1.after timescaleGps
        ys).byteReceived timescaleGps c).1 := by
    simp [State.after]
  unfold Recognised
  rw [h_after]
  exact receive_checksums timescaleGps h_body h_c h_y

/-! ### A frame that is lost -/

/-- The counters of the UBX parser, and the length in the buffer. -/
def Ublox.Ok (u : Ublox) (p : Pbuf) : Prop :=
  match u.ustate with
  | .waiting | .sync => True
  | .header => u.rxCount < 4
  | .copying => 4 ≤ u.rxCount ∧ u.rxCount ≤ pbufSize ∧ u.rxCount < u.rxPktlen ∧
      u.rxPktlen = (p.le16 2 + 4) % 65536
  | .checksum1 | .checksum2 => u.rxCount = max 4 u.rxPktlen ∧ u.rxPktlen = (p.le16 2 + 4) % 65536

theorem ubloxFeed_ok {u : Ublox} {p : Pbuf} (h : u.Ok p) (val : UInt8) :
    (ubloxFeed timescaleGps u p val).st.Ok (p.store (ubloxFeed timescaleGps u p val).writes) := by
  have h_drop : u.drop.st.Ok (p.store u.drop.writes) := trivial
  unfold Ublox.Ok at h
  unfold ubloxFeed
  cases h_state : u.ustate with
  | waiting =>
    dsimp only
    split
    · trivial
    · exact h_drop
  | sync =>
    dsimp only
    split
    · simp [Ublox.Ok]
    · exact h_drop
  | header =>
    rw [h_state] at h
    dsimp only at h ⊢
    have h_count : (u.take val).rxCount = u.rxCount + 1 := by simp only [Ublox.take]; omega
    split
    · split
      · simp only [Ublox.Ok, h_count, and_true] at *; omega
      · simp only [Ublox.Ok, h_count, pbufSize, and_true] at *; omega
    · simp only [Ublox.Ok, Ublox.take, h_state] at *; omega
  | copying =>
    rw [h_state] at h
    dsimp only at h ⊢
    obtain ⟨h_four, h_room, h_rest, h_len⟩ := h
    split
    · exact h_drop
    · next h_full =>
      -- a byte of the payload is stored behind the length
      simp only [pbufSize] at h_room h_full
      have h_count : (u.take val).rxCount = u.rxCount + 1 := by simp only [Ublox.take]; omega
      have h_same : (u.take val).rxPktlen = u.rxPktlen := rfl
      have h_kept : (p.store [(u.rxCount, val)]).le16 2 = p.le16 2 := by
        simp only [Pbuf.le16, Pbuf.store_cons, Pbuf.store_nil]
        rw [Function.update_of_ne (by omega), Function.update_of_ne (by omega)]
      dsimp only
      split
      · simp only [Ublox.Ok, h_count, h_same, h_kept]; omega
      · simp only [Ublox.Ok, h_count, h_same, h_kept, pbufSize]; omega
  | checksum1 =>
    rw [h_state] at h
    dsimp only at h ⊢
    split
    · exact h_drop
    · exact h
  | checksum2 =>
    dsimp only
    split
    · exact h_drop
    · trivial

/-- **The invariant** of the UBX parser in the dispatcher. -/
structure UbloxInv (s : State) : Prop where
  /-- No other parser has the lock while a packet is received. -/
  lock : s.ublox.ustate ≠ .waiting → s.UbloxOpen
  ok : s.ublox.Ok s.pbuf

theorem UbloxInv.of_waiting (h : s.ublox.ustate = .waiting) : UbloxInv s :=
  ⟨fun h_ne => absurd h h_ne, by simp [Ublox.Ok, h]⟩

theorem UbloxInv.byteReceived (timescaleGps : Bool) (h : UbloxInv s) (x : Input) :
    UbloxInv (s.byteReceived timescaleGps x).1 := by
  rcases State.byteReceived_ublox timescaleGps s x with ⟨h_locked, h_same, -⟩ |
    ⟨h_rc, -, h_ublox, -⟩ | ⟨-, -, h_ublox, h_open, d, -, -, -, h_image, h_pbuf⟩
  · -- locked out, so it waits
    refine .of_waiting ?_
    rw [h_same]
    by_contra h_busy
    exact h_locked ((h.lock h_busy).timeouts _)
  · -- a byte that is refused ends the packet
    refine .of_waiting ?_
    rw [h_ublox]
    rcases ubloxFeed_cases timescaleGps s.ublox s.pbuf x.data with h_eq | h_eq | ⟨-, h_eq⟩
    · rw [h_eq]; rfl
    · exact absurd (h_rc.symm.trans h_eq) (by decide)
    · rw [h_eq]
  · refine ⟨fun _ => h_open, ?_⟩
    rw [h_ublox, h_pbuf, h_image]
    exact ubloxFeed_ok h.ok x.data

/-- **Every reachable state.** -/
theorem UbloxInv.after (timescaleGps : Bool) (h : UbloxInv s) (xs : List Input) :
    UbloxInv (s.after timescaleGps xs) := by
  induction xs generalizing s with
  | nil => exact h
  | cons x xs ih => exact ih (h.byteReceived timescaleGps x)

/-- Where a parser that was part-way when a frame began stands after `k` bytes of the
frame. A packet that it began before is longer than those bytes by what it had; a
packet that it began since lacks the sync pair of the frame and at least two bytes
more. -/
def Ublox.Placed (u : Ublox) (k : ℕ) : Prop :=
  match u.ustate with
  | .waiting => 0 < k
  | .sync => k = 0 ∨ 3 ≤ k
  | .header | .copying | .checksum1 => k ≤ u.rxCount ∨ u.rxCount + 4 ≤ k
  | .checksum2 => k ≤ u.rxCount + 1 ∨ u.rxCount + 4 ≤ k

theorem ubloxFeed_placed (timescaleGps : Bool) {u : Ublox} {p : Pbuf} {k : ℕ} {val : UInt8}
    (h : u.Placed k) (h_ok : u.Ok p) (h_first : k = 0 → val = 0xB5)
    (h_second : k = 1 → val = 0x62) :
    (ubloxFeed timescaleGps u p val).st.Placed (k + 1) := by
  have h_drop : u.drop.st.Placed (k + 1) := Nat.succ_pos k
  have h_take : u.rxCount < 255 → (u.take val).rxCount = u.rxCount + 1 := by
    intro h_lt; simp only [Ublox.take]; omega
  unfold Ublox.Placed at h
  unfold Ublox.Ok at h_ok
  unfold ubloxFeed
  cases h_state : u.ustate with
  | waiting =>
    rw [h_state] at h
    dsimp only at h ⊢
    split
    · next h_val =>
      -- the second byte of the frame does not start a packet
      have h_ne : k ≠ 1 := fun h_one => absurd ((h_second h_one).symm.trans h_val) (by decide)
      simp only [Ublox.Placed]; omega
    · exact h_drop
  | sync =>
    rw [h_state] at h
    dsimp only at h ⊢
    split
    · next h_val =>
      -- nor does the first one complete a sync pair
      have h_ne : k ≠ 0 := fun h_zero => absurd ((h_first h_zero).symm.trans h_val) (by decide)
      simp only [Ublox.Placed]; omega
    · exact h_drop
  | header =>
    rw [h_state] at h h_ok
    dsimp only at h h_ok ⊢
    rw [h_take (by omega)]
    split
    · split <;> simp only [Ublox.Placed] <;> omega
    · simp only [Ublox.Placed, h_take (show u.rxCount < 255 by omega)]
      simp only [Ublox.take, h_state]
      omega
  | copying =>
    rw [h_state] at h h_ok
    simp only [pbufSize] at h_ok
    dsimp only at h ⊢
    split
    · exact h_drop
    · dsimp only
      rw [h_take (by omega)]
      split <;> simp only [Ublox.Placed] <;> omega
  | checksum1 =>
    rw [h_state] at h
    dsimp only at h ⊢
    split
    · exact h_drop
    · simp only [Ublox.Placed]; omega
  | checksum2 =>
    dsimp only
    split
    · exact h_drop
    · exact Nat.succ_pos k

/-- The same in the dispatcher. -/
theorem byteReceived_placed (timescaleGps : Bool) {k : ℕ} (h : s.ublox.Placed k)
    (h_inv : UbloxInv s) (h_first : k = 0 → x.data = 0xB5) (h_second : k = 1 → x.data = 0x62) :
    (s.byteReceived timescaleGps x).1.ublox.Placed (k + 1) := by
  have h_fed := ubloxFeed_placed timescaleGps h h_inv.ok h_first h_second
  rcases State.byteReceived_ublox timescaleGps s x with ⟨h_locked, h_same, -⟩ |
    ⟨-, -, h_ublox, -⟩ | ⟨-, -, h_ublox, -⟩
  · -- locked out, so it waits, and the position in the frame does not matter
    have h_wait : s.ublox.ustate = .waiting := by
      by_contra h_busy
      exact h_locked ((h_inv.lock h_busy).timeouts _)
    rw [h_same]
    simp [Ublox.Placed, h_wait]
  · rw [h_ublox]; exact h_fed
  · rw [h_ublox]; exact h_fed

/-- The bytes after the sync pair are arbitrary. -/
theorem after_placed (timescaleGps : Bool) {k : ℕ} (h : s.ublox.Placed k) (h_inv : UbloxInv s)
    (h_pair : 2 ≤ k) (xs : List Input) :
    (s.after timescaleGps xs).ublox.Placed (k + xs.length) := by
  induction xs generalizing s k with
  | nil => exact h
  | cons x xs ih =>
    have h_step := byteReceived_placed timescaleGps (x := x) h h_inv
      (fun h_zero => absurd h_zero (by omega)) (fun h_one => absurd h_one (by omega))
    have h_rest := ih h_step (h_inv.byteReceived timescaleGps x) (by omega)
    rwa [Nat.add_right_comm, Nat.add_assoc] at h_rest

/-- **A parser that is part-way loses the frame.** A packet completed by the last
byte, with the length of the frame in the buffer, would be as long as the frame. -/
theorem not_recognised_of_busy {x y : Input} {xs : List Input} (h_inv : UbloxInv s)
    (h_busy : s.ublox.ustate ≠ .waiting)
    (h_data : (x :: (xs ++ [y])).map Input.data = f.bytes) :
    ¬ Recognised timescaleGps f s (x :: xs) y := by
  rintro ⟨d, h_mem, h_proto, h_rc, h_stored⟩
  have h_count := congrArg List.length h_data
  simp only [List.length_map, List.length_cons, List.length_append, List.length_nil,
    f.bytes_length] at h_count
  obtain ⟨x', ys, c, rfl, h_x, h_x', -⟩ := f.bytes_split h_data
  have h_start : s.ublox.Placed 0 := by
    unfold Ublox.Placed
    cases h_state : s.ublox.ustate with
    | waiting => exact absurd h_state h_busy
    | sync => exact Or.inl rfl
    | _ => exact Or.inl (Nat.zero_le _)
  have h_one := byteReceived_placed timescaleGps h_start h_inv (fun _ => h_x)
    (fun h => absurd h (by decide))
  have h_inv₁ := h_inv.byteReceived timescaleGps x
  have h_two := byteReceived_placed timescaleGps h_one h_inv₁
    (fun h => absurd h (by decide)) (fun _ => h_x')
  have h_inv₂ := h_inv₁.byteReceived timescaleGps x'
  have h_placed := after_placed timescaleGps h_two h_inv₂ (le_refl _) (ys ++ [c])
  have h_inv' := h_inv₂.after timescaleGps (ys ++ [c])
  have h_after : s.after timescaleGps (x :: x' :: (ys ++ [c])) =
      ((s.byteReceived timescaleGps x).1.byteReceived timescaleGps x').1.after timescaleGps
        (ys ++ [c]) := rfl
  rw [← h_after] at h_placed h_inv'
  generalize s.after timescaleGps (x :: x' :: (ys ++ [c])) = t at h_mem h_placed h_inv'
  -- the byte completes a packet only as its second checksum
  rcases State.byteReceived_ublox timescaleGps t y with ⟨-, -, h_other⟩ | ⟨-, -, -, h_refused⟩ |
    ⟨-, -, -, -, e, h_eq, -, h_rc', h_image, -⟩
  · exact h_other d h_mem h_proto
  · exact absurd (h_rc.symm.trans (h_refused d h_mem h_proto)) (by decide)
  · rw [h_eq] at h_mem
    obtain rfl := List.mem_singleton.mp h_mem
    rcases ubloxFeed_cases timescaleGps t.ublox t.pbuf y.data with h_feed | h_feed |
      ⟨h_state, h_feed⟩
    · rw [h_feed] at h_rc'; exact absurd (h_rc.symm.trans h_rc') (by simp [Ublox.drop])
    · exact absurd (h_rc.symm.trans (h_rc'.trans h_feed)) (by decide)
    · rw [h_feed] at h_image
      have h_ok := h_inv'.ok
      simp only [Ublox.Ok, h_state] at h_ok
      simp only [Ublox.Placed, h_state] at h_placed
      -- the packet that is complete would have the length of the frame
      have h_len := f.body_length
      rw [h_image] at h_stored
      rw [f.le16_of_body (p := t.pbuf) h_stored] at h_ok
      simp only [List.length_append, List.length_cons, List.length_nil] at h_placed h_count
      omega

/-- **A UBX frame after a gap.** For every history of bytes and ticks, a frame whose
first byte comes after a gap is recognised if and only if the UBX parser waits for a
packet then. Gaps within the frame and the state of the other parsers make no
difference. -/
theorem frame_recognised_iff (timescaleGps : Bool) (pre : List Input) (f : Frame) (x y : Input)
    (xs : List Input)
    (h_gap : packetTimeout ≤
      ticksSince x.tick.toNat (State.powerUp.after timescaleGps pre).timeLastByte)
    (h_data : (x :: (xs ++ [y])).map Input.data = f.bytes) :
    Recognised timescaleGps f (State.powerUp.after timescaleGps pre) (x :: xs) y ↔
      (State.powerUp.after timescaleGps pre).ublox.ustate = .waiting := by
  have h_inv : UbloxInv (State.powerUp.after timescaleGps pre) :=
    (UbloxInv.of_waiting (s := State.powerUp) rfl).after timescaleGps pre
  refine ⟨fun h => ?_, fun h_wait => recognised_of_waiting h_wait h_gap h_data⟩
  by_contra h_busy
  exact not_recognised_of_busy h_inv h_busy h_data h

/-- A frame without payload. -/
def emptyFrame : Frame := ⟨0x01, 0x02, [], by decide⟩

/-- The frame after a sentence that breaks off. -/
theorem frame_recognised_after_nmea :
    Recognised false emptyFrame (State.powerUp.after false [⟨1, 0x24⟩, ⟨1, 0x41⟩])
        (⟨11, 0xB5⟩ :: [⟨11, 0x62⟩, ⟨11, 0x01⟩, ⟨11, 0x02⟩, ⟨11, 0x00⟩, ⟨11, 0x00⟩, ⟨11, 0x03⟩])
        ⟨11, 0x0A⟩ ↔
      (State.powerUp.after false [⟨1, 0x24⟩, ⟨1, 0x41⟩]).ublox.ustate = .waiting :=
  frame_recognised_iff false [⟨1, 0x24⟩, ⟨1, 0x41⟩] emptyFrame ⟨11, 0xB5⟩ ⟨11, 0x0A⟩
    [⟨11, 0x62⟩, ⟨11, 0x01⟩, ⟨11, 0x02⟩, ⟨11, 0x00⟩, ⟨11, 0x00⟩, ⟨11, 0x03⟩]
    (by decide +kernel) (by decide +kernel)

/-- The same frame after a UBX packet that breaks off in its header: the parser is
still in that header. -/
theorem frame_lost :
    ¬ ∀ pre f x xs y,
      packetTimeout ≤ ticksSince x.tick.toNat (State.powerUp.after false pre).timeLastByte →
      List.IsChain (fun a b => ticksSince b.tick.toNat a.tick.toNat < packetTimeout)
        (x :: (xs ++ [y])) →
      (x :: (xs ++ [y])).map Input.data = f.bytes →
      Recognised false f (State.powerUp.after false pre) (x :: xs) y := by
  intro h_all
  have h_lost := h_all [⟨1, 0xB5⟩, ⟨1, 0x62⟩, ⟨1, 0x01⟩] emptyFrame ⟨11, 0xB5⟩
    [⟨11, 0x62⟩, ⟨11, 0x01⟩, ⟨11, 0x02⟩, ⟨11, 0x00⟩, ⟨11, 0x00⟩, ⟨11, 0x03⟩] ⟨11, 0x0A⟩
    (by decide +kernel) (by decide +kernel) (by decide +kernel)
  exact absurd h_lost (by decide +kernel)

end Gps
end Laureline
