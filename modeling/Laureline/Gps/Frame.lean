import Laureline.Gps.Ublox
import Mathlib.Data.List.Induction

/-!
# UBX frames

The bytes of a UBX frame, and `ublox_feed` on them. Two encoders are defined: `Frame.bytes`,
by the layout of the packet, and `ubloxPkt`, which computes the words that `util/ublox_pkt.py`
prints. `Ublox.Took` is what the parser has when a part of header and payload is received.

* `Ublox.Took.feed` — one byte more;
* `ubloxFeedAll_frame` — the bytes of a frame, one by one;
* `ubloxFeedAll_ubloxPkt` — the words of the script, for every payload of up to 124 bytes.
-/

namespace Laureline
namespace Gps

/-! ### Frames -/

/-- The checksums of UBX: two running sums. -/
def fletcher (bs : List UInt8) : UInt8 × UInt8 :=
  bs.foldl (fun ck v => (ck.1 + v, ck.2 + (ck.1 + v))) (0, 0)

theorem fletcher_append (bs : List UInt8) (v : UInt8) :
    fletcher (bs ++ [v]) =
      ((fletcher bs).1 + v, (fletcher bs).2 + ((fletcher bs).1 + v)) := by
  simp [fletcher, List.foldl_append]

/-- A UBX frame whose header and payload fit into the buffer. -/
structure Frame where
  cls : UInt8
  id : UInt8
  payload : List UInt8
  fits : payload.length + 4 ≤ pbufSize

namespace Frame

/-- Class, id and length. -/
def header (f : Frame) : List UInt8 :=
  [f.cls, f.id, UInt8.ofNat f.payload.length, UInt8.ofNat (f.payload.length / 256)]

/-- What goes to the buffer. -/
def body (f : Frame) : List UInt8 := f.header ++ f.payload

/-- The bytes on the wire. -/
def bytes (f : Frame) : List UInt8 :=
  [0xB5, 0x62] ++ f.body ++ [(fletcher f.body).1, (fletcher f.body).2]

variable (f : Frame)

theorem body_length : f.body.length = f.payload.length + 4 := by simp [body, header]

theorem body_fits : f.body.length ≤ pbufSize := f.body_length ▸ f.fits

theorem bytes_length : f.bytes.length = f.body.length + 4 := by simp [bytes]

/-- A buffer that holds the header gives the length of the body. -/
theorem le16_of_header {p : Pbuf} (h_lo : p 2 = UInt8.ofNat f.payload.length)
    (h_hi : p 3 = UInt8.ofNat (f.payload.length / 256)) :
    (p.le16 2 + 4) % 65536 = f.body.length := by
  have h_fits := f.fits
  have h_len := f.body_length
  simp only [pbufSize] at h_fits
  simp only [Pbuf.le16, h_lo, h_hi, UInt8.toNat_ofNat']
  omega

/-- So does one that holds the body. -/
theorem le16_of_body {p : Pbuf} (h : (List.range f.body.length).map p = f.body) :
    (p.le16 2 + 4) % 65536 = f.body.length := by
  have h_len := f.body_length
  have h_at : ∀ i < f.body.length, some (p i) = f.body[i]? := by
    intro i hi
    rw [← h, List.getElem?_map, List.getElem?_range hi, Option.map_some]
  exact f.le16_of_header (Option.some.inj (h_at 2 (by omega)))
    (Option.some.inj (h_at 3 (by omega)))

end Frame

/-! ### The parser on a frame -/

/-- The UBX parser has received this much of the body of a frame. -/
structure Ublox.Took (f : Frame) (got : List UInt8) (u : Ublox) (p : Pbuf) : Prop where
  count : u.rxCount = got.length
  ck : (u.rxCk1, u.rxCk2) = fletcher got
  stored : (List.range got.length).map p = got
  state : u.ustate =
    if got.length < 4 then .header
    else if got.length < f.body.length then .copying else .checksum1
  pktlen : 4 ≤ got.length → u.rxPktlen = f.body.length

variable {u : Ublox} {p : Pbuf} {f : Frame}

/-- The last byte of the header gives the length of the body. -/
theorem Frame.header_length {got rest : List UInt8} (h : (List.range got.length).map p = got)
    {val : UInt8} (h_body : f.body = got ++ val :: rest) (h_four : got.length + 1 = 4) :
    ((p.store [(got.length, val)]).le16 2 + 4) % 65536 = f.body.length := by
  have h_length : (got ++ [val]).length = 4 := by simpa using h_four
  have h_got : got ++ [val] = f.header := by
    have h_split : (got ++ [val]) ++ rest = f.header ++ f.payload := by
      rw [List.append_assoc]; exact h_body.symm
    exact (List.append_inj h_split h_length).1
  have h_stored := Pbuf.store_append h val
  rw [h_length, h_got] at h_stored
  simp only [Frame.header, List.range_succ, List.range_zero, List.nil_append, List.cons_append,
    List.map_cons, List.map_nil, List.cons.injEq, and_true] at h_stored
  obtain ⟨-, -, h_lo, h_hi⟩ := h_stored
  exact f.le16_of_header h_lo h_hi

/-- A byte of the body that the parser takes: it is stored behind the others. -/
theorem Ublox.Took.of_take {got : List UInt8} (h : u.Took f got p) {val : UInt8} {u' : Ublox}
    (h_count : u'.rxCount = got.length + 1)
    (h_ck : u'.rxCk1 = u.rxCk1 + val ∧ u'.rxCk2 = u.rxCk2 + (u.rxCk1 + val))
    (h_state : u'.ustate = if got.length + 1 < 4 then .header
      else if got.length + 1 < f.body.length then .copying else .checksum1)
    (h_pktlen : 4 ≤ got.length + 1 → u'.rxPktlen = f.body.length) :
    u'.Took f (got ++ [val]) (p.store [(got.length, val)]) := by
  have h_length : (got ++ [val]).length = got.length + 1 := by simp
  refine ⟨?_, ?_, Pbuf.store_append h.stored val, ?_, ?_⟩
  · rw [h_length, h_count]
  · rw [fletcher_append, ← h.ck, h_ck.1, h_ck.2]
  · rw [h_length, h_state]
  · rw [h_length]; exact h_pktlen

/-- **One byte of the body.** -/
theorem Ublox.Took.feed (timescaleGps : Bool) {got rest : List UInt8} {val : UInt8}
    (h : u.Took f got p) (h_body : f.body = got ++ val :: rest) :
    ∃ u', ubloxFeed timescaleGps u p val =
        { st := u', rc := .feedContinue, writes := [(got.length, val)] } ∧
      u'.Took f (got ++ [val]) (p.store [(got.length, val)]) := by
  have h_count := h.count
  have h_state := h.state
  have h_len : got.length < f.body.length := by rw [h_body]; simp
  have h_fits := f.body_fits
  simp only [pbufSize] at h_fits
  -- the 8-bit counter does not wrap, as the body fits into the buffer
  have h_take : (u.take val).rxCount = got.length + 1 := by
    simp only [Ublox.take]; omega
  by_cases h_header : got.length < 4
  · rw [if_pos h_header] at h_state
    by_cases h_last : got.length + 1 < 4
    · -- in the header
      refine ⟨u.take val, ?_, h.of_take h_take ⟨rfl, rfl⟩ ?_ (fun h => absurd h (by omega))⟩
      · simp only [ubloxFeed, h_state, h_take, h_count, if_neg (Nat.not_le.mpr h_last), ge_iff_le]
      · rw [if_pos h_last]; exact h_state
    · -- the header is complete, and the buffer has the length
      have h_le16 := Frame.header_length h.stored h_body (by omega)
      refine ⟨{ u.take val with
        rxPktlen := f.body.length
        ustate := if got.length + 1 ≥ f.body.length then .checksum1 else .copying },
        ?_, h.of_take h_take ⟨rfl, rfl⟩ ?_ (fun _ => rfl)⟩
      · simp only [ubloxFeed, h_state, h_take, h_count, if_pos (Nat.not_lt.mp h_last), ge_iff_le,
          h_le16]
      · rw [if_neg h_last]
        dsimp only
        split <;> split <;> first | rfl | omega
  · -- in the payload
    rw [if_neg h_header, if_pos h_len] at h_state
    have h_room : ¬ got.length ≥ pbufSize := by simp only [pbufSize]; omega
    have h_full : (u.take val).rxPktlen = f.body.length := h.pktlen (by omega)
    refine ⟨{ u.take val with
      ustate := if got.length + 1 ≥ f.body.length then .checksum1 else .copying },
      ?_, h.of_take h_take ⟨rfl, rfl⟩ ?_ (fun _ => h_full)⟩
    · simp only [ubloxFeed, h_state, h_take, h_count, if_neg h_room, h_full]
    · rw [if_neg (show ¬ got.length + 1 < 4 by omega)]
      dsimp only
      split <;> split <;> first | rfl | omega

/-- The sync pair starts a packet. -/
theorem ubloxFeed_sync (timescaleGps : Bool) (p p' : Pbuf) (h : u.ustate = .waiting) :
    ubloxFeed timescaleGps u p 0xB5 =
        { st := { u with ustate := .sync }, rc := .feedContinue } ∧
      ∃ u', ubloxFeed timescaleGps { u with ustate := .sync } p' 0x62 =
          { st := u', rc := .feedContinue } ∧
        u'.Took f [] p' :=
  ⟨by simp [ubloxFeed, h], _, rfl, rfl, rfl, rfl, rfl, fun h => absurd h (by simp)⟩

/-- The checksums complete the packet. -/
theorem Ublox.Took.checksums (timescaleGps : Bool) (h : u.Took f f.body p) (p' : Pbuf) :
    ubloxFeed timescaleGps u p (fletcher f.body).1 =
        { st := { u with ustate := .checksum2 }, rc := .feedContinue } ∧
      ubloxFeed timescaleGps { u with ustate := .checksum2 } p' (fletcher f.body).2 =
        { st := { u with ustate := .waiting }
          rc := .feedComplete
          calls := ubloxComplete timescaleGps p' u.rxCount
          filled := u.rxCount } := by
  have h_state := h.state
  -- a body has its header at least, so the parser waits for the first checksum
  have h_four : ¬ f.body.length < 4 := by rw [f.body_length]; omega
  rw [if_neg h_four, if_neg (Nat.lt_irrefl _)] at h_state
  rw [← h.ck]
  exact ⟨by simp [ubloxFeed, h_state], by simp [ubloxFeed]⟩

/-! ### Feeding many bytes -/

/-- What the parser, the buffer and the return codes are after many bytes. -/
structure Fed where
  st : Ublox
  pbuf : Pbuf
  rcs : List Rc

/-- `ublox_feed` for one byte after the other. -/
def ubloxFeedAll (timescaleGps : Bool) (u : Ublox) (p : Pbuf) : List UInt8 → Fed
  | [] => ⟨u, p, []⟩
  | val :: vals =>
    let out := ubloxFeed timescaleGps u p val
    let fed := ubloxFeedAll timescaleGps out.st ((p.store out.writes).cut out.cuts) vals
    { fed with rcs := out.rc :: fed.rcs }

/-- The first bytes, and then the others. -/
theorem ubloxFeedAll_append (timescaleGps : Bool) (u : Ublox) (p : Pbuf) (vals vals' : List UInt8) :
    ubloxFeedAll timescaleGps u p (vals ++ vals') =
      let fed := ubloxFeedAll timescaleGps u p vals
      let fed' := ubloxFeedAll timescaleGps fed.st fed.pbuf vals'
      { fed' with rcs := fed.rcs ++ fed'.rcs } := by
  induction vals generalizing u p with
  | nil => rfl
  | cons val vals ih =>
    rw [List.cons_append, ubloxFeedAll, ubloxFeedAll]
    dsimp only
    rw [ih]
    rfl

/-- The rest of the body: it is taken, and nothing is written behind it. -/
theorem Ublox.Took.feedAll (timescaleGps : Bool) {got rest : List UInt8} (h : u.Took f got p)
    (h_body : f.body = got ++ rest) :
    ∃ u' p', ubloxFeedAll timescaleGps u p rest =
        ⟨u', p', List.replicate rest.length .feedContinue⟩ ∧
      u'.Took f f.body p' ∧ ∀ i, f.body.length ≤ i → p' i = p i := by
  induction rest generalizing u p got with
  | nil =>
    rw [List.append_nil] at h_body
    exact ⟨u, p, rfl, h_body ▸ h, fun _ _ => rfl⟩
  | cons val rest ih =>
    obtain ⟨u₁, h_feed, h_took⟩ := h.feed timescaleGps h_body
    obtain ⟨u', p', h_rest, h_all, h_kept⟩ :=
      ih h_took (by rw [h_body, List.append_assoc, List.singleton_append])
    refine ⟨u', p', ?_, h_all, ?_⟩
    · rw [ubloxFeedAll, h_feed]
      dsimp only
      rw [Pbuf.cut, List.map_nil, Pbuf.store_nil, h_rest, List.length_cons, List.replicate_succ]
    · intro i hi
      -- the byte was stored inside the body
      have h_lt : got.length < f.body.length := by rw [h_body]; simp
      rw [h_kept i hi, Pbuf.store_cons, Pbuf.store_nil, Function.update_of_ne (by omega)]

/-- **A frame, byte by byte.** A parser that waits continues up to the last byte, which
completes the packet. -/
theorem ubloxFeedAll_frame (timescaleGps : Bool) (f : Frame) (p : Pbuf)
    (h : u.ustate = .waiting) :
    ∃ u' p', ubloxFeedAll timescaleGps u p f.bytes =
        ⟨u', p', List.replicate (f.body.length + 3) .feedContinue ++ [.feedComplete]⟩ ∧
      u'.ustate = .waiting ∧ u'.rxCount = f.body.length ∧
      (List.range f.body.length).map p' = f.body ∧ ∀ i, f.body.length ≤ i → p' i = p i := by
  obtain ⟨h_first, u₁, h_second, h_none⟩ := ubloxFeed_sync timescaleGps p p h
  obtain ⟨u₂, p₂, h_rest, h_took, h_kept⟩ :=
    h_none.feedAll timescaleGps (List.nil_append f.body).symm
  obtain ⟨h_ck1, h_ck2⟩ := h_took.checksums timescaleGps p₂
  have h_sync : ubloxFeedAll timescaleGps u p [0xB5, 0x62] =
      ⟨u₁, p, [.feedContinue, .feedContinue]⟩ := by
    simp only [ubloxFeedAll, h_first, h_second, Pbuf.cut, List.map_nil, Pbuf.store_nil]
  have h_checksums : ubloxFeedAll timescaleGps u₂ p₂ [(fletcher f.body).1, (fletcher f.body).2] =
      ⟨{ u₂ with ustate := .waiting }, p₂, [.feedContinue, .feedComplete]⟩ := by
    simp only [ubloxFeedAll, h_ck1, h_ck2, Pbuf.cut, List.map_nil, Pbuf.store_nil]
  refine ⟨{ u₂ with ustate := .waiting }, p₂, ?_, rfl, h_took.count, h_took.stored, h_kept⟩
  rw [Frame.bytes, ubloxFeedAll_append, ubloxFeedAll_append, h_sync]
  dsimp only
  rw [h_rest]
  dsimp only
  rw [h_checksums]
  congr 1
  -- two codes for the sync pair, one for each byte of the body, and two for the checksums
  rw [List.replicate_succ', List.replicate_succ, List.replicate_succ]
  simp

/-! ### The script -/

/-- `struct.pack('<H', n)`, as two bytes. -/
def packH (n : ℕ) : Option (List ℕ) := if n < 65536 then some [n % 256, n / 256] else none

/-- The loop over `words`: `ck1` and `ck2`. -/
def ubloxPktChecksum (words : List ℕ) : ℕ × ℕ :=
  words.foldl (fun (ck1, ck2) word =>
    let ck1 := (ck1 + word) &&& 0xFF
    (ck1, (ck2 + ck1) &&& 0xFF)) (0, 0)

/-- The words that `ublox_pkt.py` prints. -/
def ubloxPkt (msgCls msgId : ℕ) (data : List ℕ) : Option (List ℕ) :=
  (packH data.length).map fun lenWords =>
    let words := [msgCls, msgId] ++ lenWords ++ data
    let ck := ubloxPktChecksum words
    [0xB5, 0x62] ++ words ++ [ck.1, ck.2]

/-- Sums of words that are reduced to 8 bits are sums of bytes. -/
theorem ubloxPktChecksum_map (bs : List UInt8) :
    ubloxPktChecksum (bs.map UInt8.toNat) = ((fletcher bs).1.toNat, (fletcher bs).2.toNat) := by
  induction bs using List.reverseRecOn with
  | nil => rfl
  | append_singleton bs v ih =>
    have h_step : ubloxPktChecksum ((bs ++ [v]).map UInt8.toNat) =
        let ck := ubloxPktChecksum (bs.map UInt8.toNat)
        let ck1 := (ck.1 + v.toNat) &&& 0xFF
        (ck1, (ck.2 + ck1) &&& 0xFF) := by
      simp [ubloxPktChecksum, List.foldl_append]
    have h_and : ∀ n : ℕ, n &&& 0xFF = n % 256 := fun n => Nat.and_two_pow_sub_one_eq_mod n 8
    rw [h_step, ih, fletcher_append]
    simp only [h_and, UInt8.toNat_add]

/-- The script builds the bytes of the frame. -/
theorem ubloxPkt_frame (f : Frame) :
    ubloxPkt f.cls.toNat f.id.toNat (f.payload.map UInt8.toNat) =
      some (f.bytes.map UInt8.toNat) := by
  have h_fits := f.fits
  simp only [pbufSize] at h_fits
  -- the length fits in the two bytes of the format `<H`
  have h_len : packH (f.payload.map UInt8.toNat).length =
      some [(UInt8.ofNat f.payload.length).toNat,
        (UInt8.ofNat (f.payload.length / 256)).toNat] := by
    rw [List.length_map, packH, if_pos (by omega)]
    simp only [UInt8.toNat_ofNat']
    congr 3
    omega
  -- class, id, length and payload are what the checksum covers
  have h_words : [f.cls.toNat, f.id.toNat] ++
      [(UInt8.ofNat f.payload.length).toNat, (UInt8.ofNat (f.payload.length / 256)).toNat] ++
      f.payload.map UInt8.toNat = f.body.map UInt8.toNat := by
    rw [Frame.body, Frame.header, List.map_append]; rfl
  rw [ubloxPkt, h_len, Option.map_some]
  simp only [h_words, ubloxPktChecksum_map, Frame.bytes, List.map_append]
  rfl

/-- **The script is inverted.** For every class, id and payload of at most 124 bytes, from any
state in which the parser waits and with any buffer: the codes are those of a packet that is
complete with its last byte, and the buffer has exactly class, id, length and payload. -/
theorem ubloxFeedAll_ubloxPkt (timescaleGps : Bool) (cls id : UInt8) (payload : List UInt8)
    (h_fits : payload.length ≤ 124) (u : Ublox) (p : Pbuf) (h_wait : u.ustate = .waiting) :
    ∃ words, ubloxPkt cls.toNat id.toNat (payload.map UInt8.toNat) = some words ∧
      (∀ word ∈ words, word < 256) ∧
      let fed := ubloxFeedAll timescaleGps u p (words.map UInt8.ofNat)
      fed.rcs = List.replicate (words.length - 1) .feedContinue ++ [.feedComplete] ∧
      fed.st.ustate = .waiting ∧ fed.st.rxCount = payload.length + 4 ∧
      (List.range (payload.length + 4)).map fed.pbuf =
        [cls, id, UInt8.ofNat payload.length, 0] ++ payload ∧
      ∀ i, payload.length + 4 ≤ i → fed.pbuf i = p i := by
  let f : Frame := ⟨cls, id, payload, by simp only [pbufSize]; omega⟩
  have h_bytes : (f.bytes.map UInt8.toNat).map UInt8.ofNat = f.bytes := by
    simp [Function.comp_def]
  -- a payload of this length has a length byte of 0 above
  have h_high : UInt8.ofNat (payload.length / 256) = 0 := by
    rw [Nat.div_eq_of_lt (by omega)]; rfl
  have h_body : f.body = [cls, id, UInt8.ofNat payload.length, 0] ++ payload := by
    rw [Frame.body, Frame.header, h_high]
  obtain ⟨u', p', h_fed, h_state, h_count, h_stored, h_kept⟩ :=
    ubloxFeedAll_frame timescaleGps f p h_wait
  rw [f.body_length] at h_count h_kept h_fed h_stored
  refine ⟨f.bytes.map UInt8.toNat, ubloxPkt_frame f, ?_, ?_⟩
  · intro word h_word
    obtain ⟨b, -, rfl⟩ := List.mem_map.mp h_word
    exact b.toNat_lt
  · rw [h_bytes, h_fed, List.length_map, f.bytes_length, f.body_length]
    exact ⟨rfl, h_state, h_count, h_body ▸ h_stored, h_kept⟩

/-- A payload with the sync pair in it. -/
theorem ubloxFeedAll_ubloxPkt_sync :
    ∃ words, ubloxPkt 0x0D 0x01 [0xB5, 0x62] = some words ∧
      (ubloxFeedAll false .powerUp (fun _ => 0) (words.map UInt8.ofNat)).rcs =
        List.replicate (words.length - 1) .feedContinue ++ [.feedComplete] := by
  obtain ⟨words, h_words, -, h_rcs, -⟩ := ubloxFeedAll_ubloxPkt false 0x0D 0x01 [0xB5, 0x62]
    (by decide) .powerUp (fun _ => 0) rfl
  exact ⟨words, h_words, h_rcs⟩

end Gps
end Laureline
