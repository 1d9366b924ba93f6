import Laureline.Gps.TsipFraming

/-!
# What a TSIP packet passes on

A time packet is decoded from 19 bytes on and a quantisation packet from 66 on, framing included.
The last field of the one is at 18 and of the other at 65, so packets that are shorter by one or two
bytes of data than these have their DLE and ETX in the place of fields. And the first DLE of a frame
does not begin a packet if the parser is still in one: then what it has received goes on.

Here any bytes come before a frame of any length, and the ticks are any.

* `Traced` is the parser with history variables: which byte of the frame each position was stored
  from, and the least number of bytes that the packet had since the frame began;
* `Divided` — the positions from that number on are bytes of the frame, and those below it are not;
* `Divided.next` — one byte; `tsip_fields_iff` — the frame.
-/

namespace Laureline
namespace Gps

open Run

/-! ### Positions and bytes -/

/-- The parser in a frame. -/
structure Traced where
  conf : Tsip × Pbuf
  /-- The byte of the frame that a position was stored from; before the frame it is `none`. -/
  origin : ℕ → Option ℕ
  /-- The number of bytes of the frame that are fed. -/
  count : ℕ
  /-- The least `rx_count` behind a byte of the frame. -/
  low : ℕ

namespace Traced

/-- A frame begins. -/
def start (c : Tsip × Pbuf) : Traced := ⟨c, fun _ => none, 0, pbufSize⟩

/-- What `tsip_feed` does with a byte. -/
def out (s : Traced) (x : Input) : Out Tsip := tsipByte s.conf.1 s.conf.2 x

/-- The counters behind the timeout. -/
def fresh (s : Traced) (x : Input) : Tsip := s.conf.1.fresh x.tick.toNat

/-- After the byte. -/
def next (s : Traced) (x : Input) : Traced where
  conf := Run.next tsipByte s.conf x
  origin i := if i ∈ (s.out x).writes.map Prod.fst then some s.count else s.origin i
  count := s.count + 1
  low := min s.low (s.out x).st.rxCount

/-- After a sequence of bytes. -/
def after (s : Traced) (xs : List Input) : Traced := xs.foldl next s

@[simp] theorem after_nil (s : Traced) : s.after [] = s := rfl

@[simp] theorem after_cons (s : Traced) (x : Input) (xs : List Input) :
    s.after (x :: xs) = (s.next x).after xs := rfl

theorem after_append (s : Traced) (xs ys : List Input) :
    s.after (xs ++ ys) = (s.after xs).after ys := List.foldl_append

theorem count_after (s : Traced) (xs : List Input) : (s.after xs).count = s.count + xs.length := by
  induction xs generalizing s with
  | nil => rfl
  | cons x xs ih =>
    have h_count : (s.next x).count = s.count + 1 := rfl
    rw [after_cons, ih, List.length_cons, h_count]
    omega

end Traced

/-- The positions whose bytes a call is made with. -/
def Call.fields : Call → List ℕ
  | .setUtc _ _ _ _ _ _ => [17, 18, 16, 15, 14, 13, 12]
  | .setCorrection _ _ => [62, 63, 64, 65]
  | .setGps _ _ | .setFixSvs _ => []

/-- Every byte that is passed on comes from the `n` bytes behind the first DLE. -/
def PassesOn (n : ℕ) (s : Traced) (x : Input) : Prop :=
  ∀ call ∈ (s.out x).calls, ∀ i ∈ call.fields, ∃ k, (s.next x).origin i = some k ∧ 1 ≤ k ∧ k ≤ n

/-- The byte is an ETX that ends a packet. -/
def Ends (s : Traced) (x : Input) : Prop :=
  x.data = 0x03 ∧ (s.fresh x).rxDleCount ≠ 0 ∧ (s.fresh x).rxDleCount % 2 = 0 ∧
    (s.fresh x).rxCount < pbufSize

/-- The packet is 0x8F with the given subcode, and has at least `last + 1` bytes with the ETX. -/
def Decoded (subcode : UInt8) (last : ℕ) (s : Traced) (x : Input) : Prop :=
  Ends s x ∧ last ≤ (s.fresh x).rxCount ∧ s.conf.2 1 = 0x8F ∧ s.conf.2 2 = subcode

/-- The packet is a time packet, and the time is complete. -/
def DecodedTime (s : Traced) (x : Input) : Prop :=
  Decoded 0xAB 18 s x ∧ s.conf.2 11 &&& (0x04 ||| 0x08) = 0

/-- A field is in the place of the DLE or ETX of the frame, or was there before the frame. -/
def Misplaced (first last : ℕ) (s : Traced) (x : Input) (closing : Prop) : Prop :=
  closing ∧ (s.fresh x).rxCount ≤ last + 1 ∨ first < s.low

/-- The byte ends a packet that is decoded from misplaced fields. -/
def Misread (s : Traced) (x : Input) (closing : Prop) : Prop :=
  DecodedTime s x ∧ Misplaced 12 18 s x closing ∨ Decoded 0xAC 65 s x ∧ Misplaced 62 65 s x closing

/-! ### One byte -/

variable {s : Traced} {x : Input} {n : ℕ}

/-- What the end of a packet passes on. -/
theorem tsipComplete_calls (t : Tsip) (p : Pbuf) :
    (tsipComplete t p).calls =
      if t.rxCount ≥ 19 ∧ p 1 = 0x8F ∧ p 2 = 0xAB ∧ p 11 &&& (0x04 ||| 0x08) = 0 then
        [.setUtc (p.be16 17) (p 16).toNat (p 15).toNat (p 14).toNat (p 13).toNat (p 12).toNat]
      else if t.rxCount > 65 ∧ p 1 = 0x8F ∧ p 2 = 0xAC then
        [.setCorrection (65536 * p.be16 62 + p.be16 64) .lagging]
      else [] := by
  unfold tsipComplete
  by_cases h_time : t.rxCount ≥ 19 ∧ p 1 = 0x8F ∧ p 2 = 0xAB
  · by_cases h_flags : p 11 &&& (0x04 ||| 0x08) = 0
    · simp [h_time, h_flags]
    · simp [h_time, h_flags]
  · have h_no : ¬ (t.rxCount ≥ 19 ∧ p 1 = 0x8F ∧ p 2 = 0xAB ∧ p 11 &&& (0x04 ||| 0x08) = 0) :=
      fun h => h_time ⟨h.1, h.2.1, h.2.2.1⟩
    rw [if_neg h_time, if_neg h_no]
    split <;> rfl

/-- What an ETX does that ends a packet. -/
theorem Ends.out (h : Ends s x) :
    s.out x =
      { tsipComplete ⟨(s.fresh x).rxCount + 1, (s.fresh x).rxDleCount, x.tick.toNat⟩
          (Function.update s.conf.2 (s.fresh x).rxCount 0x03) with
        writes := [((s.fresh x).rxCount, 0x03)] } := by
  obtain ⟨h_etx, h_some, h_even, h_room⟩ := h
  have h_byte : ((s.fresh x).rxCount + 1) % 256 = (s.fresh x).rxCount + 1 := by
    simp only [pbufSize] at h_room; omega
  unfold Traced.fresh at *
  simp [Traced.out, tsipByte, tsipFeed, h_etx, h_some, h_even, tsipStore, Nat.not_le.mpr h_room,
    h_byte]

/-- A byte that ends no packet passes nothing on. -/
theorem calls_of_not_ends (h : ¬ Ends s x) : (s.out x).calls = [] := by
  have h_arrive : s.conf.1.arrive x.tick.toNat x.data =
      ⟨(s.fresh x).rxCount, (s.conf.1.arrive x.tick.toNat x.data).rxDleCount, x.tick.toNat⟩ := rfl
  have h_out : s.out x = tsipFeed s.conf.1 s.conf.2 x.tick.toNat x.data := rfl
  rw [h_out]
  rcases tsipFeed_cases s.conf.1 s.conf.2 x.tick.toNat x.data with ⟨-, -, -, h_eq⟩ | ⟨-, -, h_eq⟩ |
    ⟨-, h_some, h_eq⟩ <;> rw [h_eq]
  rcases tsipStore_cases (s.conf.1.arrive x.tick.toNat x.data) s.conf.2 x.data with ⟨-, h_eq⟩ |
    ⟨h_room, ⟨h_etx, h_even, -⟩ | ⟨-, h_eq⟩⟩
  · rw [h_eq]
  · have h_ne : x.data ≠ 0x10 := by rw [h_etx]; decide
    have h_dle : (s.conf.1.arrive x.tick.toNat x.data).rxDleCount = (s.fresh x).rxDleCount :=
      if_neg h_ne
    rw [h_dle] at h_some h_even
    exact absurd ⟨h_etx, h_some.resolve_left h_ne, h_even, h_room⟩ h
  · rw [h_eq]

/-- **What a byte passes on**: the time, or the correction, or nothing. -/
theorem Traced.out_calls (s : Traced) (x : Input) :
    (DecodedTime s x ∧ ¬ Decoded 0xAC 65 s x ∧
      ∃ y mo d h mi sec, (s.out x).calls = [.setUtc y mo d h mi sec]) ∨
    (¬ DecodedTime s x ∧ Decoded 0xAC 65 s x ∧
      ∃ raw l, (s.out x).calls = [.setCorrection raw l]) ∨
    (¬ DecodedTime s x ∧ ¬ Decoded 0xAC 65 s x ∧ (s.out x).calls = []) := by
  by_cases h_end : Ends s x
  · have h_calls := tsipComplete_calls
      ⟨(s.fresh x).rxCount + 1, (s.fresh x).rxDleCount, x.tick.toNat⟩
      (Function.update s.conf.2 (s.fresh x).rxCount 0x03)
    rw [h_end.out]
    dsimp only at h_calls ⊢
    rw [h_calls]
    -- the ETX is stored behind the packet, so the fields are those of before
    have h_keep : ∀ i, i < (s.fresh x).rxCount →
        Function.update s.conf.2 (s.fresh x).rxCount 0x03 i = s.conf.2 i :=
      fun i hi => Function.update_of_ne hi.ne _ _
    by_cases h_long : 18 ≤ (s.fresh x).rxCount
    -- a packet of 18 bytes has the fields that are tested
    · rw [h_keep 1 (by omega), h_keep 2 (by omega), h_keep 11 (by omega)]
      by_cases h_time : DecodedTime s x
      · obtain ⟨⟨-, h_count, h_id, h_sub⟩, h_flags⟩ := id h_time
        rw [if_pos ⟨by omega, h_id, h_sub, h_flags⟩]
        refine Or.inl ⟨h_time, fun h => ?_, _, _, _, _, _, _, rfl⟩
        -- the time and the correction differ in the sub-id
        exact absurd (h_sub.symm.trans h.2.2.2) (by decide)
      · rw [if_neg fun h => h_time ⟨⟨h_end, h_long, h.2.1, h.2.2.1⟩, h.2.2.2⟩]
        by_cases h_quant : Decoded 0xAC 65 s x
        · obtain ⟨-, h_count, h_id, h_sub⟩ := id h_quant
          rw [if_pos ⟨by omega, h_id, h_sub⟩]
          exact Or.inr (Or.inl ⟨h_time, h_quant, _, _, rfl⟩)
        · rw [if_neg fun h => h_quant ⟨h_end, by omega, h.2.1, h.2.2⟩]
          exact Or.inr (Or.inr ⟨h_time, h_quant, rfl⟩)
    -- a shorter packet is neither
    · rw [if_neg (by omega), if_neg (by omega)]
      exact Or.inr (Or.inr ⟨fun h => h_long h.1.2.1, fun h => by have := h.2.1; omega, rfl⟩)
  · exact Or.inr (Or.inr ⟨fun h => h_end h.1.1, fun h => h_end h.1, calls_of_not_ends h_end⟩)

/-- **What a byte does to the packet.** There is none; or the byte is the second DLE of a pair; or
it is stored. A DLE that leaves the count of DLEs even is stored. -/
theorem Traced.next_cases (s : Traced) (x : Input) :
    (s.next x).conf.1.rxCount = 0 ∨
    ((s.next x).conf.1.rxCount = (s.fresh x).rxCount ∧ (s.next x).origin = s.origin ∧
      (x.data = 0x10 → (s.next x).conf.1.rxDleCount % 2 = 1)) ∨
    ((s.next x).conf.1.rxCount = (s.fresh x).rxCount + 1 ∧
      (s.next x).origin = Function.update s.origin (s.fresh x).rxCount (some s.count)) := by
  have h_arrive : (s.conf.1.arrive x.tick.toNat x.data).rxCount = (s.fresh x).rxCount := rfl
  have h_st : (s.next x).conf.1 = (s.out x).st := rfl
  have h_origin : (s.next x).origin =
      fun i => if i ∈ (s.out x).writes.map Prod.fst then some s.count else s.origin i := rfl
  have h_out : s.out x = tsipFeed s.conf.1 s.conf.2 x.tick.toNat x.data := rfl
  rw [h_st, h_origin, h_out]
  rcases tsipFeed_cases s.conf.1 s.conf.2 x.tick.toNat x.data with ⟨-, -, h_odd, h_eq⟩ |
    ⟨h_ne, -, h_eq⟩ | ⟨-, -, h_eq⟩ <;> rw [h_eq]
  · exact Or.inr (Or.inl ⟨h_arrive, by simp, fun _ => h_odd⟩)
  · exact Or.inr (Or.inl ⟨h_arrive, by simp, fun h => absurd h h_ne⟩)
  have h_one : (fun i => if i ∈ [((s.fresh x).rxCount, x.data)].map Prod.fst then some s.count
      else s.origin i) = Function.update s.origin (s.fresh x).rxCount (some s.count) := by
    funext i
    simp [Function.update_apply]
  rcases tsipStore_cases (s.conf.1.arrive x.tick.toNat x.data) s.conf.2 x.data with ⟨-, h_eq⟩ |
    ⟨h_room, h_or⟩
  · rw [h_eq]
    exact Or.inl rfl
  · rw [h_arrive] at h_room h_or
    have h_byte : ((s.fresh x).rxCount + 1) % 256 = (s.fresh x).rxCount + 1 := by
      simp only [pbufSize] at h_room; omega
    rw [h_byte] at h_or
    rcases h_or with ⟨-, -, h_eq⟩ | ⟨-, h_eq⟩ <;> rw [h_eq]
    · -- the packet is cleared, unless its time is incomplete
      obtain ⟨-, -, -, -, h_st, -⟩ := tsipComplete_cases
        { s.conf.1.arrive x.tick.toNat x.data with rxCount := (s.fresh x).rxCount + 1 }
        (s.conf.2.store [((s.fresh x).rxCount, x.data)])
      rcases h_st with h_st | h_st
      · exact Or.inr (Or.inr ⟨by dsimp only; rw [h_st], h_one⟩)
      · exact Or.inl (by dsimp only; rw [h_st]; rfl)
    · exact Or.inr (Or.inr ⟨rfl, h_one⟩)

/-- A position holds the byte of the frame that it was stored from. -/
theorem origin_data (c : Tsip × Pbuf) (xs : List Input) {i k : ℕ}
    (h : ((Traced.start c).after xs).origin i = some k) :
    xs[k]?.map Input.data = some (((Traced.start c).after xs).conf.2 i) := by
  induction xs using List.reverseRecOn generalizing k with
  | nil => cases h
  | append_singleton xs x ih =>
    have h_count := (Traced.start c).count_after xs
    -- an older byte keeps its place in the longer sequence
    have h_older : ∀ {b : UInt8}, xs[k]?.map Input.data = some b →
        (xs ++ [x])[k]?.map Input.data = some b := by
      intro b h_b
      obtain ⟨y, h_y, -⟩ := Option.map_eq_some_iff.mp h_b
      rwa [List.getElem?_append_left (List.getElem?_eq_some_iff.mp h_y).1]
    rw [Traced.after_append, Traced.after_cons, Traced.after_nil] at h ⊢
    generalize (Traced.start c).after xs = s at *
    obtain ⟨h_cuts, h_writes⟩ := tsipFeed_stores s.conf.1 s.conf.2 x.tick.toNat x.data
    replace h_cuts : (s.out x).cuts = [] := h_cuts
    replace h_writes : (s.out x).writes = [] ∨ _ ∧
      (s.out x).writes = [((s.fresh x).rxCount, x.data)] := h_writes
    have h_conf : (s.next x).conf.2 = (s.conf.2.store (s.out x).writes).cut (s.out x).cuts := rfl
    have h_origin : (s.next x).origin i =
      if i ∈ (s.out x).writes.map Prod.fst then some s.count else s.origin i := rfl
    rw [h_origin] at h
    rw [h_conf, h_cuts]
    -- the last byte stores at most at the end of the packet
    rcases h_writes with h_writes | ⟨-, h_writes⟩ <;> rw [h_writes] at h ⊢
    · exact h_older (ih h)
    · change _ = some (Function.update s.conf.2 (s.fresh x).rxCount x.data i)
      simp only [List.map_cons, List.map_nil, List.mem_singleton] at h
      split at h
      · next h_here =>
        -- the position that it stores has the byte itself, and the others the older one
        obtain rfl := Option.some.inj h
        have h_length : s.count = xs.length := h_count.trans (Nat.zero_add _)
        rw [h_here, Function.update_self, h_length, List.getElem?_concat_length]
        rfl
      · next h_else =>
        rw [Function.update_of_ne h_else]
        exact h_older (ih h)

/-! ### The positions of the packet -/

/-- The positions of the packet from `low` on are filled from the frame, and those below it are
not, or from the first DLE. -/
structure Divided (s : Traced) : Prop where
  ok : s.conf.1.Ok
  low : s.low ≤ s.conf.1.rxCount
  ours : ∀ i, 1 ≤ i → s.low ≤ i → i < s.conf.1.rxCount →
    ∃ k, s.origin i = some k ∧ 1 ≤ k ∧ k < s.count
  theirs : ∀ i, 1 ≤ i → i < s.low → ∀ k, s.origin i = some k → k = 0

/-- The timeout clears the packet, or leaves the parser as it is. -/
theorem Traced.fresh_cases (s : Traced) (x : Input) :
    s.fresh x = s.conf.1.reset ∨ s.fresh x = s.conf.1 := by
  unfold Traced.fresh Tsip.fresh
  split
  · exact Or.inl rfl
  · exact Or.inr rfl

/-- With a byte in the packet it has not timed out. -/
theorem Traced.fresh_eq (h : (s.fresh x).rxCount ≠ 0) : s.fresh x = s.conf.1 := by
  rcases s.fresh_cases x with h_reset | h_eq
  · exact absurd (by rw [h_reset]; rfl) h
  · exact h_eq

theorem Divided.ok_next (h : Divided s) (x : Input) : (s.next x).conf.1.Ok :=
  tsipFeed_ok h.ok s.conf.2 x.tick.toNat x.data

/-- The first byte of a frame. -/
theorem divided_start {c : Tsip × Pbuf} (h_ok : c.1.Ok) (x : Input) :
    Divided ((Traced.start c).next x) := by
  have h_next : ((Traced.start c).next x).conf.1.Ok := tsipFeed_ok h_ok c.2 x.tick.toNat x.data
  have h_room := h_next.room
  have h_low : ((Traced.start c).next x).low =
      min pbufSize ((Traced.start c).next x).conf.1.rxCount := rfl
  rw [min_eq_right h_room] at h_low
  refine ⟨h_next, h_low.le, fun i _ h_le h_lt => by omega, fun i _ h_lt k h_k => ?_⟩
  -- nothing is stored, or the byte is, at a position that is the parser's own
  rcases (Traced.start c).next_cases x with h_zero | ⟨-, h_origin, -⟩ | ⟨-, h_origin⟩
  · omega
  · rw [h_origin] at h_k
    cases h_k
  · rw [h_origin, Function.update_apply] at h_k
    split at h_k
    · exact (Option.some.inj h_k).symm
    · cases h_k

/-- **One byte more of the frame.** -/
theorem Divided.next (h : Divided s) (h_count : 1 ≤ s.count) (x : Input) : Divided (s.next x) := by
  obtain ⟨h_ok, h_le, h_ours, h_theirs⟩ := id h
  have h_low : (s.next x).low = min s.low (s.next x).conf.1.rxCount := rfl
  have h_succ : (s.next x).count = s.count + 1 := rfl
  have h_fresh := s.fresh_cases x
  rcases s.next_cases x with h_zero | ⟨h_same, h_origin, -⟩ | ⟨h_more, h_origin⟩
  · exact ⟨h.ok_next x, by omega, fun i _ _ _ => by omega, fun i _ _ => by omega⟩
  · -- nothing is stored, and the packet is empty or has not timed out
    rcases h_fresh with h_reset | h_keep
    · have h_empty : (s.fresh x).rxCount = 0 := by rw [h_reset]; rfl
      exact ⟨h.ok_next x, by omega, fun i _ _ _ => by omega, fun i _ _ => by omega⟩
    · rw [h_keep] at h_same
      refine ⟨h.ok_next x, by omega, fun i h_pos h_ge h_lt => ?_, fun i h_pos h_lt => ?_⟩
      · obtain ⟨k, h_k, h_one, h_lt⟩ := h_ours i h_pos (by omega) (by omega)
        exact ⟨k, by rw [h_origin, h_k], h_one, by omega⟩
      · rw [h_origin]
        exact h_theirs i h_pos (by omega)
  · rcases h_fresh with h_reset | h_keep
    · have h_empty : (s.fresh x).rxCount = 0 := by rw [h_reset]; rfl
      exact ⟨h.ok_next x, by omega, fun i _ _ _ => by omega, fun i _ _ => by omega⟩
    · rw [h_keep] at h_more h_origin
      refine ⟨h.ok_next x, by omega, fun i h_pos h_ge h_lt => ?_, fun i h_pos h_lt => ?_⟩
      · -- the byte is of the frame, and so are those that were
        rw [h_origin, Function.update_apply]
        split
        · exact ⟨s.count, rfl, h_count, by omega⟩
        · obtain ⟨k, h_k, h_one, h_lt⟩ := h_ours i h_pos (by omega) (by omega)
          exact ⟨k, h_k, h_one, by omega⟩
      · rw [h_origin, Function.update_of_ne (by omega)]
        exact h_theirs i h_pos (by omega)

theorem Divided.after (h : Divided s) (h_count : 1 ≤ s.count) (xs : List Input) :
    Divided (s.after xs) := by
  induction xs generalizing s with
  | nil => exact h
  | cons x xs ih => exact ih (h.next h_count x) (Nat.le_succ_of_le h_count)

/-! ### What is passed on -/

/-- An ETX that ends a packet is stored. -/
theorem Ends.origin (h : Ends s x) :
    (s.next x).origin = Function.update s.origin (s.fresh x).rxCount (some s.count) := by
  have h_origin : (s.next x).origin =
      fun i => if i ∈ (s.out x).writes.map Prod.fst then some s.count else s.origin i := rfl
  rw [h_origin, h.out]
  funext i
  simp [Function.update_apply]

/-- The positions of a packet that are passed on as they should be. -/
def Divides (n : ℕ) (s : Traced) (x : Input) (closing : Prop) : Prop :=
  ∀ i, 1 ≤ i → i ≤ (s.fresh x).rxCount →
    ((∃ k, (s.next x).origin i = some k ∧ 1 ≤ k ∧ k ≤ n) ↔
      s.low ≤ i ∧ ¬ (closing ∧ (s.fresh x).rxCount ≤ i + 1))

/-- The first and the last field decide. -/
theorem Divides.fields {closing : Prop} (h : Divides n s x closing) (first last : ℕ) (fs : List ℕ)
    (h_first : first ∈ fs) (h_last : last ∈ fs) (h_within : ∀ i ∈ fs, first ≤ i ∧ i ≤ last)
    (h_pos : 1 ≤ first) (h_count : last ≤ (s.fresh x).rxCount) :
    (∀ i ∈ fs, ∃ k, (s.next x).origin i = some k ∧ 1 ≤ k ∧ k ≤ n) ↔
      ¬ Misplaced first last s x closing := by
  unfold Misplaced
  have h_order := h_within last h_last
  constructor
  · intro h_all h_mis
    obtain ⟨h_ge, -⟩ := (h first h_pos (by omega)).mp (h_all first h_first)
    obtain ⟨-, h_open⟩ := (h last (by omega) h_count).mp (h_all last h_last)
    exact h_mis.elim h_open (by omega)
  · intro h_ok i h_i
    obtain ⟨h_lo, h_hi⟩ := h_within i h_i
    refine (h i (by omega) (by omega)).mpr ⟨?_, fun ⟨h_closing, h_le⟩ => ?_⟩
    · by_contra h_lt
      exact h_ok (Or.inr (by omega))
    · exact h_ok (Or.inl ⟨h_closing, by omega⟩)

/-- The bytes that are passed on are of the frame, unless the packet is misread. -/
theorem passesOn_iff {closing : Prop} (h : Ends s x → 1 < (s.fresh x).rxCount →
    Divides n s x closing) : PassesOn n s x ↔ ¬ Misread s x closing := by
  unfold PassesOn Misread
  -- the time of day, the correction, or no call
  rcases s.out_calls x with ⟨h_time, h_not, y, mo, d, hr, mi, sec, h_calls⟩ |
    ⟨h_not, h_quant, raw, l, h_calls⟩ | ⟨h_no_time, h_no_quant, h_calls⟩ <;> rw [h_calls]
  · have h_count := h_time.1.2.1
    have h_fields := (h h_time.1.1 (by omega)).fields 12 18 [17, 18, 16, 15, 14, 13, 12]
      (by decide) (by decide) (by decide) (by decide) h_count
    simpa only [List.mem_singleton, forall_eq, Call.fields, h_time, h_not, true_and, false_and,
      or_false] using h_fields
  · have h_count := h_quant.2.1
    have h_fields := (h h_quant.1 (by omega)).fields 62 65 [62, 63, 64, 65]
      (by decide) (by decide) (by decide) (by decide) h_count
    simpa only [List.mem_singleton, forall_eq, Call.fields, h_not, h_quant, true_and, false_and,
      false_or] using h_fields
  · simp [h_no_time, h_no_quant]

/-- A byte in the body of the frame. -/
theorem Divided.passesOn_iff (h : Divided s) (h_count : 1 ≤ s.count) (h_n : s.count ≤ n)
    (x : Input) : PassesOn n s x ↔ ¬ Misread s x False := by
  refine Gps.passesOn_iff fun h_end h_some i h_pos h_le => ?_
  obtain ⟨h_ok, h_low, h_ours, h_theirs⟩ := h
  rw [Traced.fresh_eq (by omega)] at h_le
  rw [h_end.origin, Traced.fresh_eq (by omega), Function.update_apply]
  simp only [false_and, not_false_eq_true, and_true]
  -- the byte that ends the packet, or one that was stored before
  split
  · next h_eq => exact ⟨fun _ => by omega, fun _ => ⟨s.count, rfl, h_count, h_n⟩⟩
  · next h_ne =>
    constructor
    -- a position below the line holds a byte of an earlier packet
    · rintro ⟨k, h_k, h_one, -⟩
      by_contra h_lt
      exact absurd (h_theirs i h_pos (by omega) k h_k) (by omega)
    · intro h_ge
      obtain ⟨k, h_k, h_one, h_lt⟩ := h_ours i h_pos h_ge (by omega)
      exact ⟨k, h_k, h_one, by omega⟩

/-- The ETX of the frame, behind its last DLE. -/
theorem Divided.passesOn_etx_iff (h : Divided s) (h_count : 1 ≤ s.count) (h_n : s.count = n + 1)
    {y : Input} (h_dle : y.data = 0x10) (x : Input) :
    PassesOn n (s.next y) x ↔ ¬ Misread (s.next y) x True := by
  refine Gps.passesOn_iff fun h_end h_some i h_pos h_le => ?_
  obtain ⟨h_ok, h_low, h_ours, h_theirs⟩ := h.next h_count y
  have h_succ : (s.next y).count = s.count + 1 := rfl
  have h_fresh := Traced.fresh_eq (s := s.next y) (x := x) (by omega)
  have h_origin := h_end.origin
  have h_even := h_end.2.2.1
  rw [h_fresh] at h_le h_origin h_even h_some ⊢
  rw [h_origin, Function.update_apply]
  -- the DLE before was stored
  rcases s.next_cases y with h_zero | ⟨-, -, h_odd⟩ | ⟨h_more, h_stored⟩
  · omega
  · exact absurd (h_odd h_dle) (by omega)
  split
  · next h_eq =>
    subst h_eq
    constructor
    · rintro ⟨k, h_k, -, h_le⟩
      cases h_k
      omega
    · rintro ⟨-, h_open⟩
      exact absurd ⟨trivial, by omega⟩ h_open
  · next h_ne =>
    by_cases h_last : i = (s.fresh y).rxCount
    · rw [h_stored, h_last, Function.update_self]
      constructor
      · rintro ⟨k, h_k, -, h_le⟩
        cases h_k
        omega
      · rintro ⟨-, h_open⟩
        exact absurd ⟨trivial, by omega⟩ h_open
    · constructor
      · rintro ⟨k, h_k, h_one, -⟩
        refine ⟨?_, fun h => by omega⟩
        by_contra h_lt
        exact absurd (h_theirs i h_pos (by omega) k h_k) (by omega)
      · rintro ⟨h_ge, -⟩
        obtain ⟨k, h_k, h_one, h_lt⟩ := h_ours i h_pos h_ge (by omega)
        rw [h_stored, Function.update_of_ne h_last] at h_k
        have h_low' : (s.next y).low = min s.low (s.next y).conf.1.rxCount := rfl
        have h_keep := Traced.fresh_eq (s := s) (x := y) (by omega)
        rw [h_keep] at h_more h_last
        obtain ⟨k', h_k', -, h_lt'⟩ := h.ours i h_pos (by omega) (by omega)
        obtain rfl := Option.some.inj (h_k'.symm.trans h_k)
        refine ⟨k', ?_, h_one, by omega⟩
        rw [h_stored, h_keep, Function.update_of_ne h_last, h_k']

/-- A byte other than ETX. -/
theorem passesOn_of_ne (h : x.data ≠ 0x03) (closing : Prop) :
    PassesOn n s x ↔ ¬ Misread s x closing :=
  passesOn_iff fun h_end => absurd h_end.1 h

/-- The counters of a run from power-up. -/
theorem after_ok (p : Pbuf) (xs : List Input) : (Run.after tsipByte (.powerUp, p) xs).1.Ok :=
  after_induction tsipByte (I := fun _ c => c.1.Ok) Tsip.Ok.powerUp
    (fun _ c x h => tsipFeed_ok h c.2 x.tick.toNat x.data) xs

/-- **All that a frame passes on is from its body, exactly if no packet in it is misread.** The
frame comes at any ticks, and behind any bytes. -/
theorem tsip_fields_iff (p : Pbuf) (before : List Input) (f : TsipBody) (xs : List Input)
    (h_frame : xs.map Input.data = f.frame) :
    (∀ pre x post, xs = pre ++ x :: post →
        PassesOn (stuff f.bytes).length
          ((Traced.start (Run.after tsipByte (.powerUp, p) before)).after pre) x) ↔
      ∀ pre x post, xs = pre ++ x :: post →
        ¬ Misread ((Traced.start (Run.after tsipByte (.powerUp, p) before)).after pre) x
          (post = []) := by
  refine forall_congr' fun pre => forall_congr' fun x => forall_congr' fun post =>
    forall_congr' fun h_split => ?_
  have h_ok := after_ok p before
  generalize Run.after tsipByte (.powerUp, p) before = c at h_ok
  have h_dle : (0x10 : UInt8) ≠ 0x03 := by decide
  obtain ⟨d, xs, rfl, h_d, h_xs⟩ := List.map_eq_cons_iff.mp h_frame
  obtain ⟨ys, zs, rfl, h_ys, h_zs⟩ := List.map_eq_append_iff.mp h_xs
  obtain ⟨y, zs, rfl, h_y, h_zs⟩ := List.map_eq_cons_iff.mp h_zs
  obtain ⟨z, zs, rfl, h_z, h_zs⟩ := List.map_eq_cons_iff.mp h_zs
  obtain rfl := List.map_eq_nil_iff.mp h_zs
  have h_length : (stuff f.bytes).length = ys.length := by rw [← h_ys, List.length_map]
  rw [h_length]
  have h_start : Divided ((Traced.start c).next d) := divided_start h_ok d
  cases pre with
  | nil =>
    obtain ⟨rfl, -⟩ := List.cons_eq_cons.mp h_split
    exact passesOn_of_ne (h_d ▸ h_dle) _
  | cons d' pre =>
    obtain ⟨rfl, h_tail⟩ := List.cons_eq_cons.mp h_split
    rw [Traced.after_cons]
    have h_state := fun pre => h_start.after le_rfl pre
    have h_count : ∀ pre, (((Traced.start c).next d).after pre).count = 1 + pre.length :=
      fun pre => Traced.count_after _ pre
    rcases List.append_eq_append_iff.mp h_tail with ⟨as, rfl, h_rest⟩ | ⟨as, rfl, h_rest⟩
    · cases as with
      | nil =>
        obtain ⟨rfl, -⟩ := List.cons_eq_cons.mp h_rest
        exact passesOn_of_ne (h_y ▸ h_dle) _
      | cons y' as =>
        -- the ETX
        obtain ⟨rfl, h_last⟩ := List.cons_eq_cons.mp h_rest
        obtain ⟨rfl, h_last⟩ :=
          (List.append_eq_singleton_iff.mp h_last.symm).resolve_right (by simp)
        obtain ⟨rfl, rfl⟩ := List.cons_eq_cons.mp h_last
        have h_etx := (h_state ys).passesOn_etx_iff (n := ys.length) (by rw [h_count]; omega)
          (by rw [h_count]; omega) h_y z
        rw [Traced.after_append]
        simpa only [Traced.after_cons, Traced.after_nil] using h_etx
    · cases as with
      | nil =>
        obtain ⟨rfl, -⟩ := List.cons_eq_cons.mp h_rest
        exact passesOn_of_ne (h_y ▸ h_dle) _
      | cons x' as =>
        -- a byte of the body
        obtain ⟨rfl, rfl⟩ := List.cons_eq_cons.mp h_rest
        have h_body := (h_state pre).passesOn_iff (n := (pre ++ x :: as).length)
          (by rw [h_count]; omega) (by rw [h_count]; simp; omega) x
        have h_more : (as ++ [y, z] = []) = False := by simp
        rwa [← h_more] at h_body

theorem timePacket_ne_dle : (0x8F : UInt8) ≠ 0x10 := by decide

/-- A time packet that has all its fields. -/
def timeBody : TsipBody :=
  ⟨0x8F, [0xAB, 0, 0, 0, 0, 0, 0, 0, 0, 0, 56, 34, 12, 6, 7, 7, 0xDE], timePacket_ne_dle⟩

theorem tsip_fields_time :
    (∀ pre x post, atTick 7 timeBody.frame = pre ++ x :: post →
        PassesOn (stuff timeBody.bytes).length
          ((Traced.start (Run.after tsipByte (.powerUp, fun _ => 0) [])).after pre) x) ↔
      ∀ pre x post, atTick 7 timeBody.frame = pre ++ x :: post →
        ¬ Misread ((Traced.start (Run.after tsipByte (.powerUp, fun _ => 0) [])).after pre) x
          (post = []) :=
  tsip_fields_iff _ [] timeBody _ (data_atTick 7 _)

/-- A time packet with two bytes of data missing. -/
def shortBody : TsipBody :=
  ⟨0x8F, [0xAB, 0, 0, 0, 0, 0, 0, 0, 0, 0, 56, 34, 12, 6, 7], timePacket_ne_dle⟩

/-- Its year is DLE ETX. -/
theorem tsip_fields_short :
    ¬ ∀ (p : Pbuf) (before : List Input) (f : TsipBody) (xs : List Input),
      xs.map Input.data = f.frame → ∀ pre x post, xs = pre ++ x :: post →
        PassesOn (stuff f.bytes).length
          ((Traced.start (Run.after tsipByte (.powerUp, p) before)).after pre) x := by
  intro h_all
  have h_etx := h_all (fun _ => 0) [] shortBody (atTick 7 shortBody.frame) (data_atTick 7 _)
    ((atTick 7 shortBody.frame).take 18) ⟨7, 0x03⟩ [] (by decide)
  -- the packet is too short, and the ETX itself is read as a byte of the year
  have h_call : .setUtc 0x1003 7 6 12 34 56 ∈ (((Traced.start (.powerUp, fun _ => 0)).after
      ((atTick 7 shortBody.frame).take 18)).out ⟨7, 0x03⟩).calls := by decide +kernel
  -- it comes from position 18 of the frame
  have h_origin : (((Traced.start (.powerUp, fun _ => 0)).after
      ((atTick 7 shortBody.frame).take 18)).next ⟨7, 0x03⟩).origin 18 = some 18 := by
    decide +kernel
  obtain ⟨k, h_k, -, h_le⟩ := h_etx _ h_call 18 (by decide)
  obtain rfl := Option.some.inj (h_origin.symm.trans h_k)
  exact absurd h_le (by decide)

end Gps
end Laureline
