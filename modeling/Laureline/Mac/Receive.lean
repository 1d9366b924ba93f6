import Laureline.Mac.RxRing

/-!
# What is received

The frames that the driver is done with are the valid frames that the DMA stored, in their order
and with their own bytes, each of them once. A frame for which `pbuf_alloc` gave a chain is passed
to lwIP; those that are dropped found no buffer (`received_in_order`). A call that returns 0
leaves no valid frame behind.

`Ring` counts the descriptors: from `released` to the number of stored entries they belong to the
driver. `PcInv` says what holds at an access, `rx_ptr` being at `released` or one further, and
`Answered` is about the answers of `pbuf_alloc`.
-/

namespace Laureline

namespace Mac

namespace Rx

open Bytes RingSlot

/-! ### The accesses, one by one -/

/-- What one access of the driver does, with the condition under which it happens. -/
inductive Access (s : State) : State → Prop
  | idle (hpc : s.pc = .test) (ho : isOwn (s.desc s.rxPtr).des0 = true) :
      Access s { s with pc := .returned (some 0) }
  | valid (hpc : s.pc = .test) (ho : isOwn (s.desc s.rxPtr).des0 = false)
      (hv : isValid (s.desc s.rxPtr).des0 = true) : Access s { s.take with pc := .alloc }
  | invalid (hpc : s.pc = .test) (ho : isOwn (s.desc s.rxPtr).des0 = false)
      (hv : isValid (s.desc s.rxPtr).des0 = false) : Access s { s with pc := .dropOwn }
  | dropOwn (hpc : s.pc = .dropOwn) : Access s { s.give s.rxPtr with pc := .dropNext }
  | dropNext (hpc : s.pc = .dropNext) :
      Access s { s with rxPtr := s.rxPtr + 1, passed := s.passed + 1, pc := .test }
  | read {q : ℕ} {qs : List ℕ} (hpc : s.pc = .read (q :: qs)) :
      Access s { s.modify s.rdesc fun _ => ((s.desc s.rdesc).read q).2 with
        payload := s.payload ++ ((s.desc s.rdesc).read q).1, pc := .read qs }
  | copied (hpc : s.pc = .read []) : Access s { s with pc := .release true }
  | release {p : Bool} (hpc : s.pc = .release p) :
      Access s { s.give s.rdesc with pc := .poll p }
  | poll {p : Bool} (hpc : s.pc = .poll p) :
      Access s { s with suspended := false, pc := if p then .input else .returned (some 1) }
  | input (hpc : s.pc = .input) :
      Access s { s with handled := s.handled ++ [(s.payload, true)], pc := .returned (some 1) }

/-- The driver does nothing else. -/
theorem access_of_driver {s s' : State} (h : s.driver = some s') : Access s s' := by
  cases hpc : s.pc <;> simp only [State.driver, hpc, reduceCtorEq, Option.some.injEq] at h
  case test =>
    -- the descriptor is still with the DMA, holds a valid frame, or is dropped
    split_ifs at h with ho hv <;> obtain rfl := Option.some.inj h
    · exact .idle hpc ho
    · exact .valid hpc (by simpa using ho) hv
    · exact .invalid hpc (by simpa using ho) (by simpa using hv)
  case dropOwn =>
    subst h
    exact .dropOwn hpc
  case dropNext =>
    subst h
    exact .dropNext hpc
  case read qs =>
    cases qs with
    | nil =>
      -- the copy ends with the last pbuf of the chain
      obtain rfl := Option.some.inj h
      exact .copied hpc
    | cons q qs =>
      obtain rfl := Option.some.inj h
      exact .read hpc
  case release p =>
    subst h
    exact .release hpc
  case poll p =>
    subst h
    exact .poll hpc
  case input =>
    subst h
    exact .input hpc

theorem call_inv {s s' : State} (h : s.next .call = some s') :
    (∃ rc, s.pc = .returned rc) ∧ s' = { s with pc := .test } := by
  cases hpc : s.pc <;> simp only [State.next, hpc, reduceCtorEq, Option.some.injEq] at h
  exact ⟨⟨_, rfl⟩, h.symm⟩

theorem pbufAlloc_inv {s s' : State} {chain : Option (List ℕ)}
    (h : s.next (.pbufAlloc chain) = some s') : s.pc = .alloc ∧ s' = s.allocated chain := by
  simp only [State.next] at h
  split_ifs at h with hpc
  exact ⟨hpc, (Option.some.inj h).symm⟩

theorem dma_inv {s s' : State} {e : Entry} (h : s.next (.dma e) = some s') :
    isOwn (s.desc s.dma).des0 = true ∧ s' = s.fill e := by
  simp only [State.next] at h
  split_ifs at h with ho
  exact ⟨ho, (Option.some.inj h).symm⟩

theorem suspend_inv {s s' : State} (h : s.next .suspend = some s') :
    s' = { s with suspended := true } := by
  simp only [State.next] at h
  split_ifs at h with ho
  exact (Option.some.inj h).symm

/-! ### The descriptors -/

/-- From `released` on the descriptors hold what the DMA stored, and the others are free. -/
structure Ring (s : State) : Prop where
  dma : s.dma = slot rxBufs s.stored.length
  released_le : s.released ≤ s.stored.length
  stored_le : s.stored.length ≤ s.released + rxBufs
  /-- The descriptors of the driver. -/
  filled : ∀ i e, s.released ≤ i → s.stored[i]? = some e →
    (s.desc (slot rxBufs i)).des0 = e.des0 ∧ (s.desc (slot rxBufs i)).buf = e.buf
  /-- The descriptors of the DMA. -/
  free : ∀ i, s.stored.length ≤ i → i < s.released + rxBufs →
    (s.desc (slot rxBufs i)).des0 = rdes0Own

namespace Ring

variable {s s' : State}

theorem start : Ring start where
  dma := rfl
  released_le := le_refl 0
  stored_le := Nat.zero_le _
  filled i e _ h := absurd h (by simp [Rx.start])
  free _ _ _ := rfl

/-- An access that changes neither a status nor a buffer. -/
theorem congr (h : Ring s) (hd : ∀ d, (s'.desc d).des0 = (s.desc d).des0 ∧
    (s'.desc d).buf = (s.desc d).buf) (hdma : s'.dma = s.dma) (hr : s'.released = s.released)
    (hs : s'.stored = s.stored) : Ring s' where
  dma := by rw [hdma, hs, h.dma]
  released_le := by rw [hr, hs]; exact h.released_le
  stored_le := by rw [hr, hs]; exact h.stored_le
  filled i e hi he := by
    rw [(hd _).1, (hd _).2]
    exact h.filled i e (hr ▸ hi) (hs ▸ he)
  free i hi hi' := by
    rw [(hd _).1]
    exact h.free i (hs ▸ hi) (hr ▸ hi')

/-- The driver gives its first descriptor back. -/
theorem give (h : Ring s) (h_lt : s.released < s.stored.length) :
    Ring (s.give (slot rxBufs s.released)) where
  dma := h.dma
  released_le := h_lt
  stored_le := by
    show s.stored.length ≤ s.released + 1 + rxBufs
    have := h.stored_le
    omega
  filled i e hi he := by
    have hi : s.released + 1 ≤ i := hi
    have h_len : i < s.stored.length := (List.getElem?_eq_some_iff.mp he).1
    -- the ring has one slot for each of the entries that are not released
    have h_ne : slot rxBufs i ≠ slot rxBufs s.released := fun h_eq => by
      have := slot_inj_of_window (k := s.released) (by omega) (by have := h.stored_le; omega)
        (le_refl _) (Nat.lt_add_of_pos_right (by decide)) h_eq
      omega
    rw [give_desc, if_neg h_ne]
    exact h.filled i e (by omega) he
  free i hi hi' := by
    rw [give_desc]
    -- the slot that was given back is the one behind the last
    split_ifs with h_eq
    · rfl
    · have hi' : i < s.released + 1 + rxBufs := hi'
      refine h.free i hi (lt_of_le_of_ne (by omega) fun h_last => h_eq ?_)
      rw [h_last, slot_add_self]

/-- The DMA has a free descriptor only if the ring is not full. -/
theorem stored_lt (h : Ring s) (ho : isOwn (s.desc s.dma).des0 = true) :
    s.stored.length < s.released + rxBufs := by
  refine lt_of_le_of_ne h.stored_le fun h_full => ?_
  have h_lt : s.released < s.stored.length := by
    rw [h_full]
    exact Nat.lt_add_of_pos_right (by decide)
  -- the slot after the last one is the first one of the driver
  have h_first := h.filled s.released _ (le_refl _) (List.getElem?_eq_getElem h_lt)
  rw [h.dma, h_full, slot_add_self, h_first.1, (s.stored[s.released]).own] at ho
  exact Bool.false_ne_true ho

theorem fill (h : Ring s) {e : Entry} (ho : isOwn (s.desc s.dma).des0 = true) :
    Ring (s.fill e) := by
  have h_lt := h.stored_lt ho
  have h_len : (s.fill e).stored.length = s.stored.length + 1 := by simp [State.fill]
  -- the descriptor of the DMA is the next one after the stored frames, and no other
  have h_ne : ∀ i, s.released ≤ i → i < s.released + rxBufs → i ≠ s.stored.length →
      slot rxBufs i ≠ s.dma := fun i hi hi' h_ne h_eq => by
    rw [h.dma] at h_eq
    exact h_ne (slot_inj_of_window hi hi' h.released_le h_lt h_eq)
  constructor
  case dma => rw [h_len, slot_succ, ← h.dma]; rfl
  case released_le => rw [h_len]; exact Nat.le_succ_of_le h.released_le
  case stored_le => rw [h_len]; exact h_lt
  case filled =>
    intro i x hi hx
    have hi : s.released ≤ i := hi
    rw [fill_desc]
    have hx : (s.stored ++ [e])[i]? = some x := hx
    -- an older entry keeps its descriptor; the new one is what the DMA has written
    rcases Nat.lt_or_ge i s.stored.length with h_old | h_new
    · rw [List.getElem?_append_left h_old] at hx
      rw [if_neg (h_ne i hi (by omega) (by omega))]
      exact h.filled i x hi hx
    · have h_i : i = s.stored.length := by
        have := (List.getElem?_eq_some_iff.mp hx).1
        simp only [List.length_append, List.length_singleton] at this
        omega
      rw [h_i, List.getElem?_concat_length] at hx
      obtain rfl := Option.some.inj hx
      rw [if_pos (by rw [h_i, h.dma])]
      exact ⟨rfl, rfl⟩
  case free =>
    intro i hi hi'
    rw [h_len] at hi
    have hi' : i < s.released + rxBufs := hi'
    rw [fill_desc, if_neg (h_ne i (le_trans h.released_le (by omega)) hi' (by omega))]
    exact h.free i (by omega) hi'

end Ring

/-! ### The frames -/

/-- The valid frames among the first entries. -/
def framesOf (es : List Entry) : List (List UInt8) := (es.filter Entry.valid).map Entry.frame

theorem framesOf_take_succ {es : List Entry} {i : ℕ} {e : Entry} (h : es[i]? = some e) :
    framesOf (es.take (i + 1)) = framesOf (es.take i) ++ if e.valid then [e.frame] else [] := by
  rw [List.take_add_one, h, framesOf, List.filter_append, List.map_append]
  congr 1
  cases h_valid : e.valid <;> simp [h_valid]

theorem Entry.length_frame {e : Entry} (h : e.valid = true) :
    e.frame.length = frameLength e.des0 - 4 := by
  rw [Entry.frame, List.length_take, e.length_buf]
  have := (e.fits h).2
  omega

/-- The descriptors that the driver is done with. -/
def State.done (s : State) : ℕ :=
  match s.pc with
  | .release false => s.released + 1
  | .poll true | .input => s.released - 1
  | _ => s.released

/-- The valid frame `e` is at `rdesc`, and `k` of its bytes are copied. -/
structure Held (s : State) (e : Entry) (k : ℕ) : Prop where
  passed : s.passed = s.released + 1
  rdesc : s.rdesc = slot rxBufs s.released
  entry : s.stored[s.released]? = some e
  valid : e.valid = true
  size : (s.desc s.rdesc).size = e.frame.length
  offset : (s.desc s.rdesc).offset = k

/-- What holds at an access. -/
def PcInv (s : State) : Prop :=
  match s.pc with
  | .returned _ | .test | .poll false => s.passed = s.released
  | .dropOwn => s.passed = s.released ∧ ∃ e, s.stored[s.released]? = some e ∧ e.valid = false
  | .dropNext => s.released = s.passed + 1
  | .alloc | .release false => ∃ e, Held s e 0
  | .read qs => ∃ e, ∃ k, Held s e k ∧ s.payload = e.frame.take k ∧ k + qs.sum = e.frame.length
  | .release true => ∃ e, ∃ k, Held s e k ∧ s.payload = e.frame
  | .poll true | .input => s.passed = s.released ∧
    ∃ i e, s.released = i + 1 ∧ s.stored[i]? = some e ∧ e.valid = true ∧ s.payload = e.frame

/-- The ring, the place of the driver in it, and the frames it is done with. -/
structure Inv (s : State) : Prop extends Ring s where
  rxPtr : s.rxPtr = slot rxBufs s.passed
  pc : PcInv s
  handled : s.handled.map Prod.fst = framesOf (s.stored.take s.done)

section Step

variable {s s' : State} {a : Action} {e : Entry} {k : ℕ}

theorem Held.lt (h : Held s e k) : s.released < s.stored.length :=
  (List.getElem?_eq_some_iff.mp h.entry).1

/-- The descriptor of a valid frame. -/
theorem Held.frame_eq (h : Held s e k) (hI : Ring s) :
    e.frame = (s.desc s.rdesc).buf.take e.frame.length := by
  rw [Entry.length_frame h.valid, h.rdesc, (hI.filled _ _ (le_refl _) h.entry).2, Entry.frame]

theorem Inv.done_le (hI : Inv s) : s.done ≤ s.stored.length := by
  have h_pc := hI.pc
  have h_le := hI.released_le
  rw [State.done]
  split
  · next hpc =>
    simp only [PcInv, hpc] at h_pc
    obtain ⟨e, h_held⟩ := h_pc
    exact h_held.lt
  · omega
  · omega
  · exact h_le

/-- The DMA changes nothing of a frame that the driver holds. -/
theorem PcInv.congr (h : PcInv s) (hpc : s'.pc = s.pc) (hp : s'.passed = s.passed)
    (hr : s'.released = s.released) (h_payload : s'.payload = s.payload)
    (h_stored : ∀ (i : ℕ) (x : Entry), s.stored[i]? = some x → s'.stored[i]? = some x)
    (h_held : ∀ x k, Held s x k → Held s' x k) : PcInv s' := by
  unfold PcInv at h ⊢
  rw [hpc, hp, hr, h_payload]
  -- one goal for each value of `pc`
  split at h
  · exact h
  · exact h
  · exact h
  · obtain ⟨h1, x, hx, hv⟩ := h
    exact ⟨h1, x, h_stored _ _ hx, hv⟩
  · exact h
  · obtain ⟨x, hx⟩ := h
    exact ⟨x, h_held x 0 hx⟩
  · obtain ⟨x, hx⟩ := h
    exact ⟨x, h_held x 0 hx⟩
  · obtain ⟨x, k, hx, h1⟩ := h
    exact ⟨x, k, h_held x k hx, h1⟩
  · obtain ⟨x, k, hx, h1⟩ := h
    exact ⟨x, k, h_held x k hx, h1⟩
  · obtain ⟨h1, i, x, h2, hx, h3⟩ := h
    exact ⟨h1, i, x, h2, h_stored _ _ hx, h3⟩
  · obtain ⟨h1, i, x, h2, hx, h3⟩ := h
    exact ⟨h1, i, x, h2, h_stored _ _ hx, h3⟩

/-- The entry at `rx_ptr`, if the DMA is done with it. -/
theorem Inv.entry_at (hI : Inv s) (h_passed : s.passed = s.released)
    (ho : isOwn (s.desc s.rxPtr).des0 = false) :
    ∃ e, s.stored[s.released]? = some e ∧ (s.desc s.rxPtr).des0 = e.des0 := by
  rw [hI.rxPtr, h_passed] at ho ⊢
  rcases Nat.lt_or_ge s.released s.stored.length with h_lt | h_ge
  · have he := List.getElem?_eq_getElem h_lt
    exact ⟨_, he, (hI.filled _ _ (le_refl _) he).1⟩
  · rw [hI.free _ h_ge (Nat.lt_add_of_pos_right (by decide))] at ho
    exact absurd ho (by decide)

theorem Inv.start : Inv start :=
  { Ring.start with rxPtr := rfl, pc := rfl, handled := rfl }

theorem Inv.step_call (hI : Inv s) (h : s.next .call = some s') : Inv s' := by
  obtain ⟨⟨rc, hpc⟩, rfl⟩ := call_inv h
  have h_pc := hI.pc
  have h_handled := hI.handled
  simp only [PcInv, hpc] at h_pc
  simp only [State.done, hpc] at h_handled
  exact { hI.toRing.congr (fun _ => ⟨rfl, rfl⟩) rfl rfl rfl with
    rxPtr := hI.rxPtr, pc := h_pc, handled := h_handled }

theorem Inv.step_pbufAlloc {chain : Option (List ℕ)} (hI : Inv s)
    (hg : Promised s (.pbufAlloc chain)) (h : s.next (.pbufAlloc chain) = some s') : Inv s' := by
  obtain ⟨hpc, rfl⟩ := pbufAlloc_inv h
  have h_pc := hI.pc
  have h_handled := hI.handled
  simp only [PcInv, hpc] at h_pc
  simp only [State.done, hpc] at h_handled
  obtain ⟨e, h_held⟩ := h_pc
  obtain ⟨h1, h2, h3, h4, h5, h6⟩ := id h_held
  cases chain with
  | some qs =>
    have h_sum : qs.sum = e.frame.length := by
      rw [← h5]
      exact hg
    exact { hI.toRing.congr (fun _ => ⟨rfl, rfl⟩) rfl rfl rfl with
      rxPtr := hI.rxPtr
      pc := ⟨e, 0, ⟨h1, h2, h3, h4, h5, h6⟩, rfl, by omega⟩
      handled := h_handled }
  | none =>
    -- the frame is lost, and the driver is done with it
    refine { hI.toRing.congr (fun _ => ⟨rfl, rfl⟩) rfl rfl rfl with
      rxPtr := hI.rxPtr
      pc := ⟨e, h1, h2, h3, h4, h5, h6⟩
      handled := ?_ }
    show (s.handled ++ [_]).map Prod.fst = framesOf (s.stored.take (s.released + 1))
    rw [framesOf_take_succ h3, if_pos h4, List.map_append, h_handled, h5]
    exact congrArg (fun x => _ ++ [x]) (h_held.frame_eq hI.toRing).symm

theorem Inv.step_dma (hI : Inv s) (h : s.next (.dma e) = some s') : Inv s' := by
  obtain ⟨ho, rfl⟩ := dma_inv h
  -- the new entry goes to the end
  have h_stored (i : ℕ) (x : Entry) (hx : s.stored[i]? = some x) :
      (s.fill e).stored[i]? = some x :=
    (List.getElem?_append_left (List.getElem?_eq_some_iff.mp hx).1).trans hx
  -- the frame that the driver holds is not written
  have h_held (x : Entry) (k : ℕ) (hx : Held s x k) : Held (s.fill e) x k := by
    obtain ⟨h1, h2, h3, h4, h5, h6⟩ := hx
    refine ⟨h1, h2, h_stored _ _ h3, h4, ?_, ?_⟩
    · show ((s.fill e).desc s.rdesc).size = _
      rw [fill_desc]
      split_ifs <;> exact h5
    · show ((s.fill e).desc s.rdesc).offset = _
      rw [fill_desc]
      split_ifs <;> exact h6
  refine { hI.toRing.fill ho with rxPtr := hI.rxPtr, pc := ?_, handled := ?_ }
  · exact PcInv.congr hI.pc rfl rfl rfl rfl h_stored h_held
  · show _ = framesOf ((s.stored ++ [e]).take s.done)
    -- the frames that are done with lie before the new one
    rw [List.take_append_of_le_length hI.done_le]
    exact hI.handled

/-- A valid frame is at the driver's first descriptor. -/
theorem Inv.take (hI : Inv s) (hpc : s.pc = .test) (ho : isOwn (s.desc s.rxPtr).des0 = false)
    (hv : isValid (s.desc s.rxPtr).des0 = true) : Inv { s.take with pc := .alloc } := by
  have h_passed := hI.pc
  have h_handled := hI.handled
  simp only [PcInv, hpc] at h_passed
  simp only [State.done, hpc] at h_handled
  -- OWN is clear, so the descriptor holds the next stored frame
  obtain ⟨e, he, h_des0⟩ := hI.entry_at h_passed ho
  have h_valid : e.valid = true := by rw [Entry.valid, ← h_des0, hv]
  -- offset and size of the descriptor are not part of the ring
  have h_ring : Ring { s.take with pc := .alloc } := by
    refine hI.toRing.congr (fun d => ?_) rfl rfl rfl
    show (s.take.desc d).des0 = _ ∧ (s.take.desc d).buf = _
    rw [take_desc]
    split_ifs <;> exact ⟨rfl, rfl⟩
  refine { h_ring with
    rxPtr := ?_, pc := ⟨e, ?_, ?_, he, h_valid, ?_, ?_⟩, handled := h_handled }
  · show s.rxPtr + 1 = slot rxBufs (s.passed + 1)
    rw [slot_succ, hI.rxPtr]
  · show s.passed + 1 = s.released + 1
    rw [h_passed]
  · show s.rxPtr = slot rxBufs s.released
    rw [hI.rxPtr, h_passed]
  · show (s.take.desc s.rxPtr).size = _
    rw [take_desc, if_pos rfl, Entry.length_frame h_valid, ← h_des0]
  · show (s.take.desc s.rxPtr).offset = 0
    rw [take_desc, if_pos rfl]

/-- Some bytes are copied to the next buffer of the chain. -/
theorem Inv.read {q : ℕ} {qs : List ℕ} (hI : Inv s) (hpc : s.pc = .read (q :: qs)) :
    Inv { s.modify s.rdesc fun _ => ((s.desc s.rdesc).read q).2 with
      payload := s.payload ++ ((s.desc s.rdesc).read q).1, pc := .read qs } := by
  have h_pc := hI.pc
  have h_handled := hI.handled
  simp only [PcInv, hpc] at h_pc
  simp only [State.done, hpc] at h_handled
  obtain ⟨e, k, h_held, h_payload, h_sum⟩ := h_pc
  rw [List.sum_cons] at h_sum
  obtain ⟨h1, h2, h3, h4, h5, h6⟩ := id h_held
  -- the descriptor has as many bytes left
  have h_read : (s.desc s.rdesc).read q =
      (slice k q (s.desc s.rdesc).buf, { s.desc s.rdesc with offset := k + q }) := by
    rw [Desc.read, h6, if_neg (by omega)]
  rw [h_read]
  have h_desc := modify_desc s s.rdesc fun _ => { s.desc s.rdesc with offset := k + q }
  have h_ring : Ring { s.modify s.rdesc fun _ => { s.desc s.rdesc with offset := k + q } with
      payload := s.payload ++ slice k q (s.desc s.rdesc).buf, pc := .read qs } := by
    refine hI.toRing.congr (fun d => ?_) rfl rfl rfl
    rw [h_desc]
    split_ifs with hd
    · rw [hd]
      exact ⟨rfl, rfl⟩
    · exact ⟨rfl, rfl⟩
  refine { h_ring with
    rxPtr := hI.rxPtr
    pc := ⟨e, k + q, ⟨h1, h2, h3, h4, ?_, ?_⟩, ?_, by omega⟩
    handled := h_handled }
  · exact (congrArg Desc.size ((h_desc s.rdesc).trans (if_pos rfl))).trans h5
  · exact congrArg Desc.offset ((h_desc s.rdesc).trans (if_pos rfl))
  · show s.payload ++ slice k q (s.desc s.rdesc).buf = e.frame.take (k + q)
    rw [h_payload, List.take_add, ← slice, h_held.frame_eq hI.toRing, slice_take (by omega),
      ← h_held.frame_eq hI.toRing]

/-- A descriptor goes back to the DMA with its frame copied, or without a buffer for it. -/
theorem Inv.release {p : Bool} (hI : Inv s) (hpc : s.pc = .release p) :
    Inv { s.give s.rdesc with pc := .poll p } := by
  have h_pc := hI.pc
  have h_handled := hI.handled
  cases p with
  | true =>
    -- a copied frame stays with the driver until `netif->input`
    simp only [PcInv, hpc] at h_pc
    simp only [State.done, hpc] at h_handled
    obtain ⟨e, k, h_held, h_payload⟩ := h_pc
    rw [h_held.rdesc]
    exact { hI.toRing.give h_held.lt with
      rxPtr := hI.rxPtr
      pc := ⟨h_held.passed, _, e, rfl, h_held.entry, h_held.valid, h_payload⟩
      handled := h_handled }
  | false =>
    -- a dropped one has been counted
    simp only [PcInv, hpc] at h_pc
    simp only [State.done, hpc] at h_handled
    obtain ⟨e, h_held⟩ := h_pc
    rw [h_held.rdesc]
    exact { hI.toRing.give h_held.lt with
      rxPtr := hI.rxPtr, pc := h_held.passed, handled := h_handled }

theorem Inv.step_driver (hI : Inv s) (h : s.next .driver = some s') : Inv s' := by
  have h_pc := hI.pc
  have h_handled := hI.handled
  cases access_of_driver h with
  | idle hpc ho =>
    simp only [PcInv, hpc] at h_pc
    simp only [State.done, hpc] at h_handled
    exact { hI.toRing.congr (fun _ => ⟨rfl, rfl⟩) rfl rfl rfl with
      rxPtr := hI.rxPtr, pc := h_pc, handled := h_handled }
  | valid hpc ho hv => exact hI.take hpc ho hv
  | invalid hpc ho hv =>
    simp only [PcInv, hpc] at h_pc
    simp only [State.done, hpc] at h_handled
    obtain ⟨e, he, h_des0⟩ := hI.entry_at h_pc ho
    exact { hI.toRing.congr (fun _ => ⟨rfl, rfl⟩) rfl rfl rfl with
      rxPtr := hI.rxPtr
      pc := ⟨h_pc, e, he, by rw [Entry.valid, ← h_des0, hv]⟩
      handled := h_handled }
  | dropOwn hpc =>
    simp only [PcInv, hpc] at h_pc
    simp only [State.done, hpc] at h_handled
    obtain ⟨h_passed, e, he, hv⟩ := h_pc
    rw [hI.rxPtr, h_passed]
    refine { hI.toRing.give (List.getElem?_eq_some_iff.mp he).1 with
      rxPtr := ?_, pc := ?_, handled := ?_ }
    · show s.rxPtr = _
      rw [hI.rxPtr]
      rfl
    · show s.released + 1 = s.passed + 1
      rw [h_passed]
    · show s.handled.map Prod.fst = framesOf (s.stored.take (s.released + 1))
      rw [framesOf_take_succ he, hv, h_handled]
      exact (List.append_nil _).symm
  | dropNext hpc =>
    simp only [PcInv, hpc] at h_pc
    simp only [State.done, hpc] at h_handled
    refine { hI.toRing.congr (fun _ => ⟨rfl, rfl⟩) rfl rfl rfl with
      rxPtr := ?_, pc := h_pc.symm, handled := h_handled }
    show s.rxPtr + 1 = slot rxBufs (s.passed + 1)
    rw [slot_succ, hI.rxPtr]
  | read hpc => exact hI.read hpc
  | copied hpc =>
    simp only [PcInv, hpc] at h_pc
    simp only [State.done, hpc] at h_handled
    obtain ⟨e, k, ⟨h1, h2, h3, h4, h5, h6⟩, h_payload, h_sum⟩ := h_pc
    have h_k : k = e.frame.length := h_sum
    exact { hI.toRing.congr (fun _ => ⟨rfl, rfl⟩) rfl rfl rfl with
      rxPtr := hI.rxPtr
      pc := ⟨e, k, ⟨h1, h2, h3, h4, h5, h6⟩, by
        show s.payload = _
        rw [h_payload, h_k, List.take_length]⟩
      handled := h_handled }
  | release hpc => exact hI.release hpc
  | @poll p hpc =>
    cases p with
    | true =>
      simp only [PcInv, hpc] at h_pc
      simp only [State.done, hpc] at h_handled
      exact { hI.toRing.congr (fun _ => ⟨rfl, rfl⟩) rfl rfl rfl with
        rxPtr := hI.rxPtr, pc := h_pc, handled := h_handled }
    | false =>
      simp only [PcInv, hpc] at h_pc
      simp only [State.done, hpc] at h_handled
      exact { hI.toRing.congr (fun _ => ⟨rfl, rfl⟩) rfl rfl rfl with
        rxPtr := hI.rxPtr, pc := h_pc, handled := h_handled }
  | input hpc =>
    simp only [PcInv, hpc] at h_pc
    simp only [State.done, hpc] at h_handled
    obtain ⟨h_passed, i, e, hi, he, hv, h_payload⟩ := h_pc
    refine { hI.toRing.congr (fun _ => ⟨rfl, rfl⟩) rfl rfl rfl with
      rxPtr := hI.rxPtr, pc := h_passed, handled := ?_ }
    -- the frame that was held is the last one the driver is done with
    show (s.handled ++ [(s.payload, true)]).map Prod.fst = framesOf (s.stored.take s.released)
    rw [hi, framesOf_take_succ he, if_pos hv, List.map_append, h_handled, hi, h_payload]
    rfl

theorem Inv.step (hI : Inv s) (hg : Promised s a) (h : s.next a = some s') : Inv s' := by
  cases a with
  | call => exact hI.step_call h
  | pbufAlloc chain => exact hI.step_pbufAlloc hg h
  | driver => exact hI.step_driver h
  | dma e => exact hI.step_dma h
  | suspend =>
    obtain rfl := suspend_inv h
    have h_held (x : Entry) (k : ℕ) : Held s x k → Held { s with suspended := true } x k :=
      fun ⟨h1, h2, h3, h4, h5, h6⟩ => ⟨h1, h2, h3, h4, h5, h6⟩
    exact { hI.toRing.congr (fun _ => ⟨rfl, rfl⟩) rfl rfl rfl with
      rxPtr := hI.rxPtr
      pc := PcInv.congr hI.pc rfl rfl rfl rfl (fun _ _ => id) h_held
      handled := hI.handled }

theorem Inv.of_reach (h : machine.Reach Promised s) : Inv s :=
  h.invariant .start fun _ _ _ hI hg hn => hI.step hg hn

/-- The frame that is being copied, for which there is a chain. -/
def State.copying (s : State) : List Bool :=
  match s.pc with
  | .read _ | .release true | .poll true | .input => [true]
  | _ => []

/-- A frame is passed on if there was a chain for it, and dropped if there was none. -/
def Answered (s : State) : Prop := s.answers = s.handled.map Prod.snd ++ s.copying

theorem Answered.step_driver (hA : Answered s) (h : s.driver = some s') : Answered s' := by
  cases access_of_driver h with
  | idle hpc | invalid hpc | dropOwn hpc | dropNext hpc | read hpc | copied hpc =>
    simp only [Answered, State.copying, hpc] at hA ⊢
    exact hA
  | valid hpc =>
    simp only [Answered, State.copying, hpc] at hA ⊢
    exact hA
  | @release p hpc =>
    cases p <;> simp only [Answered, State.copying, hpc] at hA ⊢ <;> exact hA
  | @poll p hpc =>
    cases p <;> simp only [Answered, State.copying, hpc] at hA ⊢ <;> exact hA
  | input hpc =>
    -- the copied frame is passed on
    simp only [Answered, State.copying, hpc] at hA ⊢
    rw [List.map_append, hA, List.append_nil]
    rfl

theorem Answered.start : Answered start := rfl

theorem Answered.step (hA : Answered s) (h : s.next a = some s') : Answered s' := by
  cases a with
  | call =>
    obtain ⟨⟨rc, hpc⟩, rfl⟩ := call_inv h
    simp only [Answered, State.copying, hpc] at hA ⊢
    exact hA
  | pbufAlloc chain =>
    obtain ⟨hpc, rfl⟩ := pbufAlloc_inv h
    simp only [Answered, State.copying, hpc, List.append_nil] at hA
    cases chain with
    | some qs =>
      -- the answer is recorded before the frame is passed on, as that of the copy in progress
      show s.answers ++ [true] = s.handled.map Prod.snd ++ [true]
      rw [hA]
    | none =>
      -- a dropped frame is done with at once
      show s.answers ++ [false] = (s.handled ++ [_]).map Prod.snd ++ []
      rw [hA, List.map_append, List.append_nil]
      rfl
  | driver => exact hA.step_driver h
  | dma e =>
    obtain ⟨-, rfl⟩ := dma_inv h
    exact hA
  | suspend =>
    obtain rfl := suspend_inv h
    exact hA

/-- **What lwIP gets.** Whenever the DMA stores frames and whatever `pbuf_alloc` answers, the
frames the driver is done with are the valid ones among the first that were stored, in their
order and with their own bytes; at most `RX_BUFS` + 1 others are stored. Each of them is passed on
if `pbuf_alloc` gave a chain for it and dropped if it gave none, with no answer left over once a
call has returned. A call that returns 0 is done with all stored frames. -/
theorem received_in_order (h : machine.Reach Promised s) :
    (∃ n ≤ s.stored.length, s.stored.length ≤ n + rxBufs + 1 ∧
      s.handled.map Prod.fst = framesOf (s.stored.take n) ∧
      ∀ t, s.next .driver = some t → t.pc = .returned (some 0) → n = s.stored.length) ∧
    s.handled.map Prod.snd <+: s.answers ∧ s.answers.length ≤ s.handled.length + 1 ∧
    ∀ rc, s.pc = .returned rc → s.handled.map Prod.snd = s.answers := by
  have hI := Inv.of_reach h
  have hA : Answered s := h.invariant .start fun _ _ _ hA _ hn => hA.step hn
  have h_copying : s.copying.length ≤ 1 := by
    unfold State.copying
    split <;> simp
  refine ⟨⟨s.done, hI.done_le, ?_, hI.handled, fun t ht h_ret => ?_⟩, ⟨_, hA.symm⟩, ?_, ?_⟩
  · have h_le := hI.stored_le
    have h_done : s.released ≤ s.done + 1 := by
      rw [State.done]
      split <;> omega
    omega
  · cases access_of_driver ht with
    | idle hpc ho =>
      have h_pc := hI.pc
      simp only [PcInv, hpc] at h_pc
      have h_done : s.done = s.released := by simp only [State.done, hpc]
      rw [h_done]
      refine le_antisymm hI.released_le (not_lt.mp fun h_lt => ?_)
      -- the descriptor at `rx_ptr` would be the driver's
      have h_first := hI.filled s.released _ (le_refl _) (List.getElem?_eq_getElem h_lt)
      rw [hI.rxPtr, h_pc, h_first.1, (s.stored[s.released]).own] at ho
      exact Bool.false_ne_true ho
    | @poll p hpc => cases p <;> exact absurd h_ret (by simp)
    | valid | invalid | dropOwn | dropNext | read | copied | release | input =>
      exact absurd h_ret (by simp)
  · rw [hA, List.length_append, List.length_map]
    omega
  · intro rc hpc
    simp only [Answered, State.copying, hpc, List.append_nil] at hA
    exact hA.symm

end Step

/-! ### Three frames -/

/-- An entry that is all zero but for its status. -/
def zeros (des0 : Word) (own : isOwn des0 = false)
    (fits : isValid des0 = true → 4 ≤ frameLength des0 ∧ frameLength des0 ≤ macBufSize) : Entry :=
  ⟨des0, List.replicate macBufSize 0, own, List.length_replicate, fits⟩

/-- A frame with an error and two of 60 bytes are stored; one is received in two buffers, and
there is none for the other. -/
def threeFrames : List Action :=
  [.dma (zeros 0x00408300 (by decide) (by decide)),
    .dma (zeros 0x00400300 (by decide) (by decide)),
    .dma (zeros 0x00400300 (by decide) (by decide)), .call] ++ List.replicate 4 .driver ++
    [.pbufAlloc (some [40, 20])] ++ List.replicate 6 .driver ++ [.call, .driver, .pbufAlloc none] ++
    List.replicate 2 .driver

/-- The second frame is passed on and the third one is dropped. -/
theorem received_in_order_three :
    (machine.after Promised threeFrames).handled.map Prod.snd = [true, false] ∧
      (machine.after Promised threeFrames).answers = [true, false] := by
  have h_reach : machine.Reach Promised (machine.after Promised threeFrames) :=
    machine.reach_after Promised (by decide +kernel)
  have h_all := received_in_order h_reach
  have h_answers : (machine.after Promised threeFrames).answers = [true, false] := by
    decide +kernel
  have h_pc : (machine.after Promised threeFrames).pc = .returned (some 1) := by decide +kernel
  exact ⟨(h_all.2.2.2 _ h_pc).trans h_answers, h_answers⟩

end Rx

end Mac

end Laureline
