import Laureline.Mac.TxRing
import Mathlib.Data.List.Infix

/-!
# Who releases a frame

Frames of one segment. A reference is taken for every frame that is sent, and
`maczero_housekeeping` releases it when it finds that the DMA is done with the descriptor.

Counting every frame since `mac_start`, frame `i` lies in the descriptor `slot i`, and the
lengths of the lists `released`, `sent` and `taken` say where `tx_active`, the DMA and
`tx_ptr` are (`Ring`). The two pointers alone do not: they are equal both when no descriptor
and when every descriptor holds a frame. The OWN test sees a descriptor that the DMA has
cleared since the housekeeping in front of it, and in a full ring that is the one at
`tx_active`. `NotFull` excludes this.

* `Ring.dmaDone`, `Ring.pbufFree`, `Ring.record`, `Ring.give` — what keeps a ring a ring;
* `housekeeping_all` — the loop releases whatever the DMA is done with;
* `housekeeping_balanced` — every reference is released once, in order, and none is lost.
-/

namespace Laureline

namespace Mac

open RingSlot

/-! ### What the driver is called for -/

/-- Only frames of one segment are sent. -/
def OneSegment (_ : State) : Action → Prop
  | .transmit _ rest => rest = []
  | _ => True

/-- The OWN test does not find the descriptor at `tx_active` released. -/
def NotFull (s : State) (a : Action) : Prop :=
  a = .driver → s.pc = .ownTest → s.ownClear s.call.tdes = true → s.txActive ≠ some s.txPtr

instance (s : State) : ∀ a, Decidable (OneSegment s a)
  | .transmit _ rest => inferInstanceAs (Decidable (rest = []))
  | .giveUp | .driver | .dma => isTrue trivial

instance (s : State) (a : Action) : Decidable (NotFull s a) :=
  inferInstanceAs (Decidable (_ → _ → _ → _))

/-- The driver runs on while the DMA is busy with its descriptor. -/
def OnlyDriver (_ : State) (a : Action) : Prop := a = .driver

/-- Every reference taken for a frame is accounted for. -/
structure Balanced (s : State) : Prop where
  /-- No pointer is overwritten before it is released. -/
  kept : s.overwritten = []
  /-- References are released in the order in which they were taken. -/
  once : s.released <+: s.taken
  /-- The DMA is done with the descriptor first. -/
  afterDma : s.released <+: s.sent
  /-- Housekeeping releases all that the DMA is done with. -/
  all : s.pc = .housekeeping → ∃ as s', machine.Path OnlyDriver s as s' ∧
    s'.pc = .ownTest ∧ s'.sent = s.sent ∧ s'.released = s.sent

/-! ### The ring -/

/-- The frames `refs` were put into the ring, the first `m` of them were given to the DMA,
and `sent` and `released` of them are over. -/
structure Ring (s : State) (refs : List ℕ) (m : ℕ) : Prop where
  released_sent : s.released <+: s.sent
  sent_refs : s.sent <+: refs
  sent_le : s.sent.length ≤ m
  m_le : m ≤ refs.length
  window : refs.length ≤ s.released.length + txBufs
  dma : s.dma = slot txBufs s.sent.length
  own : ∀ d, (s.desc d).des0.own = true ↔ ∃ i, s.sent.length ≤ i ∧ i < m ∧ d = slot txBufs i
  pbuf : ∀ i, s.released.length ≤ i → i < refs.length →
    (s.desc (slot txBufs i)).pbuf = refs[i]?
  held : ∀ d, (s.desc d).held = true ↔
    ∃ i, s.released.length ≤ i ∧ i < refs.length ∧ d = slot txBufs i
  overwritten : s.overwritten = []

namespace Ring

variable {s s' : State} {refs : List ℕ} {m : ℕ}

theorem released_le (h : Ring s refs m) : s.released.length ≤ s.sent.length :=
  h.released_sent.length_le

/-- The pointers of the driver do not matter. -/
theorem congr (h : Ring s refs m) (hd : s'.desc = s.desc) (hm : s'.dma = s.dma)
    (hr : s'.released = s.released) (hs : s'.sent = s.sent)
    (ho : s'.overwritten = s.overwritten) : Ring s' refs m := by
  obtain ⟨h1, h2, h3, h4, h5, h6, h7, h8, h9, h10⟩ := h
  rw [← hr, ← hs] at h1
  rw [← hs] at h2 h3 h6 h7
  rw [← hr] at h5 h8 h9
  rw [← hd] at h7 h8 h9
  exact ⟨h1, h2, h3, h4, h5, hm.trans h6, h7, h8, h9, ho.trans h10⟩

/-- A write that keeps the OWN bit and the pointer. -/
theorem modify (h : Ring s refs m) (d : Pos) {f : Desc → Desc}
    (h_own : (f (s.desc d)).des0.own = (s.desc d).des0.own)
    (h_pbuf : (f (s.desc d)).pbuf = (s.desc d).pbuf)
    (h_held : (f (s.desc d)).held = (s.desc d).held) : Ring (s.modify d f) refs m := by
  -- of the ring only OWN, the pbuf and `held` are read from a descriptor
  obtain ⟨h1, h2, h3, h4, h5, h6, h7, h8, h9, h10⟩ := h
  refine ⟨h1, h2, h3, h4, h5, h6, fun e => Iff.trans ?_ (h7 e), fun i hi hi' => ?_,
    fun e => Iff.trans ?_ (h9 e), h10⟩
  · by_cases he : e = d
    · rw [he, modify_self, h_own]
    · rw [modify_of_ne s f he]
  · rw [← h8 i hi hi']
    by_cases he : slot txBufs i = d
    · rw [he, modify_self, h_pbuf]
    · rw [modify_of_ne s f he]
  · by_cases he : e = d
    · rw [he, modify_self, h_held]
    · rw [modify_of_ne s f he]

/-- A descriptor with a frame that is sent has its OWN bit clear. -/
theorem own_of_sent (h : Ring s refs m) {i : ℕ} (hi : s.released.length ≤ i)
    (hi' : i < s.sent.length) : (s.desc (slot txBufs i)).des0.own = false := by
  rw [Bool.eq_false_iff, ne_eq, h.own]
  rintro ⟨j, hj, hj', h_eq⟩
  have h_win := h.window
  have h_m := h.m_le
  have := slot_inj_of_window (k := s.released.length) hi (by omega) (by omega) (by omega) h_eq
  omega

/-- A descriptor behind the frames of the DMA has its OWN bit clear. -/
theorem own_of_ge (h : Ring s refs m) {i : ℕ} (hi : m ≤ i)
    (hi' : i < s.released.length + txBufs) : (s.desc (slot txBufs i)).des0.own = false := by
  rw [Bool.eq_false_iff, ne_eq, h.own]
  rintro ⟨j, hj, hj', h_eq⟩
  have h_rel := h.released_le
  have h_s := h.sent_le
  have := slot_inj_of_window (k := s.released.length) (by omega) hi' (by omega) (by omega) h_eq
  omega

theorem held_of_free (h : Ring s refs m) (h_free : refs.length < s.released.length + txBufs) :
    (s.desc (slot txBufs refs.length)).held = false := by
  rw [Bool.eq_false_iff, ne_eq, h.held]
  rintro ⟨j, hj, hj', h_eq⟩
  have := slot_inj_of_window (k := s.released.length) (by omega) h_free (by omega) (by omega) h_eq
  omega

/-- **The DMA.** It finishes the oldest frame that it owns. -/
theorem dmaDone (h : Ring s refs m) (ho : (s.desc s.dma).des0.own = true) :
    Ring s.dmaDone refs m ∧ s.dmaDone.sent.length = s.sent.length + 1 := by
  have h_rel := h.released_le
  have h_win := h.window
  have h_m := h.m_le
  -- the frame at the DMA is number `sent.length`
  obtain ⟨i, hi, hi', h_eq⟩ := (h.own s.dma).mp ho
  have h_lt : s.sent.length < m := by
    rw [h.dma] at h_eq
    have := slot_inj_of_window (k := s.released.length) h_rel (by omega) (by omega) (by omega) h_eq
    omega
  have h_pbuf : (s.desc s.dma).pbuf = some (refs[s.sent.length]) := by
    rw [h.dma, h.pbuf _ h_rel (by omega), List.getElem?_eq_getElem]
  have h_sent : s.dmaDone.sent = s.sent ++ [refs[s.sent.length]] := by
    show s.sent ++ (s.desc s.dma).pbuf.toList = _
    rw [h_pbuf, Option.toList_some]
  have h_len : s.dmaDone.sent.length = s.sent.length + 1 := by
    rw [h_sent, List.length_append, List.length_singleton]
  refine ⟨⟨?_, ?_, by omega, h_m, h_win, ?_, fun d => ?_, fun i hi hi' => ?_, fun d => ?_,
    h.overwritten⟩, h_len⟩
  · rw [h_sent]
    exact h.released_sent.trans (List.prefix_append _ _)
  · rw [h_sent]
    exact List.concat_get_prefix h.sent_refs (by omega)
  · rw [h_len, slot_succ, ← h.dma]
    rfl
  · rw [dmaDone_desc, h_len]
    simp only [Bool.and_eq_true, Bool.not_eq_true', decide_eq_false_iff_not]
    rw [h.own]
    constructor
    · rintro ⟨⟨j, hj, hj', rfl⟩, h_ne⟩
      refine ⟨j, ?_, hj', rfl⟩
      by_contra h_le
      exact h_ne (by rw [h.dma, show j = s.sent.length by omega])
    · rintro ⟨j, hj, hj', rfl⟩
      refine ⟨⟨j, by omega, hj', rfl⟩, fun h_eq => ?_⟩
      rw [h.dma] at h_eq
      have := slot_inj_of_window (k := s.released.length) (by omega) (by omega) h_rel (by omega)
        h_eq
      omega
  · rw [dmaDone_desc]
    exact h.pbuf i hi hi'
  · rw [dmaDone_desc]
    exact h.held d

/-- **Housekeeping.** The oldest frame is released, if the DMA is done with it. -/
theorem pbufFree (h : Ring s refs m) (h_lt : s.released.length < s.sent.length) :
    Ring (s.pbufFree (slot txBufs s.released.length)) refs m ∧
      (s.pbufFree (slot txBufs s.released.length)).released.length = s.released.length + 1 := by
  have h_win := h.window
  have h_len := h.sent_refs.length_le
  have h_pbuf : (s.desc (slot txBufs s.released.length)).pbuf =
      some (s.sent[s.released.length]) := by
    rw [h.pbuf _ (le_refl _) (by omega), List.getElem?_eq_getElem (by omega),
      h.sent_refs.getElem h_lt]
  have h_rel : (s.pbufFree (slot txBufs s.released.length)).released =
      s.released ++ [s.sent[s.released.length]] := by
    rw [State.pbufFree, h_pbuf]
  have h_one : (s.pbufFree (slot txBufs s.released.length)).released.length =
      s.released.length + 1 := by
    rw [h_rel, List.length_append, List.length_singleton]
  obtain ⟨h_sent, h_dma, h_over⟩ := pbufFree_eq s (slot txBufs s.released.length)
  refine ⟨⟨?_, ?_, ?_, h.m_le, by omega, ?_, fun d => ?_, fun i hi hi' => ?_, fun d => ?_, ?_⟩,
    h_one⟩
  · rw [h_rel, h_sent]
    exact List.concat_get_prefix h.released_sent h_lt
  · rw [h_sent]
    exact h.sent_refs
  · rw [h_sent]
    exact h.sent_le
  · rw [h_dma, h_sent]
    exact h.dma
  · rw [pbufFree_desc, h_sent]
    exact h.own d
  · rw [pbufFree_desc]
    exact h.pbuf i (by omega) hi'
  · rw [pbufFree_desc, h_one]
    simp only [h_pbuf, Option.isSome_some, and_true, Bool.and_eq_true, Bool.not_eq_true',
      decide_eq_false_iff_not]
    rw [h.held]
    -- the pbuf of the oldest frame is no longer held, the others are
    constructor
    · rintro ⟨⟨i, hi, hi', rfl⟩, h_ne⟩
      refine ⟨i, ?_, hi', rfl⟩
      by_contra h_le
      exact h_ne (by rw [show i = s.released.length by omega])
    · rintro ⟨i, hi, hi', rfl⟩
      refine ⟨⟨i, by omega, hi', rfl⟩, fun h_slot => ?_⟩
      have := slot_inj_of_window (k := s.released.length) (by omega) (by omega) (le_refl _)
        (by rw [txBufs]; omega) h_slot
      omega
  · rw [h_over]
    exact h.overwritten

/-- The pointer in a free descriptor is not held. -/
theorem pbufNull (h : Ring s refs m) (h_free : refs.length < s.released.length + txBufs) :
    Ring (s.pbufNull (slot txBufs refs.length)) refs m := by
  -- the descriptor has no pbuf any more, so only the assignment is left
  have h_held := h.held_of_free h_free
  refine ⟨h.released_sent, h.sent_refs, h.sent_le, h.m_le, h.window, h.dma,
    fun d => Iff.trans ?_ (h.own d), fun i hi hi' => ?_, fun d => Iff.trans ?_ (h.held d), ?_⟩
  · rw [pbufNull_desc]
    split <;> rfl
  · replace hi : s.released.length ≤ i := hi
    -- the frames in the ring are in other descriptors
    have h_ne : slot txBufs i ≠ slot txBufs refs.length := by
      intro h_eq
      have := slot_inj_of_window (k := s.released.length) hi (by omega) (by omega) h_free h_eq
      omega
    rw [pbufNull_desc, if_neg h_ne, h.pbuf i hi hi']
  · rw [pbufNull_desc]
    by_cases hd : d = slot txBufs refs.length
    · rw [if_pos hd, hd, h_held]
    · rw [if_neg hd]
  · show (if (s.desc (slot txBufs refs.length)).held = true then _ else _) = _
    rw [h_held]
    exact h.overwritten

/-- A frame is recorded in the free descriptor behind the last one. -/
theorem record (h : Ring s refs m) (h_free : refs.length < s.released.length + txBufs) (r : ℕ) :
    Ring (s.modify (slot txBufs refs.length) fun x => { x with pbuf := some r, held := true })
      (refs ++ [r]) m := by
  have h_rel := h.released_le
  have h_sent := h.sent_le
  have h_m := h.m_le
  have h_one : (refs ++ [r]).length = refs.length + 1 := by
    rw [List.length_append, List.length_singleton]
  refine ⟨h.released_sent, h.sent_refs.trans (List.prefix_append _ _), h_sent, by omega, ?_, h.dma,
    fun d => Iff.trans ?_ (h.own d), fun i hi hi' => ?_, fun d => ?_, h.overwritten⟩
  · show (refs ++ [r]).length ≤ s.released.length + txBufs
    omega
  · rw [modify_desc]
    split <;> rfl
  · replace hi : s.released.length ≤ i := hi
    -- the new frame, or one before it
    by_cases h_last : i = refs.length
    · rw [h_last, modify_self, List.getElem?_append_right (le_refl _), Nat.sub_self]
      rfl
    · have h_ne : slot txBufs i ≠ slot txBufs refs.length := by
        intro h_eq
        have := slot_inj_of_window (k := s.released.length) hi (by omega) (by omega) h_free h_eq
        omega
      rw [modify_of_ne s _ h_ne, h.pbuf i hi (by omega), List.getElem?_append_left (by omega)]
  · rw [h_one]
    show _ ↔ ∃ i, s.released.length ≤ i ∧ _
    by_cases hd : d = slot txBufs refs.length
    · -- the window grows by the descriptor of the new frame
      rw [hd, modify_self]
      exact ⟨fun _ => ⟨refs.length, by omega, by omega, rfl⟩, fun _ => rfl⟩
    · rw [modify_of_ne s _ hd, h.held]
      constructor
      · rintro ⟨i, hi, hi', rfl⟩
        exact ⟨i, hi, by omega, rfl⟩
      · rintro ⟨i, hi, hi', rfl⟩
        refine ⟨i, hi, ?_, rfl⟩
        by_contra h_le
        exact hd (by rw [show i = refs.length by omega])

/-- The recorded frame is given to the DMA. -/
theorem give (h : Ring s refs m) (h_m : refs.length = m + 1) {v : Des0} (hv : v.own = true) :
    Ring (s.give (slot txBufs m) v) refs (m + 1) := by
  have h_rel := h.released_le
  have h_sent := h.sent_le
  have h_win := h.window
  refine ⟨h.released_sent, h.sent_refs, by show s.sent.length ≤ m + 1; omega, by omega, h_win,
    h.dma, fun d => ?_, fun i hi hi' => ?_, fun d => Iff.trans ?_ (h.held d), h.overwritten⟩
  · rw [give_desc]
    show _ ↔ ∃ i, s.sent.length ≤ i ∧ _
    -- the DMA has one more descriptor
    by_cases hd : d = slot txBufs m
    · rw [if_pos hd, hd]
      exact ⟨fun _ => ⟨m, by omega, by omega, rfl⟩, fun _ => hv⟩
    · rw [if_neg hd, h.own]
      constructor
      · rintro ⟨i, hi, hi', rfl⟩
        exact ⟨i, hi, by omega, rfl⟩
      · rintro ⟨i, hi, hi', rfl⟩
        refine ⟨i, hi, ?_, rfl⟩
        by_contra h_le
        exact hd (by rw [show i = m by omega])
  · replace hi : s.released.length ≤ i := hi
    rw [← h.pbuf i hi hi', give_desc]
    split <;> rfl
  · rw [give_desc]
    split <;> rfl

end Ring

/-! ### Where the pointers are -/

/-- `tx_active`, if the frames up to number `n` are tracked. -/
def ActiveAt (s : State) (n : ℕ) : Prop :=
  s.txActive = if s.released.length = n then none else some (slot txBufs s.released.length)

/-- The chain has no other segment. -/
structure Single (s : State) : Prop where
  q_eq : s.call.q = s.call.p
  todo_eq : s.call.todo = []

/-- No descriptor is being filled. -/
structure Quiet (s : State) : Prop where
  ring : Ring s s.taken s.taken.length
  txPtr : s.txPtr = slot txBufs s.taken.length
  active : ActiveAt s s.taken.length

/-- A call waits for its descriptor. -/
structure Waiting (s : State) : Prop extends Quiet s, Single s where
  tdes : s.call.tdes = s.txPtr

/-- The descriptor at `tx_active` was released, and `tx_active` is about to move on. -/
structure Freed (s : State) (d : Pos) : Prop extends Single s where
  ring : Ring s s.taken s.taken.length
  txPtr : s.txPtr = slot txBufs s.taken.length
  tdes : s.call.tdes = s.txPtr
  room : s.taken.length < s.released.length + txBufs
  behind : d + 1 = slot txBufs s.released.length

/-- The descriptor behind the last frame is being filled. -/
structure Filling (s : State) (refs : List ℕ) (m : ℕ) : Prop extends Single s where
  ring : Ring s refs m
  room : s.taken.length < s.released.length + txBufs
  behind : s.released.length ≤ s.taken.length
  tdes : s.call.tdes = slot txBufs s.taken.length
  txPtr : s.txPtr = slot txBufs (s.taken.length + 1)
  active : ActiveAt s s.taken.length

/-- The frame is recorded in the descriptor, and `m` frames belong to the DMA. -/
structure Recorded (s : State) (m : ℕ) : Prop extends
    Filling s (s.taken ++ [s.call.p.addr]) m where
  first : s.call.tdesFirst = some s.call.tdes

/-- The reference is taken, and `tx_active` may still have to be set. -/
structure Taken (s : State) (d : Pos) : Prop where
  ring : Ring s s.taken s.taken.length
  txPtr : s.txPtr = slot txBufs s.taken.length
  active : ∃ n, s.taken.length = n + 1 ∧ d = slot txBufs n ∧ s.released.length ≤ n ∧ ActiveAt s n

/-- What holds before each access. -/
def Phase (s : State) : Prop :=
  match s.pc with
  | .returned _ => Quiet s
  | .check | .housekeeping | .ownTest => Waiting s
  | .pbufFree d => Waiting s ∧ s.txActive = some d ∧ s.released.length < s.sent.length
  | .activeNext d => Freed s d
  | .des1 | .desBuf | .des0 | .pbufNull | .firstOrNot => Filling s s.taken s.taken.length
  | .setOwn _ => False
  | .lastOrNot | .handOver => Recorded s s.taken.length
  | .setLs old => Recorded s s.taken.length ∧ old.own = false
  | .setFirst d _ => Recorded s s.taken.length ∧ d = s.call.tdes
  | .pbufRef d => Recorded s (s.taken.length + 1) ∧ d = s.call.tdes
  | .setActive d => Taken s d

section Step

variable {s s' : State} {a : Action} {d : Pos}

/-! ### The DMA -/

theorem Waiting.dmaDone (h : Waiting s) (ho : (s.desc s.dma).des0.own = true) :
    Waiting s.dmaDone :=
  { h with ring := (h.ring.dmaDone ho).1 }

theorem Recorded.dmaDone {m : ℕ} (h : Recorded s m) (ho : (s.desc s.dma).des0.own = true) :
    Recorded s.dmaDone m :=
  { h with ring := (h.ring.dmaDone ho).1 }

theorem Phase.dma (h : Phase s) (ho : (s.desc s.dma).des0.own = true) : Phase s.dmaDone := by
  have h_pc : s.dmaDone.pc = s.pc := rfl
  unfold Phase at h ⊢
  rw [h_pc]
  -- what the DMA has sent can only be released later, so each phase goes on
  cases hpc : s.pc <;> simp only [hpc] at h ⊢
  case returned => exact { h with ring := (h.ring.dmaDone ho).1 }
  case check | housekeeping | ownTest => exact h.dmaDone ho
  case pbufFree d =>
    refine ⟨h.1.dmaDone ho, h.2.1, ?_⟩
    rw [(h.1.ring.dmaDone ho).2]
    exact Nat.lt_succ_of_lt h.2.2
  case activeNext d => exact { h with ring := (h.ring.dmaDone ho).1 }
  case des1 | desBuf | des0 | pbufNull | firstOrNot =>
    exact { h with ring := (h.ring.dmaDone ho).1 }
  case lastOrNot | handOver => exact h.dmaDone ho
  case setLs | setFirst | pbufRef => exact ⟨h.1.dmaDone ho, h.2⟩
  case setActive => exact { h with ring := (h.ring.dmaDone ho).1 }

/-! ### The driver -/

/-- Of the frames that are tracked, the oldest is at `tx_active`. -/
theorem Waiting.active_eq (h : Waiting s) {d : Pos} (hd : s.txActive = some d) :
    s.released.length < s.taken.length ∧ d = slot txBufs s.released.length := by
  have h_le := h.ring.released_le.trans h.ring.sent_le
  have h_act := h.active
  rw [ActiveAt, hd] at h_act
  split_ifs at h_act with h_eq
  exact ⟨by omega, Option.some.inj h_act⟩

/-- A descriptor at `tx_active` that is found released has been sent. -/
theorem Waiting.sent_of_clear (h : Waiting s) {d : Pos} (hd : s.txActive = some d)
    (ho : s.ownClear d = true) : s.released.length < s.sent.length := by
  obtain ⟨h_lt, rfl⟩ := h.active_eq hd
  by_contra h_ge
  have h_own : (s.desc (slot txBufs s.released.length)).des0.own = true :=
    (h.ring.own _).mpr ⟨_, by omega, h_lt, rfl⟩
  rw [State.ownClear, h_own] at ho
  exact absurd ho (by decide)

/-- **The OWN test.** If the descriptor at `tx_ptr` is not tracked, the ring has room. -/
theorem Waiting.room (h : Waiting s) (h_full : s.txActive ≠ some s.txPtr) :
    s.taken.length < s.released.length + txBufs := by
  have h_win := h.ring.window
  by_contra h_ge
  have h_eq : s.taken.length = s.released.length + txBufs := by omega
  have h_act := h.active
  rw [ActiveAt, if_neg (by rw [h_eq, txBufs]; omega)] at h_act
  rw [h_act, h.txPtr, h_eq, slot_add_self] at h_full
  exact h_full rfl

/-- After a release `tx_active` moves on, or there is nothing left to track. -/
theorem Freed.active (h : Freed s d) :
    (if d + 1 = s.txPtr then none else some (d + 1)) =
      if s.released.length = s.taken.length then none
      else some (slot txBufs s.released.length) := by
  have h_le := h.ring.released_le.trans h.ring.sent_le
  rw [h.behind, h.txPtr]
  by_cases h_eq : s.released.length = s.taken.length
  · rw [if_pos h_eq, if_pos (by rw [h_eq])]
  · rw [if_neg h_eq, if_neg]
    intro h_slot
    exact h_eq (slot_inj_of_window (le_refl _) (by rw [txBufs]; omega) h_le h.room h_slot)

/-! #### Before the OWN test -/

/-- `pbuf_free` releases the oldest frame, and `tx_active` still points to its descriptor. -/
theorem Waiting.pbufFree (h : Waiting s) (hd : s.txActive = some d)
    (h_lt : s.released.length < s.sent.length) :
    Freed { s.pbufFree d with pc := .activeNext d } d := by
  obtain ⟨h_taken, rfl⟩ := h.active_eq hd
  -- one frame more is released
  obtain ⟨h_ring, h_len⟩ := h.ring.pbufFree h_lt
  have h_win := h.ring.window
  exact {
    q_eq := by simpa using h.q_eq
    todo_eq := by simpa using h.todo_eq
    ring := by
      show Ring _ (s.pbufFree _).taken (s.pbufFree _).taken.length
      rw [pbufFree_taken]
      exact h_ring.congr rfl rfl rfl rfl rfl
    txPtr := by simpa using h.txPtr
    tdes := by simpa using h.tdes
    room := by
      show (s.pbufFree _).taken.length < (s.pbufFree _).released.length + txBufs
      rw [pbufFree_taken, h_len]
      omega
    behind := by
      show _ = slot txBufs (s.pbufFree _).released.length
      rw [h_len, slot_succ] }

/-- `tx_ptr` moves on, and the window has room for the frame. -/
theorem Waiting.take (h : Waiting s) (h_full : s.txActive ≠ some s.txPtr) :
    Filling { s with txPtr := s.call.tdes + 1, pc := .des1 } s.taken s.taken.length := by
  have h_tdes := h.tdes.trans h.txPtr
  exact { h with
    ring := h.ring.congr rfl rfl rfl rfl rfl
    room := h.room h_full
    behind := h.ring.released_le.trans h.ring.sent_le
    tdes := h_tdes
    txPtr := by rw [slot_succ, ← h_tdes]
    active := h.active }

/-! #### The descriptor -/

/-- A descriptor outside the window has OWN clear. -/
theorem Filling.own {refs : List ℕ} (h : Filling s refs s.taken.length) :
    (s.desc s.call.tdes).des0.own = false := by
  rw [h.tdes]
  exact h.ring.own_of_ge (le_refl _) h.room

/-- A write to the descriptor that changes neither OWN nor the pointers to the pbufs. -/
theorem Filling.modify {refs : List ℕ} {m : ℕ} (h : Filling s refs m) {f : Desc → Desc} (pc : Pc)
    (h_own : (f (s.desc s.call.tdes)).des0.own = (s.desc s.call.tdes).des0.own)
    (h_pbuf : (f (s.desc s.call.tdes)).pbuf = (s.desc s.call.tdes).pbuf)
    (h_held : (f (s.desc s.call.tdes)).held = (s.desc s.call.tdes).held) :
    Filling { s.modify s.call.tdes f with pc } refs m := by
  have h_ring := h.ring.modify s.call.tdes h_own h_pbuf h_held
  exact { h with ring := h_ring.congr rfl rfl rfl rfl rfl }

/-- The frame is recorded behind those that are taken. -/
theorem Filling.record {m : ℕ} (h : Filling s s.taken m) :
    Recorded { s.modify s.call.tdes fun x =>
        { x with pbuf := some s.call.p.addr, held := true } with
      call := { s.call with tdesFirst := some s.call.tdes }, pc := .lastOrNot } m := by
  have h_ring := h.ring.record h.room s.call.p.addr
  rw [← h.tdes] at h_ring
  exact { h with ring := h_ring.congr rfl rfl rfl rfl rfl, first := rfl }

/-! #### Handing over -/

/-- The DMA gets the frame. -/
theorem Recorded.give (h : Recorded s s.taken.length) (old : Des0) :
    Recorded { s.give s.call.tdes { old with own := true, fs := true } with
      pc := .pbufRef s.call.tdes } (s.taken.length + 1) := by
  have h_ring := h.ring.give (v := { old with own := true, fs := true })
    (by rw [List.length_append, List.length_singleton]) rfl
  rw [← h.tdes] at h_ring
  exact { h with ring := h_ring.congr rfl rfl rfl rfl rfl }

/-- The reference is taken. -/
theorem Recorded.pbufRef (h : Recorded s (s.taken.length + 1)) :
    Taken { s with taken := s.taken ++ [s.call.p.addr], pc := .setActive s.call.tdes }
      s.call.tdes := by
  have h_len : (s.taken ++ [s.call.p.addr]).length = s.taken.length + 1 := by
    rw [List.length_append, List.length_singleton]
  refine ⟨?_, ?_, s.taken.length, h_len, h.tdes, h.behind, h.active⟩
  · show Ring _ _ (s.taken ++ [s.call.p.addr]).length
    rw [h_len]
    exact h.ring.congr rfl rfl rfl rfl rfl
  · show s.txPtr = slot txBufs (s.taken ++ [s.call.p.addr]).length
    rw [h_len, h.txPtr]

/-- `tx_active` is set only where nothing was tracked. -/
theorem Taken.setActive (h : Taken s d) (pc : Pc) :
    Quiet { s with txActive := s.txActive <|> some d, pc } := by
  obtain ⟨n, h_len, rfl, h_le, h_act⟩ := h.active
  refine ⟨h.ring.congr rfl rfl rfl rfl rfl, h.txPtr, ?_⟩
  show (s.txActive <|> some (slot txBufs n)) =
    if s.released.length = s.taken.length then none else some (slot txBufs s.released.length)
  rw [ActiveAt] at h_act
  rw [if_neg (by omega), h_act]
  by_cases h_eq : s.released.length = n
  · rw [if_pos h_eq, h_eq]
    rfl
  · rw [if_neg h_eq]
    rfl

theorem Phase.driver (hP : Phase s) (hN : NotFull s .driver) (h : Access s s') : Phase s' := by
  cases h with
  | check hpc | isDone hpc | own hpc =>
    simp only [Phase, hpc] at hP ⊢
    exact { hP with ring := hP.ring.congr rfl rfl rfl rfl rfl }
  | isFree hpc ha ho =>
    -- the descriptor at `tx_active` is released, so its frame was sent
    simp only [Phase, hpc] at hP ⊢
    exact ⟨{ hP with ring := hP.ring.congr rfl rfl rfl rfl rfl }, ha, hP.sent_of_clear ha ho⟩
  | pbufFree hpc =>
    simp only [Phase, hpc] at hP ⊢
    exact hP.1.pbufFree hP.2.1 hP.2.2
  | activeNext hpc =>
    simp only [Phase, hpc] at hP ⊢
    exact { hP with ring := hP.ring.congr rfl rfl rfl rfl rfl, active := hP.active }
  | ownTest hpc ho =>
    simp only [Phase, hpc] at hP ⊢
    exact hP.take (hN rfl hpc ho)
  | des1 hpc | desBuf hpc =>
    simp only [Phase, hpc] at hP ⊢
    exact hP.modify _ rfl rfl rfl
  | des0 hpc =>
    -- what is written has OWN clear, as the descriptor has
    simp only [Phase, hpc] at hP ⊢
    exact hP.modify _ hP.own.symm rfl rfl
  | pbufNull hpc =>
    -- nothing is lost: the pbuf of a free descriptor is not held
    simp only [Phase, hpc] at hP ⊢
    have h_ring := hP.ring.pbufNull hP.room
    rw [← hP.tdes] at h_ring
    exact { hP with ring := h_ring.congr rfl rfl rfl rfl rfl }
  | first hpc hq =>
    simp only [Phase, hpc] at hP ⊢
    exact hP.record
  | notFirst hpc hq =>
    -- the chain has one segment
    simp only [Phase, hpc] at hP
    exact absurd (by rw [hP.q_eq]) hq
  | setOwn hpc => simp only [Phase, hpc] at hP
  | last hpc ht =>
    simp only [Phase, hpc] at hP ⊢
    exact ⟨{ hP with ring := hP.ring.congr rfl rfl rfl rfl rfl }, hP.own⟩
  | notLast hpc ht =>
    simp only [Phase, hpc] at hP
    exact absurd (hP.todo_eq.symm.trans ht) (by simp)
  | setLs hpc =>
    -- the value that is written back has OWN clear
    simp only [Phase, hpc] at hP ⊢
    obtain ⟨hR, h_old⟩ := hP
    exact { hR.modify _ (h_old.trans hR.own.symm) rfl rfl with first := hR.first }
  | handOver hpc hf =>
    simp only [Phase, hpc] at hP ⊢
    exact ⟨{ hP with ring := hP.ring.congr rfl rfl rfl rfl rfl },
      (Option.some.inj (hP.first.symm.trans hf)).symm⟩
  | setFirst hpc =>
    simp only [Phase, hpc] at hP ⊢
    obtain ⟨hR, rfl⟩ := hP
    exact ⟨hR.give _, rfl⟩
  | pbufRef hpc =>
    simp only [Phase, hpc] at hP ⊢
    obtain ⟨hR, rfl⟩ := hP
    exact hR.pbufRef
  | setActive hpc =>
    simp only [Phase, hpc] at hP ⊢
    exact hP.setActive _

/-- **One step.** Each access, call and turn of the DMA leads from phase to phase. -/
theorem Phase.step (hP : Phase s) (h_one : OneSegment s a) (hN : NotFull s a)
    (h : s.next a = some s') : Phase s' := by
  cases a with
  | transmit p rest =>
    -- a chain of one segment
    obtain ⟨⟨rc, hpc⟩, rfl⟩ := transmit_inv h
    obtain rfl : rest = [] := h_one
    simp only [Phase, hpc] at hP
    exact { hP with
      ring := hP.ring.congr rfl rfl rfl rfl rfl, q_eq := rfl, todo_eq := rfl, tdes := rfl }
  | giveUp =>
    -- `mac_transmit` may return before it has a descriptor
    obtain ⟨hpc, rfl⟩ := giveUp_inv h
    simp only [Phase, hpc] at hP
    exact { hP with ring := hP.ring.congr rfl rfl rfl rfl rfl }
  | driver => exact hP.driver hN (access_of_driver h)
  | dma =>
    obtain ⟨ho, rfl⟩ := dma_inv h
    exact hP.dma ho

theorem phase_start : Phase start :=
  ⟨⟨List.prefix_rfl, List.prefix_rfl, le_refl 0, le_refl 0, Nat.zero_le _, rfl,
    fun _ => ⟨Bool.noConfusion, fun ⟨i, _, hi, _⟩ => absurd hi (Nat.not_lt_zero i)⟩,
    fun i _ hi => absurd hi (Nat.not_lt_zero i),
    fun _ => ⟨Bool.noConfusion, fun ⟨i, _, hi, _⟩ => absurd hi (Nat.not_lt_zero i)⟩,
    rfl⟩, rfl, rfl⟩

/-- **Every run.** -/
theorem phase_of_reach (h : machine.Reach (fun s a => OneSegment s a ∧ NotFull s a) s) :
    Phase s :=
  h.invariant phase_start fun _ _ _ hP hG hn => hP.step hG.1 hG.2 hn

/-! ### What housekeeping releases -/

/-- One turn of the loop. -/
theorem Waiting.turn (h : Waiting s) (hpc : s.pc = .housekeeping)
    (h_lt : s.released.length < s.sent.length) :
    ∃ as s', machine.Path OnlyDriver s as s' ∧ s'.pc = .housekeeping ∧ Waiting s' ∧
      s'.sent = s.sent ∧ s'.released.length = s.released.length + 1 := by
  have h_le := h.ring.sent_le
  have h_act : s.txActive = some (slot txBufs s.released.length) := by
    have := h.active
    rwa [ActiveAt, if_neg (by omega)] at this
  have h_clear : s.ownClear (slot txBufs s.released.length) = true := by
    rw [State.ownClear, h.ring.own_of_sent (le_refl _) h_lt]
    rfl
  have hP : Phase s := by
    simp only [Phase, hpc]
    exact h
  -- the test, the release and the move to the next descriptor
  let s₁ : State := { s with pc := .pbufFree (slot txBufs s.released.length) }
  let s₂ : State := { s₁.pbufFree (slot txBufs s.released.length) with
    pc := .activeNext (slot txBufs s.released.length) }
  let s₃ : State := { s₂ with
    txActive := if slot txBufs s.released.length + 1 = s₂.txPtr then none
      else some (slot txBufs s.released.length + 1)
    pc := .housekeeping }
  have h₁ : s.next .driver = some s₁ := by
    simp only [State.next, State.driver, hpc]
    split
    · next d hd =>
      obtain rfl := Option.some.inj (h_act.symm.trans hd)
      exact if_pos h_clear
    · next hd => exact absurd (h_act.symm.trans hd) (by simp)
  have hP₁ : Phase s₁ := hP.step (a := .driver) trivial
    (fun _ h_pc => absurd (hpc.symm.trans h_pc) (by simp)) h₁
  have hP₂ : Phase s₂ := hP₁.step (a := .driver) trivial
    (fun _ h_pc => absurd h_pc (by simp [s₁])) rfl
  have hP₃ : Phase s₃ := hP₂.step (a := .driver) trivial
    (fun _ h_pc => absurd h_pc (by simp [s₂])) rfl
  obtain ⟨h_sent, -, -⟩ := pbufFree_eq s₁ (slot txBufs s.released.length)
  have h_ring₁ : Ring s₁ s₁.taken s₁.taken.length := h.ring.congr rfl rfl rfl rfl rfl
  obtain ⟨-, h_len⟩ := h_ring₁.pbufFree h_lt
  exact ⟨_, s₃, .cons rfl h₁ (.cons rfl rfl (.cons rfl rfl (.nil s₃))), rfl, hP₃, h_sent, h_len⟩

/-- **The loop releases whatever the DMA is done with.** -/
theorem housekeeping_all (h : Waiting s) (hpc : s.pc = .housekeeping) :
    ∃ as s', machine.Path OnlyDriver s as s' ∧
      s'.pc = .ownTest ∧ s'.sent = s.sent ∧ s'.released = s.sent := by
  induction hk : s.sent.length - s.released.length generalizing s with
  | zero =>
    have h_eq : s.released = s.sent := by
      have h_rel := h.ring.released_le
      exact h.ring.released_sent.eq_of_length_le (by omega)
    have h_next : s.next .driver = some { s with pc := .ownTest } := by
      simp only [State.next, State.driver, hpc]
      split
      · next d hd =>
        -- the oldest tracked frame is not sent
        rw [if_neg]
        intro ho
        have := h.sent_of_clear hd ho
        omega
      · rfl
    exact ⟨_, _, .cons rfl h_next (.nil _), rfl, rfl, h_eq⟩
  | succ k ih =>
    obtain ⟨as, s₁, h_path, h_pc, hW, h_sent, h_len⟩ := h.turn hpc (by omega)
    obtain ⟨bs, s₂, h_path', h_pc', h_sent', h_rel⟩ := ih hW h_pc (by rw [h_sent]; omega)
    exact ⟨as ++ bs, s₂, h_path.append h_path', h_pc', h_sent'.trans h_sent, h_rel.trans h_sent⟩

/-- In every phase the references are released in the order in which they were taken. -/
theorem Phase.released_taken (h : Phase s) : s.released <+: s.taken := by
  have h_quiet (h_ring : Ring s s.taken s.taken.length) : s.released <+: s.taken :=
    h_ring.released_sent.trans h_ring.sent_refs
  have h_rec {m : ℕ} (h : Recorded s m) : s.released <+: s.taken :=
    List.prefix_of_prefix_length_le (h.ring.released_sent.trans h.ring.sent_refs)
      (List.prefix_append _ _) h.behind
  unfold Phase at h
  cases hpc : s.pc <;> simp only [hpc] at h
  case returned | check | housekeeping | ownTest | activeNext => exact h_quiet h.ring
  case pbufFree => exact h_quiet h.1.ring
  case des1 | desBuf | des0 | pbufNull | firstOrNot | setActive => exact h_quiet h.ring
  case lastOrNot | handOver => exact h_rec h
  case setLs | setFirst | pbufRef => exact h_rec h.1

/-- The ring behind a phase. -/
theorem Phase.exists_ring (h : Phase s) : ∃ refs m, Ring s refs m := by
  unfold Phase at h
  cases hpc : s.pc <;> simp only [hpc] at h
  case returned | check | housekeeping | ownTest | activeNext | des1 | desBuf | des0 | pbufNull
    | firstOrNot | setActive | lastOrNot | handOver => exact ⟨_, _, h.ring⟩
  case pbufFree | setLs | setFirst | pbufRef => exact ⟨_, _, h.1.ring⟩

/-- **Every reference is released once.** In every run with frames of one segment, in which
the OWN test never finds the descriptor at `tx_active` released, no pointer is lost, and
housekeeping releases the references in order, each after the DMA is done with its
descriptor, and all of those. -/
theorem housekeeping_balanced (h : machine.Reach (fun s a => OneSegment s a ∧ NotFull s a) s) :
    Balanced s := by
  have hP := phase_of_reach h
  obtain ⟨refs, m, h_ring⟩ := hP.exists_ring
  refine ⟨h_ring.overwritten, hP.released_taken, h_ring.released_sent, fun hpc => ?_⟩
  simp only [Phase, hpc] at hP
  exact housekeeping_all hP hpc

/-- The condition is needed: a frame that finds the descriptor at `tx_active` released
overwrites the pointer in it. -/
theorem overwrites_of_full (h : Waiting s) (hpc : s.pc = .ownTest)
    (ho : s.ownClear s.call.tdes = true) (h_full : s.txActive = some s.txPtr) :
    ∃ as s', machine.Path OnlyDriver s as s' ∧ s'.overwritten ≠ [] := by
  obtain ⟨h_lt, h_slot⟩ := h.active_eq h_full
  -- the descriptor still has the pbuf of the oldest frame
  have h_held : (s.desc s.call.tdes).held = true := by
    rw [h.tdes, h_slot, h.ring.held]
    exact ⟨_, le_refl _, h_lt, rfl⟩
  have h_pbuf : (s.desc s.call.tdes).pbuf = some s.taken[s.released.length] := by
    rw [h.tdes, h_slot, h.ring.pbuf _ (le_refl _) h_lt, List.getElem?_eq_getElem h_lt]
  let s₁ : State := { s with txPtr := s.call.tdes + 1, pc := .des1 }
  have h₁ : s.next .driver = some s₁ := by
    simp only [State.next, State.driver, hpc]
    exact if_pos ho
  -- five accesses later the pointer is overwritten
  refine ⟨_, _, .cons rfl h₁ (.cons rfl rfl (.cons rfl rfl (.cons rfl rfl (.cons rfl rfl
    (.nil _))))), ?_⟩
  simp [State.pbufNull, s₁, h_held, h_pbuf]

end Step

/-! ### A full ring -/

/-- A frame whose descriptor is free: the call and its accesses. -/
def frame (addr : ℕ) : List Action :=
  .transmit ⟨addr, addr + 16, 90⟩ [] :: List.replicate 14 .driver

/-- Four frames fill the ring, and the DMA is done with the first of them between the
housekeeping of the fifth and its OWN test. -/
def fullRing : List Action :=
  frame 100 ++ frame 200 ++ frame 300 ++ frame 400 ++
    [Action.transmit ⟨500, 516, 90⟩ [], .driver, .driver, .dma, .driver, .driver, .driver, .driver,
      .driver]

theorem housekeeping_full_ring : ¬ ∀ s, machine.Reach OneSegment s → Balanced s := by
  intro h
  have h_exec : (machine.exec OneSegment start fullRing).map State.overwritten = some [100] := by
    decide
  obtain ⟨s, h_exec, h_over⟩ := Option.map_eq_some_iff.mp h_exec
  have h_kept := (h s (machine.reach_of_exec OneSegment h_exec)).kept
  rw [h_over] at h_kept
  exact absurd h_kept (by decide)

/-- One frame, and the housekeeping of the next one after the DMA is done with it. -/
theorem housekeeping_one_frame :
    ∃ s, s.pc = .housekeeping ∧ s.taken = [100] ∧ Balanced s := by
  have h_exec : (machine.exec (fun s a => OneSegment s a ∧ NotFull s a) start
      (frame 100 ++ [Action.dma, .transmit ⟨200, 216, 90⟩ [], .driver])).map
        (fun s => (s.pc, s.taken)) = some (.housekeeping, [100]) := by
    decide
  obtain ⟨s, h_exec, h_eq⟩ := Option.map_eq_some_iff.mp h_exec
  exact ⟨s, congrArg Prod.fst h_eq, congrArg Prod.snd h_eq,
    housekeeping_balanced (machine.reach_of_exec _ h_exec)⟩

end Mac

end Laureline
