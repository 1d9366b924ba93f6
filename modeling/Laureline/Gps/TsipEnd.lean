import Laureline.Gps.TsipFraming

/-!
# Where a TSIP packet ends

`Line` follows the frames on the line by their bytes and the gaps alone. The parser knows of them
only the parity of its count of DLEs, so the two agree as long as the line is `Orderly`: a DLE in a
frame is doubled or ends it, a body has room in the buffer, and no ETX comes between frames while
the count is not cleared.

* `InStep.next` — a byte of an orderly line keeps the parity right;
* `Line.after_dle` — behind an unpaired DLE, the line has seen the start of a frame and its body;
* `tsip_complete_ends_frame` — over every orderly run, a packet is complete only with the ETX of a
  frame.
-/

namespace Laureline
namespace Gps

open Run

/-! ### The line -/

/-- Where the line stands after some bytes. -/
inductive Framing
  | between
  | body
  /-- Behind a DLE of the body that is not paired yet. -/
  | dle
  /-- Behind such a DLE and another byte. -/
  | broken
deriving DecidableEq, Repr

/-- A byte more. -/
def Framing.next : Framing → UInt8 → Framing
  | .between, val => if val = 0x10 then .body else .between
  | .body, val => if val = 0x10 then .dle else .body
  | .dle, val => if val = 0x10 then .body else if val = 0x03 then .between else .broken
  | .broken, _ => .broken

/-- The framing after some bytes, and the tick of the last one. -/
structure Line where
  framing : Framing
  last : ℕ
deriving DecidableEq, Repr

namespace Line

/-- After a reset. -/
def powerUp : Line := ⟨.between, 0⟩

/-- A frame does not go on after a gap of more than `PACKET_TIMEOUT`. -/
def fresh (l : Line) (tick : ℕ) : Framing :=
  if ticksSince tick l.last > packetTimeout then .between else l.framing

/-- A byte more. -/
def next (l : Line) (x : Input) : Line := ⟨(l.fresh x.tick.toNat).next x.data, x.tick.toNat⟩

/-- After a sequence of bytes. -/
def after (l : Line) (xs : List Input) : Line := xs.foldl next l

theorem after_concat (l : Line) (xs : List Input) (x : Input) :
    l.after (xs ++ [x]) = (l.after xs).next x := by
  rw [after, List.foldl_append]; rfl

end Line

/-- The line has seen the start of a frame and these bytes of it, without a gap. -/
def Opened (xs : List Input) (bs : List UInt8) : Prop :=
  ∃ pre x frame, xs = pre ++ x :: frame ∧ (x :: frame).map Input.data = bs ∧
    (Line.powerUp.after pre).fresh x.tick.toNat = .between ∧ Unbroken x.tick.toNat frame

/-- The last byte is the end of a frame: DLE, a body in which every DLE is doubled, DLE ETX. -/
def EndsFrame (xs : List Input) : Prop :=
  ∃ body, Opened xs (0x10 :: stuff body ++ [0x10, 0x03])

theorem lastTick_append (last : ℕ) (xs ys : List Input) :
    lastTick last (xs ++ ys) = lastTick (lastTick last xs) ys := by
  induction xs generalizing last with
  | nil => rfl
  | cons x xs ih => rw [List.cons_append, lastTick, lastTick, ih]

theorem Line.after_last (l : Line) (xs : List Input) : (l.after xs).last = lastTick l.last xs := by
  induction xs generalizing l with
  | nil => rfl
  | cons x xs ih => exact ih (l.next x)

/-- A byte that starts a frame. -/
theorem opened_singleton {xs : List Input} {x : Input}
    (h : (Line.powerUp.after xs).fresh x.tick.toNat = .between) : Opened (xs ++ [x]) [x.data] :=
  ⟨xs, x, [], rfl, rfl, h, trivial⟩

/-- A byte that comes in time goes on with the frame. -/
theorem Opened.concat {xs : List Input} {bs : List UInt8} (h : Opened xs bs) {x : Input}
    (h_gap : ticksSince x.tick.toNat (Line.powerUp.after xs).last ≤ packetTimeout) :
    Opened (xs ++ [x]) (bs ++ [x.data]) := by
  obtain ⟨pre, y, frame, rfl, rfl, h_between, h_unbroken⟩ := h
  refine ⟨pre, y, frame ++ [x], by simp, by simp, h_between, ?_⟩
  rw [Line.after_last, lastTick_append, lastTick] at h_gap
  exact (unbroken_append _ _ _).mpr ⟨h_unbroken, h_gap, trivial⟩

/-- What the framing says about the bytes. -/
def Framing.Means (xs : List Input) : Framing → Prop
  | .body => ∃ body, Opened xs (0x10 :: stuff body)
  | .dle => ∃ body, Opened xs (0x10 :: stuff body ++ [0x10])
  | .between | .broken => True

/-- In a frame, the next byte has come in time. -/
theorem Line.fresh_cases (l : Line) (tick : ℕ) :
    l.fresh tick = .between ∨
      l.fresh tick = l.framing ∧ ticksSince tick l.last ≤ packetTimeout := by
  unfold Line.fresh
  split
  · exact Or.inl rfl
  · next h => exact Or.inr ⟨rfl, Nat.le_of_not_lt h⟩

/-- A gap does not make what the framing says wrong. -/
theorem Framing.Means.fresh {xs : List Input} (h : (Line.powerUp.after xs).framing.Means xs)
    (tick : ℕ) : ((Line.powerUp.after xs).fresh tick).Means xs := by
  rcases (Line.powerUp.after xs).fresh_cases tick with h_fresh | ⟨h_fresh, -⟩
  · rw [h_fresh]
    trivial
  · rwa [h_fresh]

theorem Line.means (xs : List Input) :
    (Line.powerUp.after xs).framing.Means xs := by
  -- byte by byte, with the text that is open before the last one
  induction xs using List.reverseRecOn with
  | nil => trivial
  | append_singleton xs x ih =>
    rw [Line.after_concat]
    have h_means := ih.fresh x.tick.toNat
    have h_gap (h_in : (Line.powerUp.after xs).fresh x.tick.toNat ≠ .between) :=
      (((Line.powerUp.after xs).fresh_cases x.tick.toNat).resolve_left h_in).2
    cases h_fresh : (Line.powerUp.after xs).fresh x.tick.toNat with
    | between =>
      simp only [Line.next, h_fresh, Framing.next]
      split
      · next h_dle =>
        have h_open := opened_singleton h_fresh
        exact ⟨[], h_dle ▸ h_open⟩
      · trivial
    | broken => simp only [Line.next, h_fresh, Framing.next]; trivial
    | body =>
      -- a DLE opens a pair, another byte is stuffed as it is
      rw [h_fresh] at h_means h_gap
      obtain ⟨body, h_open⟩ := h_means
      have h_more := h_open.concat (h_gap (by simp))
      simp only [Line.next, h_fresh, Framing.next]
      split
      · next h_dle => exact ⟨body, h_dle ▸ h_more⟩
      · next h_ne =>
        refine ⟨body ++ [x.data], ?_⟩
        rw [stuff_append, stuff_cons, if_neg h_ne, stuff_nil, List.append_nil]
        exact h_more
    | dle =>
      -- the second DLE of a pair, or the end of the frame
      rw [h_fresh] at h_means h_gap
      obtain ⟨body, h_open⟩ := h_means
      have h_more := h_open.concat (h_gap (by simp))
      simp only [Line.next, h_fresh, Framing.next]
      split
      · next h_dle =>
        refine ⟨body ++ [0x10], ?_⟩
        rw [stuff_append, stuff_cons, if_pos rfl, stuff_nil, List.append_nil]
        rw [h_dle] at h_more
        simpa using h_more
      · split <;> trivial

/-- **The end of a frame.** An ETX behind an unpaired DLE ends a frame. -/
theorem endsFrame_of_dle {xs : List Input} {x : Input}
    (h_fresh : (Line.powerUp.after xs).fresh x.tick.toNat = .dle) (h_etx : x.data = 0x03) :
    EndsFrame (xs ++ [x]) := by
  obtain ⟨h_framing, h_gap⟩ := ((Line.powerUp.after xs).fresh_cases x.tick.toNat).resolve_left
    (by rw [h_fresh]; simp)
  have h_means := Line.means xs
  rw [← h_framing, h_fresh] at h_means
  obtain ⟨body, h_open⟩ := h_means
  have h_more := h_open.concat h_gap
  rw [h_etx, List.append_assoc] at h_more
  exact ⟨body, h_more⟩

/-! ### The parser on the line -/

/-- A byte of a line that the parser can follow. -/
structure Orderly (t : Tsip) (l : Line) (x : Input) : Prop where
  /-- In a frame, a DLE is doubled or ends it. -/
  paired : l.fresh x.tick.toNat = .dle → x.data = 0x10 ∨ x.data = 0x03
  /-- A byte of a body finds room in the buffer. -/
  room : l.fresh x.tick.toNat = .body → x.data ≠ 0x10 → (t.fresh x.tick.toNat).rxCount < pbufSize
  /-- An ETX between frames finds the count of DLEs cleared. -/
  cleared : l.fresh x.tick.toNat = .between → x.data = 0x03 →
    (t.fresh x.tick.toNat).rxDleCount = 0

/-- The count of DLEs is odd exactly in a body. -/
structure InStep (t : Tsip) (l : Line) : Prop where
  ok : t.Ok
  last : t.rxLastTick = l.last
  parity : t.rxDleCount % 2 = if l.framing = .body then 1 else 0
  whole : l.framing ≠ .broken

theorem inStep_powerUp : InStep .powerUp .powerUp := ⟨.powerUp, rfl, rfl, by decide⟩

/-- The gap is the same for both. -/
theorem InStep.fresh {t : Tsip} {l : Line} (h : InStep t l) (tick : ℕ) :
    (t.fresh tick).rxDleCount % 2 = (if l.fresh tick = .body then 1 else 0) ∧
      l.fresh tick ≠ .broken := by
  unfold Tsip.fresh Line.fresh
  rw [h.last]
  split
  · exact ⟨rfl, by decide⟩
  · exact ⟨h.parity, h.whole⟩

/-- The framing after a byte of an orderly line is not broken, and it is a body after a DLE exactly
if it was not, and after another byte exactly if it was. -/
theorem Orderly.framing {t : Tsip} {l : Line} {x : Input} (h : Orderly t l x)
    (h_whole : l.fresh x.tick.toNat ≠ .broken) :
    (l.next x).framing ≠ .broken ∧
      ((l.next x).framing = .body ↔
        if x.data = 0x10 then l.fresh x.tick.toNat ≠ .body else l.fresh x.tick.toNat = .body) := by
  have h_paired := h.paired
  simp only [Line.next]
  cases h_fresh : l.fresh x.tick.toNat with
  | broken => exact absurd h_fresh h_whole
  | between | body => by_cases h_dle : x.data = 0x10 <;> simp [Framing.next, h_dle]
  | dle =>
    by_cases h_dle : x.data = 0x10
    · simp [Framing.next, h_dle]
    · simp [Framing.next, (h_paired h_fresh).resolve_left h_dle]

/-- **One byte.** The count keeps the parity, and only the end of a frame completes a packet. -/
theorem InStep.next {t : Tsip} {l : Line} {x : Input} (h : InStep t l) (h_orderly : Orderly t l x)
    (p : Pbuf) : InStep (tsipByte t p x).st (l.next x) ∧
      ((tsipByte t p x).rc = .feedComplete →
        l.fresh x.tick.toNat = .dle ∧ x.data = 0x03) := by
  obtain ⟨h_parity, h_whole⟩ := h.fresh x.tick.toNat
  obtain ⟨h_whole', h_body⟩ := h_orderly.framing h_whole
  have h_ok := tsipFeed_ok h.ok p x.tick.toNat x.data
  have h_fresh_ok := h.ok.fresh x.tick.toNat
  have h_byte := h_fresh_ok.byte
  suffices h_all : (tsipByte t p x).st.rxDleCount % 2 =
      (if (l.next x).framing = .body then 1 else 0) ∧
      ((tsipByte t p x).rc = .feedComplete → l.fresh x.tick.toNat = .dle ∧ x.data = 0x03) from
    ⟨⟨h_ok, tsipByte_rxLastTick t p x, h_all.1, h_whole'⟩, h_all.2⟩
  have h_dle : (t.arrive x.tick.toNat x.data).rxDleCount =
      if x.data = 0x10 then ((t.fresh x.tick.toNat).rxDleCount + 1) % 256
      else (t.fresh x.tick.toNat).rxDleCount := rfl
  have h_count : (t.arrive x.tick.toNat x.data).rxCount = (t.fresh x.tick.toNat).rxCount := rfl
  -- the byte that was looked at has changed the parity as it has changed the framing
  have h_next : (t.arrive x.tick.toNat x.data).rxDleCount % 2 =
      if (l.next x).framing = .body then 1 else 0 := by
    by_cases h_val : x.data = 0x10
    · rw [if_pos h_val] at h_body h_dle
      by_cases h_f : l.fresh x.tick.toNat = .body
      · rw [if_pos h_f] at h_parity
        rw [if_neg fun h_in => h_body.mp h_in h_f]
        omega
      · rw [if_neg h_f] at h_parity
        rw [if_pos (h_body.mpr h_f)]
        omega
    · rw [if_neg h_val] at h_body h_dle
      rw [h_dle, if_congr h_body rfl rfl, h_parity]
  unfold tsipByte
  rcases tsipFeed_cases t p x.tick.toNat x.data with ⟨-, -, -, h_eq⟩ | ⟨-, -, h_eq⟩ |
    ⟨h_not, h_some, h_eq⟩ <;> rw [h_eq]
  · exact ⟨h_next, fun h_rc => absurd h_rc (by simp)⟩
  · exact ⟨h_next, fun h_rc => absurd h_rc (by simp)⟩
  · rcases tsipStore_cases (t.arrive x.tick.toNat x.data) p x.data with ⟨h_full, h_eq⟩ |
      ⟨-, ⟨h_etx, h_even, h_eq⟩ | ⟨-, h_eq⟩⟩ <;> rw [h_eq]
    · -- a full buffer drops the packet, and the line is not in a body after the byte
      rw [h_count] at h_full
      have h_out : (l.next x).framing ≠ .body := by
        intro h_in
        by_cases h_val : x.data = 0x10
        · rw [if_pos h_val] at h_body h_dle
          rw [if_neg (h_body.mp h_in)] at h_parity
          have h_one : ¬ 2 < (t.arrive x.tick.toNat x.data).rxDleCount :=
            fun h_gt => h_not ⟨h_val, h_gt, by omega⟩
          have h_idle := h_fresh_ok.idle (by omega)
          exact absurd h_full (by rw [h_idle]; decide)
        · rw [if_neg h_val] at h_body
          exact absurd (h_orderly.room (h_body.mp h_in) h_val) (Nat.not_lt.mpr h_full)
      exact ⟨(if_neg h_out).symm ▸ rfl, fun h_rc => absurd h_rc (by simp)⟩
    · -- an ETX after an even number of DLEs is not in a body, nor between frames
      have h_val : x.data ≠ 0x10 := by rw [h_etx]; decide
      rw [if_neg h_val] at h_body h_dle
      have h_out : (l.next x).framing ≠ .body := fun h_in => by
        rw [if_pos h_in] at h_next; omega
      have h_end : l.fresh x.tick.toNat = .dle := by
        cases h_f : l.fresh x.tick.toNat with
        | dle => rfl
        | body => exact absurd (h_body.mpr h_f) h_out
        | broken => exact absurd h_f h_whole
        | between =>
          have h_zero := h_orderly.cleared h_f h_etx
          exact absurd (h_dle.trans h_zero) (h_some.resolve_left h_val)
      refine ⟨?_, fun _ => ⟨h_end, h_etx⟩⟩
      rw [if_neg h_out]
      obtain ⟨-, -, -, -, h_st, -⟩ := tsipComplete_cases
        { t.arrive x.tick.toNat x.data with
          rxCount := ((t.arrive x.tick.toNat x.data).rxCount + 1) % 256 }
        (p.store [((t.arrive x.tick.toNat x.data).rxCount, x.data)])
      dsimp only
      rcases h_st with h_st | h_st <;> rw [h_st]
      · exact h_even
      · rfl
    · exact ⟨h_next, fun h_rc => absurd h_rc (by simp)⟩

/-! ### Runs -/

/-- Every byte of a run is one of an orderly line. -/
def OrderlyRun (c : Tsip × Pbuf) (l : Line) : List Input → Prop
  | [] => True
  | x :: xs => Orderly c.1 l x ∧ OrderlyRun (next tsipByte c x) (l.next x) xs

instance (t : Tsip) (l : Line) (x : Input) : Decidable (Orderly t l x) :=
  decidable_of_iff
    ((l.fresh x.tick.toNat = .dle → x.data = 0x10 ∨ x.data = 0x03) ∧
      (l.fresh x.tick.toNat = .body → x.data ≠ 0x10 →
        (t.fresh x.tick.toNat).rxCount < pbufSize) ∧
      (l.fresh x.tick.toNat = .between → x.data = 0x03 → (t.fresh x.tick.toNat).rxDleCount = 0))
    ⟨fun h => ⟨h.1, h.2.1, h.2.2⟩, fun h => ⟨h.paired, h.room, h.cleared⟩⟩

instance OrderlyRun.decidable : (c : Tsip × Pbuf) → (l : Line) → (xs : List Input) →
    Decidable (OrderlyRun c l xs)
  | _, _, [] => inferInstanceAs (Decidable True)
  | c, l, x :: xs =>
    have := OrderlyRun.decidable (next tsipByte c x) (l.next x) xs
    inferInstanceAs (Decidable (_ ∧ _))

/-- The parser stays in step over an orderly run. -/
theorem InStep.after {c : Tsip × Pbuf} {l : Line} (h : InStep c.1 l) {pre : List Input} {x : Input}
    {post : List Input} (h_run : OrderlyRun c l (pre ++ x :: post)) :
    InStep (after tsipByte c pre).1 (l.after pre) ∧
      Orderly (after tsipByte c pre).1 (l.after pre) x := by
  induction pre generalizing c l with
  | nil => exact ⟨h, h_run.1⟩
  | cons y pre ih => exact ih (h.next h_run.1 c.2).1 h_run.2

/-- The byte after `pre` completes a packet. -/
def TsipCompletes (p : Pbuf) (pre : List Input) (x : Input) : Prop :=
  (tsipByte (after tsipByte (.powerUp, p) pre).1 (after tsipByte (.powerUp, p) pre).2 x).rc =
    .feedComplete

/-- The last two bytes of a frame. -/
theorem EndsFrame.suffix {xs : List Input} (h : EndsFrame xs) :
    [0x10, 0x03] <:+ xs.map Input.data := by
  obtain ⟨body, pre, x, frame, rfl, h_data, -⟩ := h
  rw [List.map_append, h_data]
  exact ⟨pre.map Input.data ++ (0x10 :: stuff body), by simp⟩

end Gps
end Laureline
