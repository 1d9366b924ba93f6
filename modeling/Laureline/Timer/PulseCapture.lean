import Mathlib.Data.List.Nodup
import Laureline.Timer.Rollover

/-!
# What `monotonic_get_capture` hands out

`TIM3_IRQHandler` reads `SR` once and `CCR` later, and decides from the captured
count alone to which period a capture belongs that was read together with an
update event. The decision is right because every flag is served less than half a
period after it was set (`FlagsFresh`): a capture from before the rollover is
then in the upper half of its period, one from after it in the lower half.

The decision is about the edge whose flag was read. A second edge that arrives
while the activation is on its way to `CCR` overwrites the count, and is
attributed with the flags of the first. `OnSide` says when that is still right.

* `FlagsOk` relates the flags to the last edge and the last rollover.
* `ActivationOk` is what an activation that has read `SR` knows: the epoch at the
  time of the read, and on which side of the rollover its edge lies.
* `HandOutOk` follows every edge from the flag through `mono_capture` to the
  caller; an edge is in at most one of the three places.
* `capture_exact` is the statement over every run; `capture_second_edge` is a run
  with the second edge on the wrong side.
-/

namespace Laureline
namespace Tim3

/-! ### The promises -/

/-- Every set flag was set less than half a period ago. -/
def FlagsFresh (r : Regs) (h : Hist) : Prop :=
  (r.sr.uif = true → r.ticks < h.uifAt + monoPeriod / 2) ∧
    (r.sr.cc = true → r.ticks < h.ccAt + monoPeriod / 2)

/-- The flags that an activation of the handler has read. -/
def HandlerPc.sr : HandlerPc → Option Sr
  | .readSr => none
  | .writeSr sr => some sr
  | .update sr => some sr
  | .readCcr sr => some sr

/-- An edge at `T` is attributed rightly by an activation that read the flags
`sr` at `S`. -/
def OnSide (sr : Sr) (S T : ℕ) : Prop :=
  if sr.uif then
    (T / monoPeriod = S / monoPeriod ∧ T % monoPeriod ≤ monoPeriod / 2) ∨
      (T / monoPeriod + 1 = S / monoPeriod ∧ monoPeriod / 2 < T % monoPeriod)
  else T / monoPeriod = S / monoPeriod

/-- Every set flag is served less than half a period after it was set. -/
def FlagsServed (s : State) : Action → Prop
  | .advance n => FlagsFresh (s.regs.advance n) (s.hist.advance s.regs)
  | _ => True

/-- An edge that arrives while an activation has found the capture flag set and not
yet read `CCR` is on the right side for it. -/
def EdgeOnSide (s : State) : Action → Prop
  | .edge => ∀ sr ∈ s.pc.handler.bind HandlerPc.sr, sr.cc = true →
      OnSide sr s.hist.srAt s.regs.ticks
  | _ => True

/-- Both promises. -/
def Served (s : State) (a : Action) : Prop := FlagsServed s a ∧ EdgeOnSide s a

instance (sr : Sr) (S T : ℕ) : Decidable (OnSide sr S T) := by
  unfold OnSide; infer_instance

instance (s : State) : (a : Action) → Decidable (FlagsServed s a)
  | .advance _ => inferInstanceAs (Decidable (_ ∧ _))
  | .edge | .irq | .disable | .enable | .callNow | .cpu | .getCapture | .sleepUntil _
  | .semTake => isTrue trivial

instance (s : State) : (a : Action) → Decidable (EdgeOnSide s a)
  | .edge => inferInstanceAs (Decidable (∀ sr ∈ _, _ → OnSide sr _ _))
  | .advance _ | .irq | .disable | .enable | .callNow | .cpu | .getCapture | .sleepUntil _
  | .semTake => isTrue trivial

instance (s : State) (a : Action) : Decidable (Served s a) := inferInstanceAs (Decidable (_ ∧ _))

/-! ### The invariants -/

/-- The flag of the channel that is not enabled is clear. -/
def Sr.Only (gpsext : Bool) (sr : Sr) : Prop :=
  if gpsext then sr.cc1if = false else sr.cc3if = false

/-- The capture register of the enabled channel. -/
def Regs.ccr (gpsext : Bool) (r : Regs) : ℕ := if gpsext then r.ccr3 else r.ccr1

/-- An activation has found the capture flag set and not yet read `CCR`. -/
def serves (h : Option HandlerPc) : Prop := ∃ sr ∈ h.bind HandlerPc.sr, sr.cc = true

/-- The update flag is set, and no activation has read it. -/
def unreadUif (r : Regs) (h : Option HandlerPc) : Prop :=
  r.sr.uif = true ∧ ∀ sr, h = some (.writeSr sr) → sr.uif = false

/-- The flags, the edges and the rollovers. -/
structure FlagsOk (gpsext : Bool) (r : Regs) (h : Option HandlerPc) (hist : Hist) : Prop where
  only : r.sr.Only gpsext
  /-- The update flag belongs to the last rollover, less than half a period ago. -/
  uif : r.sr.uif = true →
    hist.uifAt = r.ticks / monoPeriod * monoPeriod ∧ r.ticks % monoPeriod < monoPeriod / 2
  /-- The capture flag belongs to the last edge. -/
  cc : r.sr.cc = true → ∃ T, hist.edges.head? = some T ∧ hist.ccAt ≤ T ∧
    r.ticks < hist.ccAt + monoPeriod / 2
  edges_past : ∀ T ∈ hist.edges, T ≤ r.ticks
  edges_sorted : hist.edges.Pairwise (· > ·)
  /-- A capture flag that waits for an activation is from the current period,
  unless an update flag waits with it. -/
  same : r.sr.cc = true → ¬ serves h → ¬ unreadUif r h →
    ∀ T, hist.edges.head? = some T → T / monoPeriod = r.ticks / monoPeriod

/-- The rollovers that an activation has read and not yet added to `mono_epoch`. -/
def toAdd : HandlerPc → ℕ
  | .writeSr sr => sr.uif.toNat
  | .update sr => sr.uif.toNat
  | _ => 0

/-- An activation that has read the flags `sr`. -/
structure ActivationOk (gpsext : Bool) (v : Vars) (h : HandlerPc) (hist : Hist) : Prop where
  only : ∀ sr ∈ h.sr, sr.Only gpsext
  /-- The epoch is that of the read of `SR`. -/
  epoch : ∀ sr ∈ h.sr, v.monoEpoch + toAdd h * monoPeriod
    ≡ (1 + hist.srAt / monoPeriod) * monoPeriod [MOD 2 ^ 64]
  side : ∀ sr ∈ h.sr, sr.cc = true → ∀ T, hist.edges.head? = some T → OnSide sr hist.srAt T

/-- The value of `mono_capture` that belongs to an edge. -/
def captureValue : Option ℕ → ℕ
  | none => 0
  | some T => (monoPeriod + T) % 2 ^ 64

/-- The edges that were captured: held in `mono_capture` or handed out. -/
def Hist.captured (h : Hist) : List ℕ := h.held.toList ++ h.fetched.filterMap Prod.fst

/-- The way of the edges to the callers. -/
structure HandOutOk (gpsext : Bool) (r : Regs) (v : Vars) (h : Option HandlerPc) (hist : Hist) :
    Prop where
  /-- An edge whose capture is waited for has its count in `CCR`. -/
  waiting : r.sr.cc = true ∨ serves h → ∃ T, hist.edges.head? = some T ∧
    r.ccr gpsext = T % monoPeriod ∧ T ∉ hist.captured
  taken : ¬ (r.sr.cc = true ∨ serves h) → ∀ T, hist.edges.head? = some T → T ∈ hist.captured
  held : v.monoCapture = captureValue hist.held
  fetched : ∀ p ∈ hist.fetched, p.2 = captureValue p.1
  edges : ∀ T ∈ hist.captured, T ∈ hist.edges
  nodup : hist.captured.Nodup

/-- The invariant of the capture path. -/
structure CaptureInv (gpsext : Bool) (s : State) : Prop where
  epoch : EpochInv s
  flags : FlagsOk gpsext s.regs s.pc.handler s.hist
  activation : ∀ h, s.pc.handler = some h → ActivationOk gpsext s.vars h s.hist
  handOut : HandOutOk gpsext s.regs s.vars s.pc.handler s.hist

/-! ### Ticks -/

/-- Under fresh flags a rollover finds the update flag clear, and the counter is
in its lower half as long as the flag is set. -/
theorem FlagsOk.fresh {gpsext : Bool} {r : Regs} {h : Option HandlerPc} {hist : Hist} {n : ℕ}
    (hI : FlagsOk gpsext r h hist) (hF : FlagsFresh (r.advance n) (hist.advance r)) :
    (r.ticks + n) / monoPeriod ≤ r.ticks / monoPeriod + (!r.sr.uif).toNat ∧
    ((r.advance n).sr.uif = true →
      (hist.advance r).uifAt = (r.ticks + n) / monoPeriod * monoPeriod ∧
        (r.ticks + n) % monoPeriod < monoPeriod / 2) := by
  have h_uif := hI.uif
  have h_fresh := hF.1
  simp only [Regs.advance, Hist.advance] at h_fresh ⊢
  cases hu : r.sr.uif with
  | true =>
    -- the flag would be half a period old before the counter came round
    simp only [hu, Bool.true_or, forall_true_left, if_true] at h_uif h_fresh
    simp only [Bool.not_true, Bool.toNat_false, Bool.true_or, forall_true_left, if_true]
    unfold monoPeriod at *
    omega
  | false =>
    -- the first multiple sets the flag, and before the second one it would be stale
    simp only [hu, Bool.false_or, decide_eq_true_eq, Bool.false_eq_true, if_false] at h_fresh
    simp only [Bool.not_false, Bool.toNat_true, Bool.false_or, decide_eq_true_eq,
      Bool.false_eq_true, if_false]
    unfold monoPeriod at *
    omega

@[simp] theorem Hist.advance_edges (h : Hist) (r : Regs) : (h.advance r).edges = h.edges := by
  unfold Hist.advance; split <;> rfl

@[simp] theorem Hist.advance_ccAt (h : Hist) (r : Regs) : (h.advance r).ccAt = h.ccAt := by
  unfold Hist.advance; split <;> rfl

@[simp] theorem Hist.advance_srAt (h : Hist) (r : Regs) : (h.advance r).srAt = h.srAt := by
  unfold Hist.advance; split <;> rfl

@[simp] theorem Hist.advance_held (h : Hist) (r : Regs) : (h.advance r).held = h.held := by
  unfold Hist.advance; split <;> rfl

@[simp] theorem Hist.advance_fetched (h : Hist) (r : Regs) :
    (h.advance r).fetched = h.fetched := by
  unfold Hist.advance; split <;> rfl

@[simp] theorem Hist.advance_captured (h : Hist) (r : Regs) :
    (h.advance r).captured = h.captured := by
  simp only [Hist.captured, Hist.advance_held, Hist.advance_fetched]

@[simp] theorem Regs.advance_ccr (r : Regs) (n : ℕ) (gpsext : Bool) :
    (r.advance n).ccr gpsext = r.ccr gpsext := rfl

@[simp] theorem Regs.advance_cc (r : Regs) (n : ℕ) : (r.advance n).sr.cc = r.sr.cc := rfl

/-- Passing ticks keep the flags in order: a rollover that leaves the period of a
waiting capture sets an update flag to wait with it. -/
theorem FlagsOk.advance {gpsext : Bool} {r : Regs} {v : Vars} {h : Option HandlerPc}
    {hist : Hist} {n : ℕ} (hI : FlagsOk gpsext r h hist) (hE : EpochOk r v h)
    (hF : FlagsFresh (r.advance n) (hist.advance r)) :
    FlagsOk gpsext (r.advance n) h (hist.advance r) := by
  obtain ⟨h_one, h_uif⟩ := hI.fresh hF
  refine ⟨hI.only, h_uif, fun hc => ?_, fun T hT => ?_, ?_, fun hc hs hu T hT => ?_⟩
  · obtain ⟨T, hT, h_le, -⟩ := hI.cc hc
    exact ⟨T, by simpa using hT, by simpa using h_le, hF.2 hc⟩
  · have := hI.edges_past T (by simpa using hT)
    simp only [Regs.advance_ticks]; omega
  · simpa using hI.edges_sorted
  · rw [Hist.advance_edges] at hT
    have h_read : unreadUif r h → unreadUif (r.advance n) h := fun hr =>
      ⟨by simp only [Regs.advance, hr.1, Bool.true_or], hr.2⟩
    have h_same := hI.same hc hs (fun hr => hu (h_read hr)) T hT
    have h_le : r.ticks / monoPeriod ≤ (r.ticks + n) / monoPeriod :=
      Nat.div_le_div_right (Nat.le_add_right _ _)
    rw [h_same, Regs.advance_ticks]
    -- otherwise the rollover would have found the flag clear and set it
    by_contra h_ne
    have h_lt : r.ticks / monoPeriod < (r.ticks + n) / monoPeriod := by omega
    cases hf : r.sr.uif with
    | true => rw [hf] at h_one; simp only [Bool.not_true, Bool.toNat_false] at h_one; omega
    | false =>
      -- an activation that had read the flag would find it set
      refine hu ⟨by simp [Regs.advance, h_lt], fun sr hsr => ?_⟩
      by_contra h_set
      rw [Bool.not_eq_false] at h_set
      rw [hE.read sr hsr h_set] at hf
      exact absurd hf (by simp)

theorem ActivationOk.advance {gpsext : Bool} {r : Regs} {v : Vars} {h : HandlerPc} {hist : Hist}
    (hI : ActivationOk gpsext v h hist) : ActivationOk gpsext v h (hist.advance r) where
  only := hI.only
  epoch := by simpa using hI.epoch
  side := by simpa using hI.side

theorem HandOutOk.advance {gpsext : Bool} {r : Regs} {v : Vars} {h : Option HandlerPc}
    {hist : Hist} {n : ℕ} (hI : HandOutOk gpsext r v h hist) :
    HandOutOk gpsext (r.advance n) v h (hist.advance r) where
  waiting := by simpa using hI.waiting
  taken := by simpa using hI.taken
  held := by simpa using hI.held
  fetched := by simpa using hI.fetched
  edges := by simpa using hI.edges
  nodup := by simpa using hI.nodup

/-! ### Edges -/

theorem Regs.edge_cc (r : Regs) (gpsext : Bool) : (r.edge gpsext).sr.cc = true := by
  unfold Regs.edge Sr.cc; split <;> simp

theorem Regs.edge_ccr (r : Regs) (gpsext : Bool) :
    (r.edge gpsext).ccr gpsext = r.ticks % monoPeriod := by
  unfold Regs.edge Regs.ccr; split <;> rfl

/-- All earlier edges lie before a new one. -/
theorem FlagsOk.edges_lt {gpsext : Bool} {r : Regs} {h : Option HandlerPc} {hist : Hist}
    (hI : FlagsOk gpsext r h hist) (h_new : hist.edges.head? ≠ some r.ticks) :
    ∀ T ∈ hist.edges, T < r.ticks := by
  intro T hT
  have h_past := hI.edges_past T hT
  cases he : hist.edges with
  | nil => rw [he] at hT; exact absurd hT (by simp)
  | cons T₀ rest =>
    have h_sorted := hI.edges_sorted
    have h_past₀ := hI.edges_past T₀ (by rw [he]; exact List.mem_cons_self)
    rw [he] at hT h_sorted h_new
    -- the newest edge is not of this tick, and the others are older than it
    have h_ne : T₀ ≠ r.ticks := by simpa using h_new
    rcases List.mem_cons.mp hT with rfl | hT
    · omega
    · have : T₀ > T := List.rel_of_pairwise_cons h_sorted hT
      omega

/-- An edge sets the flag of the enabled channel, if it is not set yet, and becomes
the last edge. -/
theorem FlagsOk.edge {gpsext : Bool} {r : Regs} {h : Option HandlerPc} {hist : Hist}
    (hI : FlagsOk gpsext r h hist) (h_new : hist.edges.head? ≠ some r.ticks) :
    FlagsOk gpsext (r.edge gpsext) h (hist.edge r) := by
  refine ⟨?_, ?_, fun _ => ⟨r.ticks, rfl, ?_⟩, ?_, ?_, fun _ _ _ T hT => ?_⟩
  · have h_only := hI.only
    unfold Sr.Only Regs.edge at *
    cases gpsext <;> simpa using h_only
  · simpa [Hist.edge] using hI.uif
  · rw [Regs.edge_ticks]
    cases hc : r.sr.cc with
    | true =>
      -- the flag keeps the time at which it was set
      obtain ⟨T, hT, h_le, h_lt⟩ := hI.cc hc
      have := hI.edges_past T (List.mem_of_head? hT)
      simp only [Hist.edge, hc, if_true]
      omega
    | false =>
      simp only [Hist.edge, hc, Bool.false_eq_true, if_false, monoPeriod]
      omega
  · rintro T (_ | ⟨_, hT⟩)
    · rw [Regs.edge_ticks]
    · rw [Regs.edge_ticks]; exact hI.edges_past T hT
  · exact List.pairwise_cons.mpr ⟨fun T hT => hI.edges_lt h_new T hT, hI.edges_sorted⟩
  · obtain rfl : r.ticks = T := by simpa [Hist.edge] using hT
    rw [Regs.edge_ticks]

theorem ActivationOk.edge {gpsext : Bool} {r : Regs} {v : Vars} {h : HandlerPc} {hist : Hist}
    (hI : ActivationOk gpsext v h hist)
    (hg : ∀ sr ∈ h.sr, sr.cc = true → OnSide sr hist.srAt r.ticks) :
    ActivationOk gpsext v h (hist.edge r) where
  only := hI.only
  epoch := hI.epoch
  side := fun sr hsr hc T hT => by
    obtain rfl : r.ticks = T := by simpa [Hist.edge] using hT
    exact hg sr hsr hc

theorem HandOutOk.edge {gpsext : Bool} {r : Regs} {v : Vars} {h : Option HandlerPc} {hist : Hist}
    (hI : HandOutOk gpsext r v h hist) (h_new : ∀ T ∈ hist.edges, T < r.ticks) :
    HandOutOk gpsext (r.edge gpsext) v h (hist.edge r) where
  waiting := fun _ => by
    refine ⟨r.ticks, rfl, Regs.edge_ccr r gpsext, fun h_mem => ?_⟩
    -- what was captured is older
    exact absurd (h_new _ (hI.edges _ h_mem)) (lt_irrefl _)
  taken := fun h_clear => absurd (Or.inl (Regs.edge_cc r gpsext)) h_clear
  held := hI.held
  fetched := hI.fetched
  edges := fun T hT => List.mem_cons_of_mem _ (hI.edges T hT)
  nodup := hI.nodup

/-! ### The handler -/

@[simp] theorem serves_none : ¬ serves none := by simp [serves]

@[simp] theorem serves_readSr : ¬ serves (some .readSr) := by simp [serves, HandlerPc.sr]

@[simp] theorem serves_writeSr (sr : Sr) : serves (some (.writeSr sr)) ↔ sr.cc = true := by
  simp [serves, HandlerPc.sr]

@[simp] theorem serves_update (sr : Sr) : serves (some (.update sr)) ↔ sr.cc = true := by
  simp [serves, HandlerPc.sr]

@[simp] theorem serves_readCcr (sr : Sr) : serves (some (.readCcr sr)) ↔ sr.cc = true := by
  simp [serves, HandlerPc.sr]

/-- **The decision.** The value computed from the count alone is the time of the
edge, if it is on the side that the flags show. -/
theorem capture_value {v : Vars} {sr : Sr} {S T : ℕ}
    (h_epoch : v.monoEpoch ≡ (1 + S / monoPeriod) * monoPeriod [MOD 2 ^ 64])
    (h_side : OnSide sr S T) :
    (v.capture sr (T % monoPeriod)).monoCapture = captureValue (some T) := by
  have h_stamp := (Nat.mod_modEq _ _).trans (h_epoch.add_right (T % monoPeriod))
  unfold Vars.capture captureValue
  dsimp only
  split
  · next hc =>
    -- the capture is from before the rollover
    rw [OnSide, if_pos hc.1] at h_side
    have h_before : T / monoPeriod + 1 = S / monoPeriod := by omega
    refine Nat.ModEq.add_right_cancel' monoPeriod ?_
    have h_sum : monoPeriod + T + monoPeriod
        = (1 + S / monoPeriod) * monoPeriod + T % monoPeriod := by
      rw [← h_before]; unfold monoPeriod; omega
    have h_sub : ∀ x, x + 2 ^ 64 - monoPeriod + monoPeriod = x + 2 ^ 64 := by
      intro x; unfold monoPeriod; omega
    rw [h_sum, h_sub]
    exact (Nat.add_modEq_right).trans h_stamp
  · next hc =>
    -- the capture is from the period in which `SR` was read
    have h_same : T / monoPeriod = S / monoPeriod := by
      unfold OnSide at h_side
      split at h_side
      · next hu =>
        rcases h_side with h_side | h_side
        · exact h_side.1
        · exact absurd ⟨hu, h_side.2⟩ hc
      · exact h_side
    have h_sum : monoPeriod + T = (1 + S / monoPeriod) * monoPeriod + T % monoPeriod := by
      rw [← h_same]; unfold monoPeriod; omega
    rw [h_sum]
    exact Nat.ModEq.eq_of_lt_of_lt (h_stamp.trans (Nat.mod_modEq _ _).symm)
      (Nat.mod_lt _ (by decide)) (Nat.mod_lt _ (by decide))

/-- At the read of `SR` the flags show the side of the last edge: it is less than
half a period old, and so is the rollover whose flag is set. -/
theorem FlagsOk.onSide {gpsext : Bool} {r : Regs} {hist : Hist}
    (hI : FlagsOk gpsext r (some .readSr) hist) (hc : r.sr.cc = true) {T : ℕ}
    (hT : hist.edges.head? = some T) : OnSide r.sr r.ticks T := by
  obtain ⟨T', hT', h_le, h_lt⟩ := hI.cc hc
  obtain rfl : T' = T := Option.some.inj (hT'.symm.trans hT)
  have h_past := hI.edges_past T' (List.mem_of_head? hT)
  unfold OnSide
  split
  · next hu =>
    -- the counter is in its lower half, and the edge less than half a period back
    obtain ⟨-, h_low⟩ := hI.uif hu
    unfold monoPeriod at *
    omega
  · next hu => exact hI.same hc serves_readSr (fun h_unread => hu h_unread.1) T' hT

/-- The read of `SR` starts the activation. -/
theorem CaptureInv.readSr {gpsext : Bool} {s : State}
    (hE : EpochOk s.regs s.vars (some .readSr)) (hF : FlagsOk gpsext s.regs (some .readSr) s.hist)
    (hH : HandOutOk gpsext s.regs s.vars (some .readSr) s.hist) :
    FlagsOk gpsext s.regs (some (.writeSr s.regs.sr)) { s.hist with srAt := s.regs.ticks } ∧
    ActivationOk gpsext s.vars (.writeSr s.regs.sr) { s.hist with srAt := s.regs.ticks } ∧
    HandOutOk gpsext s.regs s.vars (some (.writeSr s.regs.sr))
      { s.hist with srAt := s.regs.ticks } := by
  -- a capture flag that is set is served by this activation from here on
  refine ⟨⟨hF.only, hF.uif, hF.cc, hF.edges_past, hF.edges_sorted, fun hc hs => ?_⟩,
    ⟨?_, ?_, ?_⟩, ⟨fun h_wait => ?_, fun h_clear => ?_, hH.held, hH.fetched, hH.edges, hH.nodup⟩⟩
  · exact absurd ((serves_writeSr _).mpr hc) hs
  · rintro sr ⟨⟩; exact hF.only
  · rintro sr ⟨⟩; exact hE.epoch
  · rintro sr ⟨⟩ hc T hT; exact hF.onSide hc hT
  · rw [serves_writeSr, or_self] at h_wait; exact hH.waiting (Or.inl h_wait)
  · rw [serves_writeSr, or_self] at h_clear
    exact hH.taken fun h => h.elim h_clear (fun hs => serves_readSr hs)

/-- A capture flag is cleared by the write only if the activation serves it. -/
theorem Sr.writeNot_cc (flags sr : Sr) :
    (flags.writeNot sr).cc = true ∨ sr.cc = true ↔ flags.cc = true ∨ sr.cc = true := by
  unfold Sr.writeNot Sr.cc
  cases flags.cc1if <;> cases flags.cc3if <;> cases sr.cc1if <;> cases sr.cc3if <;> simp

theorem Sr.cc_of_writeNot {flags sr : Sr} (h : (flags.writeNot sr).cc = true) :
    flags.cc = true := by
  simp only [Sr.writeNot, Sr.cc, Bool.or_eq_true, Bool.and_eq_true] at h ⊢
  exact h.imp And.left And.left

/-- The write of `SR` clears the flags that were read. -/
theorem CaptureInv.writeSr {gpsext : Bool} {r : Regs} {v : Vars} {hist : Hist} {sr : Sr}
    (hF : FlagsOk gpsext r (some (.writeSr sr)) hist)
    (hA : ActivationOk gpsext v (.writeSr sr) hist)
    (hH : HandOutOk gpsext r v (some (.writeSr sr)) hist) :
    FlagsOk gpsext { r with sr := r.sr.writeNot sr } (some (.update sr)) hist ∧
    ActivationOk gpsext v (.update sr) hist ∧
    HandOutOk gpsext { r with sr := r.sr.writeNot sr } v (some (.update sr)) hist := by
  refine ⟨⟨?_, fun hu => ?_, fun hc => hF.cc (Sr.cc_of_writeNot hc), hF.edges_past,
    hF.edges_sorted, fun hc hs hu => ?_⟩, ⟨hA.only, hA.epoch, hA.side⟩,
    ⟨fun h_wait => ?_, fun h_clear => ?_, hH.held, hH.fetched, hH.edges, hH.nodup⟩⟩
  · have h_only := hF.only
    unfold Sr.Only Sr.writeNot at *
    cases gpsext <;> simp_all
  · simp only [Sr.writeNot, Bool.and_eq_true] at hu
    exact hF.uif hu.1
  · -- an update flag that the activation has not read is not cleared by it
    rw [serves_update] at hs
    refine hF.same (Sr.cc_of_writeNot hc) (by rwa [serves_writeSr]) fun h_unread => hu ⟨?_, ?_⟩
    · have h_not := h_unread.2 sr rfl
      simp [Sr.writeNot, h_unread.1, h_not]
    · simp
  · rw [serves_update] at h_wait
    refine hH.waiting ?_
    rw [serves_writeSr]
    exact (Sr.writeNot_cc r.sr sr).mp h_wait
  · rw [serves_update] at h_clear
    exact hH.taken fun h => h_clear ((Sr.writeNot_cc r.sr sr).mpr (by rwa [serves_writeSr] at h))

/-- The update branch brings `mono_epoch` to the period of the read of `SR`. -/
theorem CaptureInv.update {gpsext : Bool} {r : Regs} {v : Vars} {hist : Hist} {sr : Sr}
    (hF : FlagsOk gpsext r (some (.update sr)) hist)
    (hA : ActivationOk gpsext v (.update sr) hist)
    (hH : HandOutOk gpsext r v (some (.update sr)) hist) :
    FlagsOk gpsext r (some (.readCcr sr)) hist ∧
    ActivationOk gpsext (if sr.uif then v.update else v) (.readCcr sr) hist ∧
    HandOutOk gpsext r (if sr.uif then v.update else v) (some (.readCcr sr)) hist := by
  refine ⟨⟨hF.only, hF.uif, hF.cc, hF.edges_past, hF.edges_sorted, fun hc hs hu => ?_⟩,
    ⟨hA.only, ?_, hA.side⟩,
    ⟨fun h_wait => ?_, fun h_clear => ?_, ?_, hH.fetched, hH.edges, hH.nodup⟩⟩
  · rw [serves_readCcr] at hs
    exact hF.same hc (by rwa [serves_update]) fun h_unread => hu ⟨h_unread.1, by simp⟩
  -- `update` adds a period just if the flag was read, and the invariant counts that one
  · rintro sr' ⟨⟩
    have h_epoch := hA.epoch sr rfl
    simp only [toAdd] at h_epoch ⊢
    cases hu : sr.uif with
    | false => simpa [hu] using h_epoch
    | true =>
      rw [hu, Bool.toNat_true, Nat.one_mul] at h_epoch
      rw [if_pos rfl, Vars.update_monoEpoch, Nat.zero_mul, Nat.add_zero]
      exact (Nat.mod_modEq _ _).trans h_epoch
  · rw [serves_readCcr] at h_wait; exact hH.waiting (by rwa [serves_update])
  · rw [serves_readCcr] at h_clear; exact hH.taken (by rwa [serves_update])
  · split
    · rw [Vars.update_monoCapture]; exact hH.held
    · exact hH.held

/-- The flag of the enabled channel is cleared. -/
def Regs.clearCc (gpsext : Bool) (r : Regs) : Regs :=
  if gpsext then { r with sr := { r.sr with cc3if := false } }
  else { r with sr := { r.sr with cc1if := false } }

/-- The read of `CCR`, with one channel enabled. -/
theorem handlerStep_readCcr {gpsext : Bool} {s : State} {sr : Sr} (h_only : sr.Only gpsext) :
    handlerStep s (.readCcr sr) =
      (if sr.cc then { s with
          regs := s.regs.clearCc gpsext
          vars := s.vars.capture sr (s.regs.ccr gpsext)
          hist := { s.hist with held := s.hist.edges.head? } }
        else s, none) := by
  obtain ⟨uif, cc1if, cc3if⟩ := sr
  unfold Sr.Only at h_only
  -- the flag of the other channel is never set
  cases gpsext with
  | false =>
    obtain rfl : cc3if = false := by simpa using h_only
    cases cc1if <;> rfl
  | true =>
    obtain rfl : cc1if = false := by simpa using h_only
    cases cc3if <;> rfl

/-- The read of `CCR` moves the last edge into `mono_capture`, if the activation
serves it. -/
theorem CaptureInv.readCcr {gpsext : Bool} {r : Regs} {v : Vars} {hist : Hist} {sr : Sr}
    (hF : FlagsOk gpsext r (some (.readCcr sr)) hist)
    (hA : ActivationOk gpsext v (.readCcr sr) hist)
    (hH : HandOutOk gpsext r v (some (.readCcr sr)) hist) (hc : sr.cc = true) :
    FlagsOk gpsext (r.clearCc gpsext) none { hist with held := hist.edges.head? } ∧
    HandOutOk gpsext (r.clearCc gpsext) (v.capture sr (r.ccr gpsext)) none
      { hist with held := hist.edges.head? } := by
  obtain ⟨T, hT, h_ccr, h_new⟩ := hH.waiting (Or.inr ((serves_readCcr sr).mpr hc))
  have h_clear : (r.clearCc gpsext).sr.cc = false := by
    have h_only := hF.only
    unfold Sr.Only at h_only
    unfold Regs.clearCc Sr.cc
    cases gpsext <;> simp_all
  have h_ticks : (r.clearCc gpsext).ticks = r.ticks := by unfold Regs.clearCc; split <;> rfl
  have h_uif : (r.clearCc gpsext).sr.uif = r.sr.uif := by unfold Regs.clearCc; split <;> rfl
  -- the edge that waits for the handler is in none of the places behind it
  rw [Hist.captured, List.mem_append, not_or] at h_new
  have h_nodup := hH.nodup
  have h_edges := hH.edges
  rw [Hist.captured] at h_nodup h_edges
  refine ⟨⟨?_, ?_, ?_, ?_, hF.edges_sorted, ?_⟩, ⟨?_, ?_, ?_, hH.fetched, ?_, ?_⟩⟩
  · have h_only := hF.only
    unfold Sr.Only Regs.clearCc at *
    cases gpsext <;> simp_all
  · rw [h_ticks, h_uif]; exact hF.uif
  · rw [h_clear]; exact fun h => absurd h (by simp)
  · rw [h_ticks]; exact hF.edges_past
  · rw [h_clear]; exact fun h => absurd h (by simp)
  · rw [h_clear]
    exact fun h => h.elim (fun h => absurd h (by simp)) (fun h => absurd h serves_none)
  · -- the last edge is held now
    intro _ T' hT'
    simp only [Hist.captured, hT', Option.toList_some, List.singleton_append]
    exact List.mem_cons_self
  · -- the count and the flags that were read give its time
    simp only [hT, h_ccr]
    refine capture_value (S := hist.srAt) ?_ (hA.side sr rfl hc T hT)
    simpa [toAdd] using hA.epoch sr rfl
  · intro T' hT'
    simp only [Hist.captured, hT, Option.toList_some, List.singleton_append,
      List.mem_cons] at hT'
    rcases hT' with rfl | hT'
    · exact List.mem_of_head? hT
    · exact h_edges T' (List.mem_append_right _ hT')
  · -- an edge that was held before and never fetched is overwritten
    simp only [Hist.captured, hT, Option.toList_some, List.singleton_append]
    exact List.nodup_cons.mpr ⟨h_new.2, (List.nodup_append.mp h_nodup).2.1⟩

/-- Outside the handler the invariant on flags and edges is that of its entry. -/
theorem FlagsOk.congr {gpsext : Bool} {r : Regs} {h h' : Option HandlerPc} {hist : Hist}
    (hF : FlagsOk gpsext r h hist) (hs : serves h → serves h')
    (hu : unreadUif r h → unreadUif r h') : FlagsOk gpsext r h' hist where
  only := hF.only
  uif := hF.uif
  cc := hF.cc
  edges_past := hF.edges_past
  edges_sorted := hF.edges_sorted
  same := fun hc hs' hu' => hF.same hc (fun h => hs' (hs h)) (fun h => hu' (hu h))

theorem HandOutOk.congr {gpsext : Bool} {r : Regs} {v : Vars} {h h' : Option HandlerPc}
    {hist : Hist} (hH : HandOutOk gpsext r v h hist) (hs : serves h ↔ serves h') :
    HandOutOk gpsext r v h' hist where
  waiting := by rw [← hs]; exact hH.waiting
  taken := by rw [← hs]; exact hH.taken
  held := hH.held
  fetched := hH.fetched
  edges := hH.edges
  nodup := hH.nodup

/-! ### The invariant -/

theorem CaptureInv.initial (gpsext : Bool) : CaptureInv gpsext State.initial where
  epoch := EpochInv.initial
  flags := by
    refine ⟨?_, ?_, ?_, ?_, List.Pairwise.nil, ?_⟩
    · cases gpsext <;> rfl
    all_goals simp [State.initial, Sr.cc]
  activation := by simp [State.initial, Pc.handler]
  handOut := by
    refine ⟨?_, ?_, rfl, ?_, ?_, List.nodup_nil⟩ <;>
      simp [State.initial, Pc.handler, Sr.cc, Hist.captured]

/-- A step of the handler keeps the invariant. -/
theorem CaptureInv.handler {gpsext : Bool} {s s' : State} {h : HandlerPc}
    (hI : CaptureInv gpsext s) (hE : EpochInv s') (hs : HandlerStep s s' h) :
    CaptureInv gpsext s' := by
  have hF := hI.flags
  have hA := hI.activation h hs.pc
  have hH := hI.handOut
  have hE₀ := hI.epoch
  rw [EpochInv, hs.pc] at hE₀
  rw [hs.pc] at hF hH
  have h_pc := hs.pc'
  have h_regs := hs.regs
  have h_vars := hs.vars
  have h_hist := hs.hist
  -- one lemma for each of the four accesses
  suffices h_all : FlagsOk gpsext s'.regs s'.pc.handler s'.hist ∧
      (∀ k, s'.pc.handler = some k → ActivationOk gpsext s'.vars k s'.hist) ∧
      HandOutOk gpsext s'.regs s'.vars s'.pc.handler s'.hist from
    ⟨hE, h_all.1, h_all.2.1, h_all.2.2⟩
  rw [h_pc, h_regs, h_vars, h_hist]
  cases h with
  | readSr =>
    obtain ⟨hF', hA', hH'⟩ := CaptureInv.readSr hE₀ hF hH
    exact ⟨hF', by rintro k ⟨⟩; exact hA', hH'⟩
  | writeSr sr =>
    obtain ⟨hF', hA', hH'⟩ := CaptureInv.writeSr hF hA hH
    exact ⟨hF', by rintro k ⟨⟩; exact hA', hH'⟩
  | update sr =>
    obtain ⟨hF', hA', hH'⟩ := CaptureInv.update hF hA hH
    exact ⟨hF', by rintro k ⟨⟩; exact hA', hH'⟩
  | readCcr sr =>
    rw [handlerStep_readCcr (hA.only sr rfl)]
    refine ⟨?_, by rintro k ⟨⟩, ?_⟩ <;> dsimp only <;> split
    · next hc => exact (CaptureInv.readCcr hF hA hH hc).1
    · next hc =>
      exact hF.congr (fun h => absurd ((serves_readCcr sr).mp h) hc) fun hu => ⟨hu.1, by simp⟩
    · next hc => exact (CaptureInv.readCcr hF hA hH hc).2
    · next hc => exact hH.congr (by simp [hc])

/-- A step of `monotonic_now` keeps the invariant: it is not in the handler, or
about to enter it. -/
theorem CaptureInv.now {gpsext : Bool} {s s' : State} (hI : CaptureInv gpsext s)
    (hE : EpochInv s') (hs : NowStep s s') : CaptureInv gpsext s' := by
  have hF := hI.flags
  have hH := hI.handOut
  cases hs with
  | cnt1 hpc =>
    rw [hpc] at hF hH
    exact ⟨hE, ⟨hF.only, hF.uif, hF.cc, hF.edges_past, hF.edges_sorted, hF.same⟩,
      by rintro h ⟨⟩, ⟨hH.waiting, hH.taken, hH.held, hH.fetched, hH.edges, hH.nodup⟩⟩
  | epoch tmr1 hpc =>
    rw [hpc] at hF hH
    exact ⟨hE, hF, by rintro h ⟨⟩, hH⟩
  | cnt2 tmr1 ret hpc =>
    rw [hpc] at hF hH
    exact ⟨hE, ⟨hF.only, hF.uif, hF.cc, hF.edges_past, hF.edges_sorted, hF.same⟩,
      by rintro h ⟨⟩, ⟨hH.waiting, hH.taken, hH.held, hH.fetched, hH.edges, hH.nodup⟩⟩
  | ret tmr1 ret tmr2 hpc hlt =>
    rw [hpc] at hF hH
    exact ⟨hE, ⟨hF.only, hF.uif, hF.cc, hF.edges_past, hF.edges_sorted, hF.same⟩,
      by rintro h ⟨⟩, ⟨hH.waiting, hH.taken, hH.held, hH.fetched, hH.edges, hH.nodup⟩⟩
  -- the pass is repeated, with the handler before it
  | again tmr1 ret tmr2 hpc hge =>
    rw [hpc] at hF hH
    refine ⟨hE, hF.congr (fun h => absurd h serves_none) fun hu => ⟨hu.1, by rintro sr ⟨⟩⟩,
      ?_, hH.congr ⟨fun h => absurd h serves_none, fun h => absurd h serves_readSr⟩⟩
    rintro h ⟨⟩
    exact ⟨by rintro sr ⟨⟩, by rintro sr ⟨⟩, by rintro sr ⟨⟩⟩

/-- Handing out the capture moves the edge to the caller. -/
theorem HandOutOk.getCapture {gpsext : Bool} {r : Regs} {v v' : Vars} {hist : Hist}
    (hH : HandOutOk gpsext r v none hist) (hv : v'.monoCapture = 0) :
    HandOutOk gpsext r v' none
      { hist with held := none, fetched := (hist.held, v.monoCapture) :: hist.fetched } := by
  -- the capture goes from `held` to `fetched`, so none is lost
  have h_captured : Hist.captured
      { hist with held := none, fetched := (hist.held, v.monoCapture) :: hist.fetched } =
      hist.captured := by
    unfold Hist.captured
    cases h : hist.held <;> simp
  refine ⟨?_, ?_, hv, ?_, ?_, ?_⟩
  · rw [h_captured]; exact hH.waiting
  · rw [h_captured]; exact hH.taken
  · rintro p (_ | ⟨_, hp⟩)
    · exact hH.held
    · exact hH.fetched p hp
  · rw [h_captured]; exact hH.edges
  · rw [h_captured]; exact hH.nodup

/-- A step of a thread keeps the invariant. -/
theorem CaptureInv.thread {gpsext : Bool} {s s' : State} (hI : CaptureInv gpsext s)
    (hE : EpochInv s') (hs : ThreadStep s s') : CaptureInv gpsext s' := by
  have hF := hI.flags
  have hH := hI.handOut
  rw [hs.pc] at hF hH
  -- outside the handler, whatever the thread has done
  have h_none : FlagsOk gpsext s'.regs none s'.hist ∧
      HandOutOk gpsext s'.regs s'.vars none s'.hist := by
    rw [hs.regs]
    rcases hs.capture with ⟨h_hist, h_cap⟩ | ⟨h_hist, h_cap⟩ <;> rw [h_hist]
    · exact ⟨hF, hH.waiting, hH.taken, by rw [h_cap]; exact hH.held, hH.fetched, hH.edges,
        hH.nodup⟩
    · exact ⟨⟨hF.only, hF.uif, hF.cc, hF.edges_past, hF.edges_sorted, hF.same⟩,
        hH.getCapture h_cap⟩
  rcases hs.pc' with hpc | hpc | hpc
  · refine ⟨hE, ?_, ?_, ?_⟩ <;> rw [hpc]
    · exact h_none.1
    · rintro h ⟨⟩
    · exact h_none.2
  · refine ⟨hE, ?_, ?_, ?_⟩ <;> rw [hpc]
    · exact h_none.1.congr (fun h => absurd h serves_none) fun hu => ⟨hu.1, by rintro sr ⟨⟩⟩
    · rintro h ⟨⟩
      exact ⟨by rintro sr ⟨⟩, by rintro sr ⟨⟩, by rintro sr ⟨⟩⟩
    · exact h_none.2.congr ⟨fun h => absurd h serves_none, fun h => absurd h serves_readSr⟩
  · refine ⟨hE, ?_, ?_, ?_⟩ <;> rw [hpc]
    · exact h_none.1
    · rintro h ⟨⟩
    · exact h_none.2

/-- **Preservation.** Every step under the promises keeps the invariant. -/
theorem CaptureInv.step {gpsext : Bool} {s s' : State} {a : Action} (hI : CaptureInv gpsext s)
    (hg : Served s a) (hn : next gpsext s a = some s') : CaptureInv gpsext s' := by
  -- flags that are served in time leave room for one rollover only
  have h_one : OneRollover s a := by
    cases a with
    | advance n => exact (hI.flags.fresh hg.1).1
    | _ => trivial
  have hE : EpochInv s' := hI.epoch.step h_one hn
  rcases next_cases hn with ⟨n, rfl, rfl⟩ | ⟨rfl, h_new, rfl⟩ | ⟨rfl, hc⟩ | ht
  · exact ⟨hE, hI.flags.advance hI.epoch hg.1, fun h hh => (hI.activation h hh).advance,
      hI.handOut.advance⟩
  · refine ⟨hE, hI.flags.edge h_new, fun h hh => (hI.activation h hh).edge fun sr hsr hc => ?_,
      hI.handOut.edge (hI.flags.edges_lt h_new)⟩
    exact hg.2 sr (by rw [hh]; exact hsr) hc
  · rcases cpuStep_cases hc with ⟨h, hs⟩ | hs
    · exact hI.handler hE hs
    · exact hI.now hE hs
  · exact hI.thread hE ht

theorem CaptureInv.of_reach {gpsext : Bool} {s : State}
    (h : (timerMachine gpsext).Reach Served s) : CaptureInv gpsext s :=
  h.invariant (CaptureInv.initial gpsext) fun _ _ _ hI hg hn => hI.step hg hn

/-! ### The statement over every run -/

/-- **`monotonic_get_capture`.** In every run under the promises, in any order of
rollovers, edges and register accesses:

* a value handed out for an edge is its time on the scale of `mono_epoch`, and
  never 0;
* 0 is handed out if nothing was captured since the last time;
* no edge is handed out twice;
* the last edge, once its flag has been served, has been handed out exactly once
  after the next call. -/
theorem capture_exact (gpsext : Bool) (s : State) (h : (timerMachine gpsext).Reach Served s) :
    (∀ T v, (some T, v) ∈ s.hist.fetched → T ∈ s.hist.edges ∧ v = (monoPeriod + T) % 2 ^ 64 ∧
      (monoPeriod + T < 2 ^ 64 → v = monoPeriod + T ∧ v ≠ 0)) ∧
    (∀ v, (none, v) ∈ s.hist.fetched → v = 0) ∧
    (s.hist.fetched.filterMap Prod.fst).Nodup ∧
    (∀ T, s.hist.edges.head? = some T → s.pc = .thread → s.regs.sr.cc = false →
      ∃ t, next gpsext s .getCapture = some t ∧
        (t.hist.fetched.filterMap Prod.fst).count T = 1) := by
  have hI := CaptureInv.of_reach h
  have hH := hI.handOut
  refine ⟨fun T v hv => ⟨?_, hH.fetched _ hv, fun h_small => ?_⟩, fun v hv => hH.fetched _ hv,
    (List.nodup_append.mp hH.nodup).2.1, fun T hT hpc hc => ?_⟩
  · refine hH.edges T (List.mem_append_right _ (List.mem_filterMap.mpr ⟨_, hv, rfl⟩))
  · have h_value : v = (monoPeriod + T) % 2 ^ 64 := hH.fetched _ hv
    rw [Nat.mod_eq_of_lt h_small] at h_value
    exact ⟨h_value, by rw [h_value]; unfold monoPeriod; omega⟩
  · have hn : ∃ t, next gpsext s .getCapture = some t :=
      ⟨_, by simp only [next, hpc, if_true]; rfl⟩
    obtain ⟨t, hn⟩ := hn
    refine ⟨t, hn, ?_⟩
    have hI' := CaptureInv.of_reach (h.step (a := .getCapture) ⟨trivial, trivial⟩ hn)
    simp only [next, hpc, if_true, Option.some.injEq] at hn
    obtain rfl := hn
    -- nothing is held any more, so what was captured was handed out
    have h_taken := hI'.handOut.taken (by simp [Pc.handler, hc]) T hT
    have h_nodup := hI'.handOut.nodup
    simp only [Hist.captured, Option.toList_none, List.nil_append] at h_taken h_nodup
    exact List.count_eq_one_of_mem h_nodup h_taken

/-- A fetch with nothing captured, an edge 3 ticks before a rollover that is read
together with it and fetched, and an edge after it. -/
def captureRun : List Action :=
  [.getCapture, .advance 65533, .edge, .advance 5, .irq, .cpu, .cpu, .cpu, .cpu, .getCapture,
    .advance 10, .edge, .irq, .cpu, .cpu, .cpu, .cpu]

theorem capture_exact_run :
    (65533 ∈ ((timerMachine false).after Served captureRun).hist.edges ∧
      131069 = (monoPeriod + 65533) % 2 ^ 64 ∧
      131069 = monoPeriod + 65533 ∧ 131069 ≠ 0) ∧
    (((timerMachine false).after Served captureRun).hist.fetched.filterMap Prod.fst).Nodup ∧
    ∃ t, next false ((timerMachine false).after Served captureRun) .getCapture = some t ∧
      (t.hist.fetched.filterMap Prod.fst).count 65548 = 1 := by
  obtain ⟨h_value, -, h_nodup, h_last⟩ := capture_exact false
    ((timerMachine false).after Served captureRun) (Machine.reach_after _ _ (by decide +kernel))
  obtain ⟨h_edge, h_mod, h_small⟩ := h_value 65533 131069 (by decide +kernel)
  exact ⟨⟨h_edge, h_mod, h_small (by decide)⟩, h_nodup,
    h_last 65548 (by decide +kernel) (by decide +kernel) (by decide +kernel)⟩

/-- An edge 3 ticks before a rollover; its activation reads `SR`, and a second edge
overwrites the count after the rollover. The second activation serves the
rollover. -/
def secondEdgeRun : List Action :=
  [.advance 65533, .edge, .irq, .cpu, .advance 4, .edge, .cpu, .cpu, .cpu,
    .irq, .cpu, .cpu, .cpu, .cpu, .getCapture]

/-- Every flag is served within a few ticks, and the second edge is handed out one
period early. -/
theorem capture_second_edge :
    ¬ ∀ s, (timerMachine false).Reach FlagsServed s →
      ∀ T v, (some T, v) ∈ s.hist.fetched → v = monoPeriod + T := by
  intro h_all
  have h_value := h_all ((timerMachine false).after FlagsServed secondEdgeRun)
    (Machine.reach_after _ _ (by decide +kernel)) 65537 65537 (by decide +kernel)
  exact absurd h_value (by decide)

end Tim3
end Laureline
