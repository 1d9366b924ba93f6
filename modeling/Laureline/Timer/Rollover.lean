import Mathlib.Data.Nat.ModEq
import Mathlib.Tactic.Ring
import Laureline.Timer.Tim3

/-!
# The epoch between the rollover and its service

`mono_epoch` counts the periods the handler has been told about, the tick count
the periods that have begun. `owed` is the difference at every point of the
code: one period while an update flag is pending, and one more between the clear
of the flag and the addition to `mono_epoch` in the same activation of the
handler. `EpochOk` states this and is preserved by every step
(`EpochOk.step`), provided that a rollover finds the previous update flag
serviced (`OneRollover`).
-/

namespace Laureline
namespace Tim3

/-- At most one rollover is unserviced at a time: the counter does not pass a
second multiple of the period while the update flag is set. -/
def OneRollover (s : State) : Action → Prop
  | .advance n =>
    (s.regs.ticks + n) / monoPeriod ≤ s.regs.ticks / monoPeriod + (!s.regs.sr.uif).toNat
  | _ => True

/-- The rollovers that the handler has cleared from the status register and not
yet added to `mono_epoch`. -/
def inFlight : Option HandlerPc → ℕ
  | some (.update sr) => sr.uif.toNat
  | _ => 0

/-- The number of rollovers that `mono_epoch` does not yet count. -/
def owed (r : Regs) (h : Option HandlerPc) : ℕ := r.sr.uif.toNat + inFlight h

/-- The epoch invariant on the registers, the variables and the point of the
handler reached. -/
structure EpochOk (r : Regs) (v : Vars) (h : Option HandlerPc) : Prop where
  /-- `mono_epoch` and the rollovers owed make up the current period. -/
  epoch : v.monoEpoch + owed r h * monoPeriod
    ≡ (1 + r.ticks / monoPeriod) * monoPeriod [MOD 2 ^ 64]
  /-- A flag that has been read stays set until it is cleared. -/
  read : ∀ sr, h = some (.writeSr sr) → sr.uif = true → r.sr.uif = true

/-- The epoch invariant of a state. -/
def EpochInv (s : State) : Prop := EpochOk s.regs s.vars s.pc.handler

theorem EpochInv.initial : EpochInv State.initial where
  epoch := by decide
  read := by simp [State.initial, Pc.handler]

/-! ### What a step does to the epoch -/

/-- Outside the handler and at its entry the invariant says the same. -/
theorem EpochOk.enter {r : Regs} {v : Vars} (h : EpochOk r v none) :
    EpochOk r v (some .readSr) where
  epoch := h.epoch
  read := by simp

/-- The invariant reads `mono_epoch` only. -/
theorem EpochOk.congr {r : Regs} {v v' : Vars} {h : Option HandlerPc} (hI : EpochOk r v h)
    (hv : v'.monoEpoch = v.monoEpoch) : EpochOk r v' h where
  epoch := by rw [hv]; exact hI.epoch
  read := hI.read

/-- A pulse edge leaves the count and the update flag alone. -/
theorem EpochOk.edge {r : Regs} {v : Vars} {h : Option HandlerPc} (hI : EpochOk r v h)
    (gpsext : Bool) : EpochOk (r.edge gpsext) v h where
  epoch := by simpa only [owed, Regs.edge_ticks, Regs.edge_uif] using hI.epoch
  read := by simpa only [Regs.edge_uif] using hI.read

/-- Passing ticks owe one period for the multiple they pass. -/
theorem EpochOk.advance {r : Regs} {v : Vars} {h : Option HandlerPc} (hI : EpochOk r v h) {n : ℕ}
    (hn : (r.ticks + n) / monoPeriod ≤ r.ticks / monoPeriod + (!r.sr.uif).toNat) :
    EpochOk (r.advance n) v h := by
  have h_mono : r.ticks / monoPeriod ≤ (r.ticks + n) / monoPeriod :=
    Nat.div_le_div_right (Nat.le_add_right _ _)
  have h_epoch := hI.epoch
  refine ⟨?_, fun sr hsr hu => by simp only [Regs.advance, hI.read sr hsr hu, Bool.true_or]⟩
  by_cases hlt : r.ticks / monoPeriod < (r.ticks + n) / monoPeriod
  · -- the flag was clear and is set by the one multiple that is passed
    cases hu : r.sr.uif with
    | true => rw [hu] at hn; simp at hn; omega
    | false =>
      have h_next : (r.ticks + n) / monoPeriod = r.ticks / monoPeriod + 1 := by
        rw [hu] at hn; simp at hn; omega
      have h_add := h_epoch.add_right monoPeriod
      simp only [owed, hu, Bool.toNat_false, Nat.zero_add] at h_add
      simp only [owed, Regs.advance, hu, h_next, Nat.lt_succ_self, decide_true, Bool.false_or,
        Bool.toNat_true]
      convert h_add using 1 <;> ring
  · have h_same : (r.ticks + n) / monoPeriod = r.ticks / monoPeriod := by omega
    simpa [owed, Regs.advance, h_same] using h_epoch

/-- One step of the handler moves a period from the flag through the activation
into `mono_epoch`. -/
theorem EpochOk.handlerStep {s : State} {h : HandlerPc} (hI : EpochOk s.regs s.vars (some h)) :
    EpochOk (handlerStep s h).1.regs (handlerStep s h).1.vars (handlerStep s h).2 := by
  have h_epoch := hI.epoch
  cases h with
  | readSr =>
    -- the flag that was read is still set
    refine ⟨h_epoch, fun sr hsr hu => ?_⟩
    obtain rfl : s.regs.sr = sr := by simpa [Tim3.handlerStep] using hsr
    exact hu
  | writeSr sr =>
    -- the period owed passes from the register to the activation; a flag that was not
    -- read stays in the register
    refine ⟨?_, by simp [Tim3.handlerStep]⟩
    have h_read := hI.read sr rfl
    simp only [Tim3.handlerStep, owed, inFlight, Sr.writeNot] at h_epoch ⊢
    cases hu : sr.uif <;> cases hf : s.regs.sr.uif <;> simp_all
  | update sr =>
    refine ⟨?_, by simp [Tim3.handlerStep]⟩
    simp only [Tim3.handlerStep, owed, inFlight] at h_epoch ⊢
    cases hu : sr.uif with
    | false => simpa [hu] using h_epoch
    | true =>
      -- the activation adds the period that it owes
      rw [hu] at h_epoch
      simp only [if_true, Vars.update_monoEpoch]
      refine ((Nat.mod_modEq _ _).add_right _).trans ?_
      convert h_epoch using 1
      rw [Bool.toNat_true]; ring
  | readCcr sr =>
    -- no branch touches the update flag or the epoch
    simp only [Tim3.handlerStep]
    split
    · exact ⟨by simpa [owed, inFlight] using h_epoch, by simp⟩
    · split
      · exact ⟨by simpa [owed, inFlight] using h_epoch, by simp⟩
      · exact ⟨by simpa [owed, inFlight] using h_epoch, by simp⟩

/-- A step of the code keeps the invariant. -/
theorem EpochInv.cpu {s s' : State} (hI : EpochInv s) (hn : cpuStep s = some s') :
    EpochInv s' := by
  unfold EpochInv at hI ⊢
  rcases cpuStep_cases hn with ⟨h, hs⟩ | hs
  · rw [hs.pc] at hI
    rw [hs.regs, hs.vars, hs.pc']
    exact hI.handlerStep
  · -- `monotonic_now` reads, and does not write, what the invariant is about
    cases hs with
    | cnt1 hpc => rw [hpc] at hI; exact hI
    | epoch tmr1 hpc => rw [hpc] at hI; exact hI
    | cnt2 tmr1 ret hpc => rw [hpc] at hI; exact hI
    | ret tmr1 ret tmr2 hpc hlt => rw [hpc] at hI; exact hI
    | again tmr1 ret tmr2 hpc hge => rw [hpc] at hI; exact hI.enter

/-- **The epoch invariant is preserved** by every step that passes at most one
unserviced rollover. -/
theorem EpochInv.step {gpsext : Bool} {s s' : State} {a : Action} (hI : EpochInv s)
    (hg : OneRollover s a) (hn : next gpsext s a = some s') : EpochInv s' := by
  rcases next_cases hn with ⟨n, rfl, rfl⟩ | ⟨rfl, -, rfl⟩ | ⟨rfl, hc⟩ | ht
  · exact EpochOk.advance hI hg
  · exact EpochOk.edge hI gpsext
  · exact hI.cpu hc
  · -- a thread runs while no activation is open
    have hI' : EpochOk s'.regs s'.vars none := by
      have h := hI
      unfold EpochInv at h
      rw [ht.pc, ← ht.regs] at h
      exact h.congr ht.epoch
    unfold EpochInv
    rcases ht.pc' with hpc | hpc | hpc <;> rw [hpc]
    · exact hI'
    · exact hI'.enter
    · exact hI'

end Tim3
end Laureline
