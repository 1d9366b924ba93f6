import Laureline.Lib.Machine
import Laureline.Vtimer.Clock

/-!
# Served time under changing rates

An iteration of `pll_thread` sets the rate and then moves the base, so the new
rate is applied to all ticks since the previous iteration, as the theory of
operation describes. A reading taken in between was made at the old rate; if the
new one is lower, time has been served that the new base does not count.

`setback` is that amount, and `State.loss` adds it up over a run. Readings plus
loss never decrease (`served_setback`), so served time goes back only across an
iteration that lowers the rate, and by no more than `setback`.
`served_goes_back` is a run in which it does, and one in which the product of rate
and ticks overflows just short of 8 seconds.
-/

namespace Laureline
namespace Serving

/-- One reading of `vtimer_now`, with the loss up to it. -/
structure Reading where
  value : ℕ
  loss : ℕ
deriving DecidableEq

/-- The clock, and what it has served. -/
structure State where
  clock : Vtimer
  /-- The last monotonic reading. -/
  mono : ℕ
  /-- The accumulated setbacks. -/
  loss : ℕ
  /-- The readings served, newest first. -/
  log : List Reading
deriving DecidableEq

/-- What the clock thread and its clients do. -/
inductive Action
  /-- An iteration of `pll_thread` without a step: `kern_freq(f)`, then
  `vtimer_updateI`. -/
  | iterate (f : Double) (mono : ℕ)
  /-- `vtimer_now`. -/
  | now (mono : ℕ)

/-- The time that was served at the rate `vtRate` and is not counted at the rate
`vtRate'`, after the given ticks, rounded up. -/
def setback (vtRate vtRate' ticks : ℕ) : ℕ :=
  ((vtRate - vtRate') * ticks + (2 ^ vtRatePrec - 1)) / 2 ^ vtRatePrec

/-- A step, if it is possible. -/
def next (s : State) : Action → Option State
  | .iterate f mono => (s.clock.kernFreq f).map fun v =>
    { s with
      clock := v.updateI mono
      mono
      loss := s.loss + setback s.clock.vtRate v.vtRate (mono - s.clock.monoLast) }
  | .now mono =>
    some { s with mono, log := ⟨s.clock.now mono, s.loss⟩ :: s.log }

/-- The clock, from an arbitrary base. -/
def servingMachine (v : Vtimer) : Machine State Action where
  init := ⟨v, v.monoLast, 0, []⟩
  next := next

/-! ### The promises -/

/-- The clock and the monotonic time with which an action reads the time. -/
def State.reads (s : State) : Action → Option (Vtimer × ℕ)
  | .iterate f mono => (s.clock.kernFreq f).map fun v => (v, mono)
  | .now mono => some (s.clock, mono)

/-- The time served from the base to a monotonic reading. -/
def fraction (v : Vtimer) (mono : ℕ) : ℕ := v.vtRate * (mono - v.monoLast) / 2 ^ vtRatePrec

/-- Monotonic readings never decrease, iterations are less than 8 seconds apart, and
the era does not end. -/
def Apart (systemFrequency : ℕ) (s : State) (a : Action) : Prop :=
  ∀ p ∈ s.reads a, s.mono ≤ p.2 ∧ p.2 - p.1.monoLast < 8 * systemFrequency ∧
    p.1.vtLast + fraction p.1 p.2 < 2 ^ 64

/-- The product of rate and ticks stays below `2 ^ 63`: less than 8 seconds of
served time. -/
def Fits (s : State) (a : Action) : Prop :=
  ∀ p ∈ s.reads a, p.1.vtRate * (p.2 - p.1.monoLast) < 2 ^ 63

/-- Both promises. -/
def Promised (systemFrequency : ℕ) (s : State) (a : Action) : Prop :=
  Apart systemFrequency s a ∧ Fits s a

/-- Both promises, and no iteration lowers the rate. -/
def RateKept (systemFrequency : ℕ) (s : State) (a : Action) : Prop :=
  Promised systemFrequency s a ∧ ∀ p ∈ s.reads a, s.clock.vtRate ≤ p.1.vtRate

instance (f : ℕ) (s : State) (a : Action) : Decidable (Apart f s a) :=
  inferInstanceAs (Decidable (∀ p ∈ s.reads a, _))

instance (s : State) (a : Action) : Decidable (Fits s a) :=
  inferInstanceAs (Decidable (∀ p ∈ s.reads a, _))

instance (f : ℕ) (s : State) (a : Action) : Decidable (Promised f s a) :=
  inferInstanceAs (Decidable (_ ∧ _))

instance (f : ℕ) (s : State) (a : Action) : Decidable (RateKept f s a) :=
  inferInstanceAs (Decidable (_ ∧ ∀ p ∈ s.reads a, _))

/-! ### Readings -/

/-- A reading that overflows nothing is the base plus the served fraction. -/
theorem getI_eq_fraction {f : ℕ} (hf : f ≤ 72000000) {v : Vtimer} {mono : ℕ}
    (h_le : v.monoLast ≤ mono) (h_apart : mono - v.monoLast < 8 * f)
    (h_era : v.vtLast + fraction v mono < 2 ^ 64)
    (h_fits : v.vtRate * (mono - v.monoLast) < 2 ^ 63) :
    v.getI mono = v.vtLast + fraction v mono := by
  have h_elapsed : v.elapsed mono = (mono - v.monoLast : ℕ) := by
    unfold Vtimer.elapsed; omega
  have h_product : (v.vtRate : ℤ) * v.elapsed mono = (v.vtRate * (mono - v.monoLast) : ℕ) := by
    rw [h_elapsed]; push_cast; ring
  have h_served : v.served mono = fraction v mono := by
    rw [Vtimer.served, h_product, fraction]; push_cast; rfl
  -- 8 s at 72 MHz are below 2 ^ 31 ticks
  have h_range : v.InRange mono := by
    refine ⟨?_, ?_⟩
    · rw [h_elapsed]; omega
    · rw [h_product]; omega
  have h_exact := Vtimer.getI_exact h_range (by omega) (by omega)
  omega

/-- `kern_freq` sets the rate only. -/
theorem kernFreq_frame {v v' : Vtimer} {f : Double} (h : v.kernFreq f = some v') :
    v'.vtLast = v.vtLast ∧ v'.monoLast = v.monoLast := by
  unfold Vtimer.kernFreq at h
  dsimp only at h
  split at h
  · obtain ⟨n, -, rfl⟩ := Option.map_eq_some_iff.mp h
    exact ⟨rfl, rfl⟩
  · exact absurd h (by simp)

/-- At a lower rate, the served fraction falls short by at most the setback. -/
theorem fraction_le_setback {v v' : Vtimer} (h_mono : v'.monoLast = v.monoLast) {mono mono' : ℕ}
    (h_le : mono ≤ mono') :
    fraction v mono ≤ fraction v' mono' + setback v.vtRate v'.vtRate (mono' - v.monoLast) := by
  have h_rate : v.vtRate * (mono - v.monoLast) ≤
      v'.vtRate * (mono' - v.monoLast) + (v.vtRate - v'.vtRate) * (mono' - v.monoLast) := by
    calc v.vtRate * (mono - v.monoLast) ≤ v.vtRate * (mono' - v.monoLast) :=
          Nat.mul_le_mul_left _ (by omega)
      _ ≤ (v'.vtRate + (v.vtRate - v'.vtRate)) * (mono' - v.monoLast) :=
          Nat.mul_le_mul_right _ (by omega)
      _ = _ := Nat.add_mul _ _ _
  unfold fraction setback
  rw [h_mono]
  simp only [vtRatePrec]
  omega

@[simp] theorem setback_of_le {vtRate vtRate' : ℕ} (h : vtRate ≤ vtRate') (ticks : ℕ) :
    setback vtRate vtRate' ticks = 0 := by
  unfold setback
  rw [Nat.sub_eq_zero_of_le h, Nat.zero_mul, Nat.zero_add]
  decide

/-! ### The invariant -/

/-- What the clock would show at the last monotonic reading. -/
def State.current (s : State) : ℕ := s.clock.vtLast + fraction s.clock s.mono

/-- Readings plus loss are sorted, and the clock is not behind them. -/
structure Inv (s : State) : Prop where
  base : s.clock.monoLast ≤ s.mono
  behind : ∀ r ∈ s.log, r.value + r.loss ≤ s.current + s.loss
  past : ∀ r ∈ s.log, r.loss ≤ s.loss
  sorted : s.log.Pairwise fun later earlier =>
    earlier.value + earlier.loss ≤ later.value + later.loss ∧ earlier.loss ≤ later.loss

theorem Inv.init (v : Vtimer) : Inv (servingMachine v).init :=
  ⟨le_refl _, by simp [servingMachine], by simp [servingMachine], List.Pairwise.nil⟩

theorem Inv.step {f : ℕ} (hf : f ≤ 72000000) {s s' : State} {a : Action} (hI : Inv s)
    (hg : Promised f s a) (hn : next s a = some s') : Inv s' := by
  have h_base := hI.base
  cases a with
  | iterate freq mono =>
    -- the new base is what the new rate gives, short of the readings by the setback
    obtain ⟨v, hv, rfl⟩ := Option.map_eq_some_iff.mp hn
    have h_read : (v, mono) ∈ s.reads (.iterate freq mono) := by simp [State.reads, hv]
    have h_guard := hg.1 _ h_read
    dsimp only at h_guard
    obtain ⟨h_le, h_apart, h_era⟩ := h_guard
    obtain ⟨h_last, h_mono⟩ := kernFreq_frame hv
    have h_get := getI_eq_fraction hf (by omega) h_apart h_era (hg.2 _ h_read)
    have h_setback := fraction_le_setback (v := s.clock) h_mono h_le
    refine ⟨le_refl _, fun r hr => ?_, fun r hr => ?_, hI.sorted⟩
    · have h_behind := hI.behind r hr
      simp only [State.current, Vtimer.updateI_vtLast] at h_behind ⊢
      omega
    · have := hI.past r hr
      dsimp only; omega
  | now mono =>
    -- the rate is the same, so the reading is not behind what the clock would have shown
    obtain rfl := Option.some.inj hn
    have h_guard := hg.1 _ rfl
    dsimp only at h_guard
    obtain ⟨h_le, h_apart, h_era⟩ := h_guard
    have h_get := getI_eq_fraction hf (by omega) h_apart h_era (hg.2 _ rfl)
    have h_later := fraction_le_setback (v := s.clock) rfl h_le
    rw [setback_of_le (le_refl _)] at h_later
    have h_now : s.current ≤ s.clock.now mono := by
      rw [Vtimer.now, h_get, State.current]; omega
    have h_all : ∀ r ∈ s.log, r.value + r.loss ≤ s.clock.now mono + s.loss ∧ r.loss ≤ s.loss :=
      fun r hr => ⟨by have := hI.behind r hr; omega, hI.past r hr⟩
    have h_current : ({ s with
        mono, log := ⟨s.clock.now mono, s.loss⟩ :: s.log } : State).current =
        s.clock.now mono := h_get.symm
    refine ⟨by dsimp only; omega, ?_, ?_, List.pairwise_cons.mpr ⟨h_all, hI.sorted⟩⟩
    · rw [h_current]
      rintro r (_ | ⟨_, hr⟩)
      · exact le_refl _
      · exact (h_all r hr).1
    · rintro r (_ | ⟨_, hr⟩)
      · exact le_refl _
      · exact (h_all r hr).2

theorem Inv.of_reach {f : ℕ} (hf : f ≤ 72000000) {v : Vtimer} {s : State}
    (h : (servingMachine v).Reach (Promised f) s) : Inv s :=
  h.invariant (Inv.init v) fun _ _ _ hI hg hn => hI.step hf hg hn

/-- Without a lower rate there is no loss. -/
theorem loss_eq_zero {f : ℕ} {v : Vtimer} {s : State}
    (h : (servingMachine v).Reach (RateKept f) s) : s.loss = 0 ∧ ∀ r ∈ s.log, r.loss = 0 := by
  refine h.invariant (I := fun s => s.loss = 0 ∧ ∀ r ∈ s.log, r.loss = 0)
    ⟨rfl, by simp [servingMachine]⟩ ?_
  intro s a s' ⟨h_loss, h_log⟩ hg hn
  cases a with
  | iterate freq mono =>
    -- a rate that is kept or raised has no setback
    obtain ⟨w, hw, rfl⟩ := Option.map_eq_some_iff.mp hn
    have h_rate : s.clock.vtRate ≤ w.vtRate := hg.2 (w, mono) (by simp [State.reads, hw])
    exact ⟨by simp [h_loss, h_rate], h_log⟩
  | now mono =>
    obtain rfl := Option.some.inj hn
    refine ⟨h_loss, ?_⟩
    rintro r (_ | ⟨_, hr⟩)
    · exact h_loss
    · exact h_log r hr

/-! ### The statement over every run -/

/-- **Served time.** For every starting base and every run of iterations and
readings under the promises, a reading falls behind an earlier one by no more than
the setbacks of the iterations in between. If no iteration lowers the rate, served
time never goes back. -/
theorem served_setback {f : ℕ} (hf : f ≤ 72000000) (v : Vtimer) :
    (∀ s, (servingMachine v).Reach (Promised f) s → s.log.Pairwise fun later earlier =>
      earlier.loss ≤ later.loss ∧ earlier.value ≤ later.value + (later.loss - earlier.loss)) ∧
    (∀ s, (servingMachine v).Reach (RateKept f) s → s.log.Pairwise fun later earlier =>
      earlier.value ≤ later.value) := by
  -- the sum of the reading and the loss never goes down
  have h_all : ∀ s, (servingMachine v).Reach (Promised f) s → s.log.Pairwise fun later earlier =>
      earlier.loss ≤ later.loss ∧
        earlier.value ≤ later.value + (later.loss - earlier.loss) := by
    intro s h
    refine (Inv.of_reach hf h).sorted.imp fun {later earlier} h_le => ?_
    obtain ⟨h_sum, h_loss⟩ := h_le
    exact ⟨h_loss, by omega⟩
  refine ⟨h_all, fun s h => ?_⟩
  -- without a change of rate nothing is lost
  have h_zero := (loss_eq_zero h).2
  refine (h_all s (h.mono fun _ _ hg => hg.1)).imp_of_mem fun {later earlier} hl he h_le => ?_
  have h_later := h_zero later hl
  have h_earlier := h_zero earlier he
  omega

/-- A clock at 60 MHz and the nominal rate, in 2014. -/
def clock2014 : Vtimer :=
  { Vtimer.start 60000000 with vtRate := 19215358410, vtLast := 3600000000 * 2 ^ 32 }

/-- A reading at the end of a second, an iteration that lowers the rate by 100 ppm,
and another reading. -/
def lowerRun : List Action :=
  [.now 59999999, .iterate (.fin (-1 / 10000)) 60000000, .now 60000001]

/-- The same with a rate that is raised. -/
def raiseRun : List Action :=
  [.now 59999999, .iterate (.fin (1 / 10000)) 60000000, .now 60000001]

/-- An iteration at the highest rate, and readings just after it and just short of
8 seconds later. -/
def longRun : List Action :=
  [.iterate (.fin (1 / 2000)) 0, .now 1, .now 479990000]

theorem served_setback_runs :
    ((servingMachine clock2014).after (Promised 60000000) lowerRun).log.Pairwise
      (fun later earlier => earlier.loss ≤ later.loss ∧
        earlier.value ≤ later.value + (later.loss - earlier.loss)) ∧
    ((servingMachine clock2014).after (RateKept 60000000) raiseRun).log.Pairwise
      (fun later earlier => earlier.value ≤ later.value) := by
  obtain ⟨h_all, h_kept⟩ := served_setback (by decide : 60000000 ≤ 72000000) clock2014
  exact ⟨h_all _ (Machine.reach_after _ _ (by decide +kernel)),
    h_kept _ (Machine.reach_after _ _ (by decide +kernel))⟩

/-- Served time goes back when the rate is lowered, with every product in range, and
by an overflow of the product, with every rate kept. -/
theorem served_goes_back :
    (¬ ∀ s, (servingMachine clock2014).Reach (Promised 60000000) s →
      s.log.Pairwise fun later earlier => earlier.value ≤ later.value) ∧
    (¬ ∀ s, (servingMachine clock2014).Reach (Apart 60000000) s →
      s.log.Pairwise fun later earlier =>
        earlier.loss = later.loss → earlier.value ≤ later.value) := by
  refine ⟨fun h_all => ?_, fun h_all => ?_⟩
  · have h_log := h_all ((servingMachine clock2014).after (Promised 60000000) lowerRun)
      (Machine.reach_after _ _ (by decide +kernel))
    exact absurd h_log (by decide +kernel)
  · have h_log := h_all ((servingMachine clock2014).after (Apart 60000000) longRun)
      (Machine.reach_after _ _ (by decide +kernel))
    exact absurd h_log (by decide +kernel)

end Serving
end Laureline
