import Laureline.Vtimer.Clock
import Laureline.Timer.Sleep

/-!
# Sleeping until a time

`vtimer_sleep_until` turns a time into a tick, with the rate and the base that `vtimer_getI`
uses the other way round, and sleeps until the timer has reached the tick (`Timer.Sleep`).

* `offset_getI` — a reading, counted from the base;
* `getI_tickFor` — the tick is the last one at which the clock is not past the time;
* `vtimer_sleep_until` — the tick, and when the sleep ends.
-/

namespace Laureline
namespace Vtimer

/-- A time, counted from the base. -/
def offset (v : Vtimer) (vt : ℕ) : ℕ := u64 ((vt : ℤ) - v.vtLast)

/-- `mono_when` of `vtimer_sleep_until`. The quotient is unsigned, as `vt_rate` is. -/
def monoWhen (v : Vtimer) (vtWhen : ℕ) : ℕ :=
  let deltaVt := i64 (v.offset vtWhen * 2 ^ vtRatePrec)
  u64 (v.monoLast + (u64 deltaVt / v.vtRate : ℕ))

variable {v : Vtimer} {vtWhen k : ℕ}

/-- A tick is as good as its residue. -/
theorem getI_mod (v : Vtimer) (m : ℕ) : v.getI (m % 2 ^ 64) = v.getI m := by
  have h_ticks : i32 (((m % 2 ^ 64 : ℕ) : ℤ) - v.monoLast) = i32 ((m : ℤ) - v.monoLast) := by
    unfold i32
    rw [Int.bmod_def, Int.bmod_def]
    omega
  simp only [getI, h_ticks]

/-- **A reading `k` ticks after the base.** -/
theorem offset_getI (h_ticks : k < 2 ^ 31) (h_product : v.vtRate * k < 2 ^ 63) :
    v.offset (v.getI (v.monoLast + k)) = v.vtRate * k / 2 ^ vtRatePrec := by
  have h_elapsed : v.elapsed (v.monoLast + k) = k := by
    unfold elapsed
    omega
  -- nothing wraps in `vtimer_getI`
  have h_range : v.InRange (v.monoLast + k) := by
    refine ⟨?_, ?_⟩ <;> rw [h_elapsed]
    · omega
    · have h_cast : (v.vtRate : ℤ) * k = (v.vtRate * k : ℕ) := by push_cast; rfl
      rw [h_cast]
      omega
  have h_served : v.served (v.monoLast + k) = (v.vtRate * k / 2 ^ vtRatePrec : ℕ) := by
    rw [served, h_elapsed]
    push_cast
    rfl
  have h_small : v.vtRate * k / 2 ^ vtRatePrec < 2 ^ 64 :=
    (Nat.div_le_self _ _).trans_lt (h_product.trans (by decide))
  generalize v.vtRate * k / 2 ^ vtRatePrec = served at h_served h_small ⊢
  rw [offset, getI_eq h_range, h_served, cast_u64, u64]
  omega

/-- The ticks from the base to `mono_when`. -/
theorem monoWhen_eq (h_when : v.offset vtWhen < 2 ^ 35) :
    v.monoWhen vtWhen =
      (v.monoLast + v.offset vtWhen * 2 ^ vtRatePrec / v.vtRate) % 2 ^ 64 := by
  have h_delta : i64 (v.offset vtWhen * 2 ^ vtRatePrec) =
      (v.offset vtWhen * 2 ^ vtRatePrec : ℕ) := by
    rw [i64_of_range] <;> push_cast [vtRatePrec] <;> omega
  -- the shift is signed, the division unsigned
  have h_unsigned : u64 (v.offset vtWhen * 2 ^ vtRatePrec : ℕ) =
      v.offset vtWhen * 2 ^ vtRatePrec := by
    have h_cast := u64_of_range (x := (v.offset vtWhen * 2 ^ vtRatePrec : ℕ)) (by omega)
      (by rw [vtRatePrec]; omega)
    exact_mod_cast h_cast
  simp only [monoWhen, h_delta, h_unsigned]
  rw [u64]
  omega

/-- The tick for a time: the base and the quotient, before the 64-bit counter wraps. -/
def tickFor (v : Vtimer) (vtWhen : ℕ) : ℕ :=
  v.monoLast + v.offset vtWhen * 2 ^ vtRatePrec / v.vtRate

/-- **The tick for a time.** At the tick the clock is not past the time, and one tick later it
is not before it. -/
theorem getI_tickFor (h_rate : 0 < v.vtRate)
    (h_ticks : v.tickFor vtWhen + 1 - v.monoLast < 2 ^ 31)
    (h_product : v.vtRate * (v.tickFor vtWhen + 1 - v.monoLast) < 2 ^ 63) :
    v.offset (v.getI (v.tickFor vtWhen % 2 ^ 64)) ≤ v.offset vtWhen ∧
      v.offset vtWhen ≤ v.offset (v.getI ((v.tickFor vtWhen + 1) % 2 ^ 64)) := by
  unfold tickFor at *
  generalize v.offset vtWhen = D at *
  generalize h_k : D * 2 ^ vtRatePrec / v.vtRate = k at *
  have h_count : v.monoLast + k + 1 - v.monoLast = k + 1 := by omega
  rw [h_count] at h_ticks h_product
  have h_less : v.vtRate * k < 2 ^ 63 :=
    (Nat.mul_le_mul_left _ (Nat.le_succ k)).trans_lt h_product
  rw [Nat.add_assoc, getI_mod, getI_mod, offset_getI (by omega) h_less,
    offset_getI h_ticks h_product]
  have h_pos : 0 < 2 ^ vtRatePrec := by decide
  constructor
  · apply Nat.div_le_of_le_mul
    rw [← h_k, Nat.mul_comm (2 ^ vtRatePrec)]
    exact Nat.mul_div_le _ _
  · -- one tick more than the quotient is past the time
    rw [Nat.le_div_iff_mul_le h_pos, ← h_k]
    exact (Nat.lt_mul_div_succ _ h_rate).le

/-- **Sleeping until a time.** The tick for a time inverts the clock: `mono_when` is the base and
the quotient, and the clock reaches the time between this tick and the next one. In every run of
the timer with a thread that sleeps until ticks, `sleep_flag` is set just from the first rollover
serviced since the call on at which `mono_epoch` has reached the tick rounded down, and while it
is set the call can return. -/
theorem vtimer_sleep_until :
    (∀ (v : Vtimer) (vtWhen : ℕ), 2 ^ 28 ≤ v.vtRate → v.vtRate ≤ 2 ^ 40 →
      v.offset vtWhen < 2 ^ 35 →
      let m := v.tickFor vtWhen
      v.monoWhen vtWhen = m % 2 ^ 64 ∧ v.monoLast ≤ m ∧
        (m + 1 - v.monoLast < 2 ^ 31 → v.vtRate * (m + 1 - v.monoLast) < 2 ^ 63 →
          v.offset (v.getI (m % 2 ^ 64)) ≤ v.offset vtWhen ∧
            v.offset vtWhen ≤ v.offset (v.getI ((m + 1) % 2 ^ 64)))) ∧
    ∀ gpsext s, (Tim3.sleepMachine gpsext).Reach (fun _ _ => True) s →
      (s.timer.vars.sleepFlag = true ↔
        ∃ w, s.asleep = some w ∧ ∃ epoch ∈ s.serviced, w - w % Tim3.monoPeriod ≤ epoch) ∧
      ((∃ s', (Tim3.sleepMachine gpsext).next s .semTake = some s') ↔
        s.timer.pc = .thread ∧ s.timer.nest = 0 ∧ s.timer.vars.sleepFlag = true) := by
  constructor
  -- the arithmetic of one call
  · intro v vtWhen h_rate _ h_when
    have h_pos : 0 < v.vtRate := by omega
    exact ⟨monoWhen_eq h_when, Nat.le_add_right _ _, getI_tickFor h_pos⟩
  -- the runs of the timer
  · intro _ _ h
    exact Tim3.sleep_returns h

/-- A clock of 64 NTP fractions a tick: 1000 fractions are reached between the 15th and the 16th
tick. And a sleep that the first rollover ends. -/
theorem vtimer_sleep_until_period :
    let v : Vtimer := ⟨2 ^ 34, 64, 0, 5, 0⟩
    let acts : List Tim3.Action :=
      [.sleepUntil 131077, .advance 65536, .irq, .cpu, .cpu, .cpu, .cpu]
    (v.monoWhen 1000 = 20 ∧ v.offset (v.getI 20) ≤ v.offset 1000 ∧
      v.offset 1000 ≤ v.offset (v.getI 21)) ∧
      ∃ s, ((Tim3.sleepMachine false).exec (fun _ _ => True) (Tim3.sleepMachine false).init
          acts) = some s ∧
        ∃ s', (Tim3.sleepMachine false).next s .semTake = some s' := by
  intro v acts
  have h_tick : v.tickFor 1000 = 20 := by decide +kernel
  have h_inverts := vtimer_sleep_until.1 v 1000 (by decide) (by decide) (by decide)
  rw [h_tick] at h_inverts
  obtain ⟨h_m, -, h_between⟩ := h_inverts
  refine ⟨⟨h_m, h_between (by decide) (by decide)⟩, ?_⟩
  -- the interrupt of the first rollover wakes the sleeper
  have h_exec : ((Tim3.sleepMachine false).exec (fun _ _ => True)
      (Tim3.sleepMachine false).init acts).map
        (fun s => (s.timer.pc, s.timer.nest, s.asleep, s.serviced)) =
      some (.thread, 0, some 131077, [131072]) := by
    decide
  obtain ⟨s, h_exec, h_s⟩ := Option.map_eq_some_iff.mp h_exec
  obtain ⟨h_pc, h_nest, h_asleep, h_serviced⟩ : s.timer.pc = .thread ∧ s.timer.nest = 0 ∧
      s.asleep = some 131077 ∧ s.serviced = [131072] := by simpa using h_s
  have h_returns := vtimer_sleep_until.2 false s (Machine.reach_of_exec _ _ h_exec)
  have h_flag := h_returns.1.mpr ⟨131077, h_asleep, 131072, by simp [h_serviced], by decide⟩
  exact ⟨s, h_exec, h_returns.2.mpr ⟨h_pc, h_nest, h_flag⟩⟩

end Vtimer
end Laureline
