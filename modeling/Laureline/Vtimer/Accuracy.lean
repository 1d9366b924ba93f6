import Laureline.Vtimer.Clock

/-!
# The accuracy of a reading

`vtimer_updateI` moves the base once a second, and every move rounds down. Over a
run of `n` updates at a fixed rate the readings stay within `n` units of the exact
time and never run ahead of it.

* `inRange_of_near`: for the frequencies that `setup_clocks` chooses and rates
  within 500 ppm, 7.9 seconds of ticks overflow neither the 32-bit difference nor
  the 64-bit product.
* `served_split`: one move of the base costs at most one unit.
* `updates_accuracy` adds this up over the run.
-/

namespace Laureline
namespace Vtimer

/-- A rate within 500 ppm of the nominal one, `2 ^ 60 / systemFrequency`. -/
def WithinPpm (systemFrequency vtRate : ℕ) : Prop :=
  |(vtRate : ℚ) - 2 ^ 60 / systemFrequency| ≤ (500 / 1000000 : ℚ) * (2 ^ 60 / systemFrequency)

/-- Less than 7.9 seconds of ticks apart, in either direction. -/
def Near (systemFrequency mono mono' : ℕ) : Prop :=
  10 * |(mono' : ℤ) - mono| < 79 * systemFrequency

/-- The clock after updates at the given monotonic times. -/
def updates (v : Vtimer) (monos : List ℕ) : Vtimer := monos.foldl updateI v

/-! ### No overflow -/

/-- The product of the rate and one second of ticks. -/
theorem WithinPpm.rate_mul_le {f rate : ℕ} (hf : 0 < f) (h : WithinPpm f rate) :
    2000 * ((rate : ℤ) * f) ≤ 2001 * 2 ^ 60 := by
  have h_pos : (0 : ℚ) < f := Nat.cast_pos.mpr hf
  have h_upper := (abs_le.mp h).2
  have h_rate : (rate : ℚ) ≤ 2001 / 2000 * (2 ^ 60 / f) := by linarith
  have h_mul : 2000 * ((rate : ℚ) * f) ≤ 2001 * 2 ^ 60 := by
    calc 2000 * ((rate : ℚ) * f) ≤ 2000 * (2001 / 2000 * (2 ^ 60 / f) * f) := by
          exact mul_le_mul_of_nonneg_left (mul_le_mul_of_nonneg_right h_rate h_pos.le)
            (by norm_num)
      _ = 2001 * 2 ^ 60 := by field_simp
  exact_mod_cast h_mul

theorem inRange_of_near {f : ℕ} (hf : 18000000 ≤ f ∧ f ≤ 72000000) {v : Vtimer} {mono : ℕ}
    (h_rate : WithinPpm f v.vtRate) (h_near : Near f v.monoLast mono) : v.InRange mono := by
  unfold Near at h_near
  -- at 72 MHz, 7.9 s are 568.8 million ticks
  have h_ticks : |v.elapsed mono| < 2 ^ 31 := by unfold elapsed; omega
  -- the frequency cancels: the product is at most 7.9 * 1.0005 * 2 ^ 60
  have h_product : |v.vtRate * v.elapsed mono| < 2 ^ 63 := by
    have h_mul := h_rate.rate_mul_le (by omega)
    have h_le : (v.vtRate : ℤ) * (10 * |v.elapsed mono|) ≤ v.vtRate * (79 * f) :=
      mul_le_mul_of_nonneg_left h_near.le (Int.natCast_nonneg _)
    rw [abs_mul, Nat.abs_cast]
    linarith
  exact ⟨⟨by have := (abs_lt.mp h_ticks).1; omega, (abs_lt.mp h_ticks).2⟩,
    ⟨by have := (abs_lt.mp h_product).1; omega, (abs_lt.mp h_product).2⟩⟩

/-! ### One move of the base -/

theorem served_split (v : Vtimer) (mono mono' : ℕ) :
    v.served mono + (v.updateI mono).served mono' = v.served mono' ∨
      v.served mono + (v.updateI mono).served mono' = v.served mono' - 1 := by
  -- the ticks add up, and rounding two parts down loses at most one unit against the whole
  have h_sum : (v.vtRate : ℤ) * v.elapsed mono' =
      v.vtRate * v.elapsed mono + v.vtRate * (v.updateI mono).elapsed mono' := by
    simp only [elapsed, updateI_monoLast]; ring
  simp only [served, updateI_vtRate, vtRatePrec]
  rw [h_sum]
  generalize (v.vtRate : ℤ) * v.elapsed mono = a
  generalize (v.vtRate : ℤ) * (v.updateI mono).elapsed mono' = b
  omega

/-! ### The run -/

/-- **Accuracy.** At a fixed rate within 500 ppm, after `n` updates less than 7.9
seconds apart and for a reading less than 7.9 seconds before or after the last of
them: no difference and no product overflows, and the reading is the exact time
rounded down, less at most `n` units. -/
theorem updates_accuracy {f : ℕ} (hf : 18000000 ≤ f ∧ f ≤ 72000000) (v : Vtimer)
    (h_rate : WithinPpm f v.vtRate) (monos : List ℕ) (mono : ℕ)
    (h_near : List.IsChain (Near f) (v.monoLast :: (monos ++ [mono]))) :
    (∀ before m rest, monos ++ [mono] = before ++ m :: rest → (v.updates before).InRange m) ∧
    ∃ lost : ℕ, lost ≤ monos.length ∧
      ((v.updates monos).getI mono : ℤ) ≡ v.vtLast + v.served mono - lost [ZMOD 2 ^ 64] := by
  -- the clock after the first update is the starting point of the rest of the run
  induction monos generalizing v with
  | nil =>
    have h_range := inRange_of_near hf h_rate (List.isChain_cons_cons.mp h_near).1
    refine ⟨fun before m rest h_eq => ?_, 0, le_refl _, ?_⟩
    · cases before with
      | nil =>
        obtain ⟨rfl, -⟩ := List.cons.inj h_eq
        exact h_range
      | cons _ before => simp at h_eq
    · simpa [updates] using getI_modEq h_range
  | cons m₁ monos ih =>
    rw [List.cons_append] at h_near
    obtain ⟨h_first, h_rest⟩ := List.isChain_cons_cons.mp h_near
    have h_range := inRange_of_near hf h_rate h_first
    obtain ⟨h_all, lost, h_lost, h_mod⟩ := ih (v.updateI m₁) h_rate h_rest
    refine ⟨fun before m rest h_eq => ?_, ?_⟩
    · cases before with
      | nil =>
        obtain ⟨rfl, -⟩ := List.cons.inj h_eq
        exact h_range
      | cons m₀ before =>
        obtain ⟨rfl, h_tail⟩ := List.cons.inj h_eq
        exact h_all before m rest h_tail
    · -- the base after the first update, and what the move costs
      have h_base := getI_modEq h_range
      have h_reading : ((v.updates (m₁ :: monos)).getI mono : ℤ) ≡
          v.vtLast + (v.served m₁ + (v.updateI m₁).served mono) - lost [ZMOD 2 ^ 64] := by
        refine h_mod.trans ?_
        rw [updateI_vtLast]
        convert (h_base.add_right ((v.updateI m₁).served mono)).sub_right (lost : ℤ) using 1
        ring
      rcases v.served_split m₁ mono with h_split | h_split <;> rw [h_split] at h_reading
      · exact ⟨lost, by simp; omega, h_reading⟩
      · -- this move has lost a unit
        refine ⟨lost + 1, by simp; omega, ?_⟩
        convert h_reading using 1
        push_cast; ring

/-- A clock at 60 MHz and the nominal rate. -/
def nominal : Vtimer := { start 60000000 with vtRate := 19215358410 }

/-- An update after one second, and a reading a little before it. -/
theorem updates_accuracy_nominal :
    nominal.InRange 60000000 ∧ (nominal.updates [60000000]).InRange 59000000 ∧
    ∃ lost : ℕ, lost ≤ 1 ∧ ((nominal.updates [60000000]).getI 59000000 : ℤ) ≡
      nominal.vtLast + nominal.served 59000000 - lost [ZMOD 2 ^ 64] := by
  have h_rate : WithinPpm 60000000 nominal.vtRate := by
    unfold WithinPpm nominal; rw [abs_le]; norm_num
  have h_near : List.IsChain (Near 60000000) [0, 60000000, 59000000] := by
    simp [Near]
  obtain ⟨h_all, h_read⟩ :=
    updates_accuracy (by decide) nominal h_rate [60000000] 59000000 h_near
  exact ⟨h_all [] 60000000 [59000000] rfl, h_all [60000000] 59000000 [] rfl, h_read⟩

end Vtimer
end Laureline
