import Laureline.Pll.Averages

/-!
# The learned limit of the ratio

When the loop fails, `pll_math` raises `wamin` from the ratio in use, so that the ratio is not
tightened as far again. The test before it looks at the old limit, not at the new one: a loop that
fails before its ratio has come down to `.8 * wamax` gets a limit above `wamax`.

* `Raises` — a call that does so;
* `wamin_le_wamax_iff` — the limits stay in order exactly in the runs without such a call;
* `wamin_above_wamax` — a run with one.
-/

namespace Laureline

namespace Pll

/-- `0 <= wamin <= wamax`. -/
def Ordered (s : State) : Prop := 0 ≤ s.wamin ∧ s.wamin ≤ s.wamax

instance (s : State) : Decidable (Ordered s) := inferInstanceAs (Decidable (_ ∧ _))

/-- The loop fails in the call and its ratio is above `.8 * wamax`, while the limit is not. -/
def Raises (s : State) : Call → Prop
  | .math y => (s.measure y).fails ∧ s.wamin / (4 / 5) < s.wamax ∧ s.wamax < s.wa / (4 / 5)
  | _ => False

section
variable {s : State} {h : Seen}

/-- The measurement leaves the limits alone. -/
theorem measure_limits (s : State) (y : ℚ) :
    (s.measure y).wamin = s.wamin ∧ (s.measure y).wamax = s.wamax := by
  have h_check (s : State) : s.check.wamin = s.wamin ∧ s.check.wamax = s.wamax := by
    unfold State.check
    split
    · exact ⟨rfl, rfl⟩
    · exact ⟨rfl, rfl⟩
  exact h_check { s with y := -y }

theorem call_of_fails {y : ℚ} (h_fails : (s.measure y).fails) :
    s.call (.math y) = (s.measure y).loosen := if_pos h_fails

theorem call_of_not_fails {y : ℚ} (h_fails : ¬ (s.measure y).fails) :
    s.call (.math y) = (s.measure y).steer := if_neg h_fails

/-- A loop that fails has not been started anew. -/
theorem measure_wa {y : ℚ} (h_fails : (s.measure y).fails) : (s.measure y).wa = s.wa := by
  have h_st : 4 ≤ (State.check { s with y := -y }).st := h_fails.1
  show (State.check { s with y := -y }).wa = s.wa
  unfold State.check at h_st ⊢
  split at h_st
  · exact absurd h_st (by decide : ¬ 4 ≤ 1)
  · next h_not => rw [if_neg h_not]

/-- What the failed loop leaves in `wamin`. -/
theorem call_wamin {y : ℚ} (h_fails : (s.measure y).fails) :
    (s.call (.math y)).wamin = if s.wamin / (4 / 5) < s.wamax then s.wa / (4 / 5) else s.wamin := by
  obtain ⟨h_min, h_max⟩ := measure_limits s y
  rw [call_of_fails h_fails, ← measure_wa h_fails, ← h_min, ← h_max]
  rfl

/-- No call changes `wamax`. -/
theorem call_wamax (s : State) (y : ℚ) : (s.call (.math y)).wamax = s.wamax := by
  obtain ⟨-, h_max⟩ := measure_limits s y
  by_cases h_fails : (s.measure y).fails
  · rw [call_of_fails h_fails]
    exact h_max
  · rw [call_of_not_fails h_fails, (Steers.steer _).wamax, h_max]

/-- A call that raises the limit too far. -/
theorem not_ordered_of_raises {c : Call} (h_raises : Raises s c) : ¬ Ordered (s.call c) := by
  cases c with
  | math y =>
    obtain ⟨h_fails, h_guard, h_above⟩ := h_raises
    rintro ⟨-, h_le⟩
    rw [call_wamin h_fails, if_pos h_guard, call_wamax] at h_le
    exact absurd h_above (not_lt.mpr h_le)
  | _ => exact h_raises.elim

/-- Every other call keeps the limits in order. -/
theorem Ordered.call (h_ordered : Ordered s) (hI : Inv s h) {c : Call}
    (h_raises : ¬ Raises s c) : Ordered (s.call c) := by
  cases c with
  | math y =>
    obtain ⟨h_nonneg, h_le⟩ := h_ordered
    unfold Ordered
    rw [call_wamax]
    by_cases h_fails : (s.measure y).fails
    · rw [call_wamin h_fails]
      split
      · next h_guard =>
        -- the limit is raised from a ratio that is low enough
        have h_pos : 0 < s.wa := by
          rw [← measure_wa h_fails]
          exact (hI.measure y).2.1.wa_pos
        exact ⟨div_nonneg h_pos.le (by norm_num),
          not_lt.mp fun h_above => h_raises ⟨h_fails, h_guard, h_above⟩⟩
      · exact ⟨h_nonneg, h_le⟩
    · -- only a failure raises the limit
      rw [call_of_not_fails h_fails, (Steers.steer _).wamin, (measure_limits s y).1]
      exact ⟨h_nonneg, h_le⟩
  | init => exact ⟨le_rfl, by show (0 : ℚ) ≤ 1 / 10; norm_num⟩
  | reset => exact h_ordered
  | poll =>
    show Ordered (if 5 ≤ s.st then { s with b := s.b + s.c } else s)
    split
    · exact h_ordered
    · exact h_ordered

end

/-- **The limits in order.** The lower limit on the ratio is between 0 and the upper limit after
every call of a run if and only if no call raises it from a ratio above `.8 * wamax`. -/
theorem wamin_le_wamax_iff (calls : List Call) :
    (∀ cs, cs <+: calls → Ordered (run cs)) ↔
      ∀ cs c, cs ++ [c] <+: calls → ¬ Raises (run cs) c := by
  constructor
  · intro h_ordered cs c h_prefix h_raises
    have h_after := h_ordered _ h_prefix
    rw [run_append] at h_after
    exact not_ordered_of_raises h_raises h_after
  · intro h_raises cs h_prefix
    induction cs using List.reverseRecOn with
    | nil => exact ⟨le_rfl, by show (0 : ℚ) ≤ 1 / 10; norm_num⟩
    | append_singleton cs c ih =>
      rw [run_append]
      have h_before := ih ((List.prefix_append cs [c]).trans h_prefix)
      exact h_before.call (inv_run cs).1 (h_raises cs c h_prefix)

/-- A small alternating error that takes the loop to state 4, and then a constant one. -/
def excursion : List Call :=
  .reset ::
    (List.range 30).map (fun i => .math (if i % 2 = 0 then 1 / 1000000 else -1 / 1000000)) ++
      List.replicate 13 (.math (-1 / 10000))

/-- The loop fails in state 4 before the ratio is tightened. -/
theorem wamin_above_wamax : ¬ ∀ calls, Ordered (run calls) := by
  intro h
  have h_raised : (run excursion).wamin = 1 / 8 ∧ (run excursion).wamax = 1 / 10 := by
    decide +kernel
  obtain ⟨-, h_le⟩ := h excursion
  rw [h_raised.1, h_raised.2] at h_le
  exact absurd h_le (by norm_num)

end Pll

end Laureline
