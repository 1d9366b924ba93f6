import Laureline.Pll.Math

/-!
# The averages of the phase-locked loop

`my`, `sdy` and `say` move by a part `1 / j` of the distance to each new sample, with a `j` that
follows the limit `mj`, and start again from 0. The samples since then are a history variable
(`Seen`).

* `Steers` — what the part of `pll_math` behind the measurement leaves alone;
* `Inv.measure` — the measurement: `j` is positive, and the averages stay between the extremes;
* `Inv.call` — every call;
* `pll_math_bounds` — every sequence of calls.
-/

namespace Laureline

namespace Pll

open Binary64 Average

/-- The divisors of `pll_math(y)` that are not constants, in the order of the source. -/
def State.divisors (s : State) (y : ℚ) : List ℚ :=
  let t := s.measure y
  [(t.j : ℚ), (t.j : ℚ), (t.j : ℚ)] ++ (if 4 ≤ t.st then [t.wa] else []) ++
    (if t.st = 1 ∧ t.dl < 0 then [t.wa] else [])

/-- The samples since the last restart, newest first. -/
structure Seen where
  ys : List ℚ
  dys : List ℚ
  ays : List ℚ

/-- The samples with those of a call. -/
def Seen.call (h : Seen) (s : State) : Call → Seen
  | .math y =>
    let h := if s.restarts then ⟨[], [], []⟩ else h
    let t := s.measure y
    ⟨t.y :: h.ys, |t.dy| :: h.dys, t.ay :: h.ays⟩
  | _ => h

/-- The samples of a run. -/
def seen (calls : List Call) : Seen :=
  (calls.foldl (fun p c => (State.call p.1 c, p.2.call p.1 c))
    (powerUp.initPllmath, ⟨[], [], []⟩)).2

theorem run_append (calls : List Call) (c : Call) : run (calls ++ [c]) = (run calls).call c := by
  rw [run, List.foldl_append]
  rfl

theorem seen_append (calls : List Call) (c : Call) :
    seen (calls ++ [c]) = (seen calls).call (run calls) c := by
  have h_fst (p : State × Seen) :
      (calls.foldl (fun p c => (State.call p.1 c, p.2.call p.1 c)) p).1 =
        calls.foldl State.call p.1 := by
    induction calls generalizing p with
    | nil => rfl
    | cons d calls ih => exact ih _
  rw [seen, List.foldl_append, List.foldl_cons, List.foldl_nil, h_fst]
  rfl

/-! ### Behind the measurement -/

/-- The ratio and the limit of `j` are in their ranges. -/
structure State.Tuned (s : State) : Prop where
  wa_pos : 0 < s.wa
  wa_le : s.wa ≤ s.wa0
  le_mj : s.mj0 ≤ s.mj

/-- What stays, and what is kept. -/
structure Steers (s t : State) : Prop where
  my : t.my = s.my
  sdy : t.sdy = s.sdy
  say : t.say = s.say
  mj0 : t.mj0 = s.mj0
  wa0 : t.wa0 = s.wa0
  wamin : t.wamin = s.wamin
  wamax : t.wamax = s.wamax
  tuned : 0 ≤ s.mj0 → s.Tuned → t.Tuned

section
variable {s t u : State}

theorem Steers.refl (s : State) : Steers s s := ⟨rfl, rfl, rfl, rfl, rfl, rfl, rfl, fun _ h => h⟩

theorem Steers.trans (h : Steers s t) (h' : Steers t u) : Steers s u :=
  ⟨h'.my.trans h.my, h'.sdy.trans h.sdy, h'.say.trans h.say, h'.mj0.trans h.mj0,
    h'.wa0.trans h.wa0, h'.wamin.trans h.wamin, h'.wamax.trans h.wamax,
    fun h_mj0 h_tuned => h'.tuned (h.mj0.symm ▸ h_mj0) (h.tuned h_mj0 h_tuned)⟩

/-- The timer, the state and the flags are free. -/
theorem Steers.timer (s : State) (dl : ℤ) (st : ℕ) (sysAble : UInt32) :
    Steers s { s with dl, st, sysAble } :=
  ⟨rfl, rfl, rfl, rfl, rfl, rfl, rfl, fun _ h => ⟨h.wa_pos, h.wa_le, h.le_mj⟩⟩

theorem Steers.squeeze (s : State) : Steers s s.squeeze := by
  unfold State.squeeze
  split
  · refine ⟨rfl, rfl, rfl, rfl, rfl, rfl, rfl, fun h_mj0 h => ?_⟩
    obtain ⟨h_pos, h_le, h_mj⟩ := h
    refine ⟨?_, ?_, ?_⟩
    · show 0 < s.wa * (9 / 10)
      linarith
    · show s.wa * (9 / 10) ≤ s.wa0
      linarith
    · show s.mj0 ≤ s.mj / (4 / 5)
      linarith
  · exact .timer s _ _ _

theorem Steers.stretch (s : State) : Steers s s.stretch := by
  unfold State.stretch
  split
  · exact .timer s _ _ _
  · exact .refl s

theorem Steers.third (s : State) : Steers s s.third := by
  unfold State.third
  split
  · exact .timer s _ _ _
  · exact .refl s

theorem Steers.tighten (s : State) : Steers s s.tighten := by
  unfold State.tighten
  split
  · exact (Steers.squeeze s).trans (.stretch _)
  · exact .refl s

theorem Steers.advance (s : State) : Steers s s.advance := by
  unfold State.advance
  split_ifs
  · exact .timer s _ _ _
  · exact .timer s _ _ _
  · exact .timer s _ _ _
  · exact (Steers.third s).trans (.tighten _)

theorem Steers.steer (s : State) : Steers s s.steer := by
  have h_wait : Steers s s.wait := by
    unfold State.wait
    split
    · exact .timer s _ _ _
    · exact .refl s
  unfold State.steer
  split
  · exact h_wait
  · exact h_wait.trans (.advance _)

end

/-! ### The measurement -/

/-- The averages lie between the extremes of what they have seen. -/
structure Averaged (s : State) (h : Seen) : Prop where
  lowest_le : lowest h.ys ≤ s.my
  le_highest : s.my ≤ highest h.ys
  sdy_nonneg : 0 ≤ s.sdy
  sdy_le : s.sdy ≤ highest h.dys
  say_nonneg : 0 ≤ s.say
  say_le : s.say ≤ highest h.ays

/-- After every call. -/
structure Inv (s : State) (h : Seen) : Prop where
  mj0 : s.mj0 = 8
  wa0 : s.wa0 = 1 / 10
  wamax : s.wamax = 1 / 10
  tuned : s.st ≠ 0 → s.Tuned
  averaged : Averaged s h

/-- The averages of one more sample. -/
theorem Averaged.average {s : State} {h : Seen} (h_avg : Averaged s h) (h_tuned : s.Tuned)
    (h_mj0 : 0 < s.mj0) :
    0 < s.average.j ∧
      Averaged s.average
        ⟨s.average.y :: h.ys, |s.average.dy| :: h.dys, s.average.ay :: h.ays⟩ := by
  have h_pos : 0 < s.average.j := by
    show 0 < if s.j < s.mj then s.j + 1 else s.j
    split
    · exact Nat.succ_pos _
    · next h_j =>
      -- `j` has reached the limit, which is positive
      have h_le : s.mj ≤ s.j := not_lt.mp h_j
      have h_cast : (0 : ℚ) < s.j := (h_mj0.trans_le h_tuned.le_mj).trans_le h_le
      exact_mod_cast h_cast
  obtain ⟨h_lo, h_hi⟩ := approach_mem h_pos h_avg.lowest_le h_avg.le_highest s.y
  obtain ⟨h_sdy, h_sdy'⟩ :=
    approach_nonneg_le h_pos h_avg.sdy_nonneg h_avg.sdy_le (abs_nonneg s.average.dy)
  obtain ⟨h_say, h_say'⟩ :=
    approach_nonneg_le h_pos h_avg.say_nonneg h_avg.say_le (abs_nonneg (s.average.dy - s.dy))
  exact ⟨h_pos, h_lo, h_hi, h_sdy, h_sdy', h_say, h_say'⟩

/-- **The measurement.** -/
theorem Inv.measure {s : State} {h : Seen} (hI : Inv s h) (y : ℚ) :
    0 < (s.measure y).j ∧ (s.measure y).Tuned ∧ Inv (s.measure y) (h.call s (.math y)) := by
  obtain ⟨h_mj0, h_wa0, h_wamax, h_tuned, h_avg⟩ := hI
  -- the state at the start of the averages, and what has been seen then
  have h_start : ∃ s' : State, s.measure y = s'.average.correct ∧ s'.Tuned ∧ s'.mj0 = 8 ∧
      s'.wa0 = 1 / 10 ∧ s'.wamax = 1 / 10 ∧
      Averaged s' (if s.restarts then ⟨[], [], []⟩ else h) := by
    by_cases h_restart : s.restarts
    · -- a restart forgets the samples, and its averages are 0
      refine ⟨State.restart { s with y := -y }, congrArg (State.correct ∘ State.average)
        (if_pos h_restart), ⟨?_, le_rfl, le_rfl⟩, h_mj0, h_wa0, h_wamax, ?_⟩
      · show 0 < s.wa0
        rw [h_wa0]
        norm_num
      · rw [if_pos h_restart]
        exact ⟨le_rfl, le_rfl, le_rfl, le_rfl, le_rfl, le_rfl⟩
    · have h_st : s.st ≠ 0 := fun h_st => h_restart (Or.inl h_st)
      obtain ⟨h_pos, h_le, h_mj⟩ := h_tuned h_st
      obtain ⟨h_1, h_2, h_3, h_4, h_5, h_6⟩ := h_avg
      refine ⟨{ s with y := -y }, congrArg (State.correct ∘ State.average) (if_neg h_restart),
        ⟨h_pos, h_le, h_mj⟩, h_mj0, h_wa0, h_wamax, ?_⟩
      rw [if_neg h_restart]
      exact ⟨h_1, h_2, h_3, h_4, h_5, h_6⟩
  obtain ⟨s', h_eq, h_tuned', h_mj0', h_wa0', h_wamax', h_avg'⟩ := h_start
  obtain ⟨h_j, h_new⟩ := h_avg'.average h_tuned' (by rw [h_mj0']; norm_num)
  obtain ⟨h_1, h_2, h_3, h_4, h_5, h_6⟩ := h_new
  have h_after : (s'.average.correct).Tuned := ⟨h_tuned'.wa_pos, h_tuned'.wa_le, h_tuned'.le_mj⟩
  rw [Seen.call, h_eq]
  exact ⟨h_j, h_after, h_mj0', h_wa0', h_wamax', fun _ => h_after, h_1, h_2, h_3, h_4, h_5, h_6⟩

theorem Averaged.steers {s t : State} {h : Seen} (h_avg : Averaged s h) (h_steers : Steers s t) :
    Averaged t h := by
  obtain ⟨h_my, h_sdy, h_say, -⟩ := h_steers
  obtain ⟨h_1, h_2, h_3, h_4, h_5, h_6⟩ := h_avg
  constructor <;> first | rw [h_my]; assumption | rw [h_sdy]; assumption | rw [h_say]; assumption

/-- The samples do not matter to the rest of `pll_math`. -/
theorem Inv.steers {s t : State} {h : Seen} (hI : Inv s h) (h_tuned : s.Tuned)
    (h_steers : Steers s t) : t.Tuned ∧ Inv t h := by
  have h_mj0 : 0 ≤ s.mj0 := by rw [hI.mj0]; norm_num
  have h_tuned' := h_steers.tuned h_mj0 h_tuned
  exact ⟨h_tuned', h_steers.mj0.trans hI.mj0, h_steers.wa0.trans hI.wa0,
    h_steers.wamax.trans hI.wamax, fun _ => h_tuned', hI.averaged.steers h_steers⟩

theorem Inv.loosen {s : State} {h : Seen} (hI : Inv s h) (h_tuned : s.Tuned) :
    s.loosen.Tuned ∧ Inv s.loosen h := by
  obtain ⟨h_1, h_2, h_3, h_4, h_5, h_6⟩ := hI.averaged
  exact ⟨⟨h_tuned.wa_pos, h_tuned.wa_le, h_tuned.le_mj⟩, hI.mj0, hI.wa0, hI.wamax,
    fun h_st => absurd rfl h_st, h_1, h_2, h_3, h_4, h_5, h_6⟩

/-- **A call of `pll_math`.** -/
theorem Inv.math {s : State} {h : Seen} (hI : Inv s h) (y : ℚ) :
    (s.call (.math y)).Tuned ∧ Inv (s.call (.math y)) (h.call s (.math y)) := by
  obtain ⟨-, h_tuned, h_measure⟩ := hI.measure y
  show (if (s.measure y).fails then (s.measure y).loosen else (s.measure y).steer).Tuned ∧
    Inv (if (s.measure y).fails then (s.measure y).loosen else (s.measure y).steer) _
  split
  · exact h_measure.loosen h_tuned
  · exact h_measure.steers h_tuned (.steer _)

/-- **Every call.** -/
theorem Inv.call {s : State} {h : Seen} (hI : Inv s h) (c : Call) :
    Inv (s.call c) (h.call s c) ∧ (s.Tuned → (s.call c).Tuned) := by
  have hI' := hI
  obtain ⟨h_mj0, h_wa0, h_wamax, h_tuned, h_1, h_2, h_3, h_4, h_5, h_6⟩ := hI'
  cases c with
  | math y =>
    obtain ⟨h_tuned', hI'⟩ := Inv.math hI y
    exact ⟨hI', fun _ => h_tuned'⟩
  | init =>
    -- `init_pllmath` leaves the state machine and the averages as they are
    have h_kept (h_old : s.Tuned) : s.initPllmath.Tuned :=
      ⟨h_old.wa_pos, h_old.wa_le.trans_eq h_wa0, h_mj0.symm.trans_le h_old.le_mj⟩
    exact ⟨⟨rfl, rfl, rfl, fun h_st => h_kept (h_tuned h_st), h_1, h_2, h_3, h_4, h_5, h_6⟩, h_kept⟩
  | reset =>
    -- `st` is 0: the next call of `pll_math` restarts
    exact ⟨⟨h_mj0, h_wa0, h_wamax, fun h_st => absurd rfl h_st, h_1, h_2, h_3, h_4, h_5, h_6⟩,
      fun h_old => ⟨h_old.wa_pos, h_old.wa_le, h_old.le_mj⟩⟩
  | poll =>
    show Inv (if 5 ≤ s.st then { s with b := s.b + s.c } else s) h ∧
      (s.Tuned → (if 5 ≤ s.st then { s with b := s.b + s.c } else s).Tuned)
    split
    · have h_kept (h_old : s.Tuned) : State.Tuned { s with b := s.b + s.c } :=
        ⟨h_old.wa_pos, h_old.wa_le, h_old.le_mj⟩
      exact ⟨⟨h_mj0, h_wa0, h_wamax, fun h_st => h_kept (h_tuned h_st), h_1, h_2, h_3, h_4, h_5,
        h_6⟩, h_kept⟩
    · exact ⟨hI, fun h_old => h_old⟩

/-- **Runs.** -/
theorem inv_run (calls : List Call) :
    Inv (run calls) (seen calls) ∧ ((∃ y, Call.math y ∈ calls) → (run calls).Tuned) := by
  induction calls using List.reverseRecOn with
  | nil =>
    refine ⟨⟨rfl, rfl, rfl, fun h_st => absurd rfl h_st, ?_⟩, fun ⟨y, hy⟩ => absurd hy (by simp)⟩
    exact ⟨le_rfl, le_rfl, le_rfl, le_rfl, le_rfl, le_rfl⟩
  | append_singleton calls c ih =>
    obtain ⟨hI, h_tuned⟩ := ih
    rw [run_append, seen_append]
    refine ⟨(hI.call c).1, fun ⟨y, hy⟩ => ?_⟩
    rcases List.mem_append.mp hy with hy | hy
    · exact (hI.call c).2 (h_tuned ⟨y, hy⟩)
    · rw [← List.mem_singleton.mp hy]
      exact (hI.math y).1

/-- The divisors of the next call. -/
theorem Inv.divisors_pos {s : State} {h : Seen} (hI : Inv s h) (y : ℚ) :
    ∀ d ∈ s.divisors y, 0 < d := by
  obtain ⟨h_j, h_tuned, -⟩ := hI.measure y
  have h_cast : (0 : ℚ) < (s.measure y).j := by exact_mod_cast h_j
  intro d hd
  have h_or : d = (s.measure y).j ∨ d = (s.measure y).wa := by
    unfold State.divisors at hd
    grind
  rcases h_or with rfl | rfl
  · exact h_cast
  · exact h_tuned.wa_pos

/-- **Every sequence of calls.** Every divisor is positive where it is used; from the first call of
`pll_math` on the ratio and the limit of `j` are in their ranges; and the averages lie between the
extremes of the samples since the last restart. -/
theorem pll_math_bounds (calls : List Call) :
    (∀ y, ∀ d ∈ (run calls).divisors y, 0 < d) ∧
      ((∃ y, Call.math y ∈ calls) →
        0 < (run calls).wa ∧ (run calls).wa ≤ (run calls).wa0 ∧
          (run calls).mj0 ≤ (run calls).mj) ∧
      (lowest (seen calls).ys ≤ (run calls).my ∧ (run calls).my ≤ highest (seen calls).ys) ∧
      (0 ≤ (run calls).sdy ∧ (run calls).sdy ≤ highest (seen calls).dys) ∧
      0 ≤ (run calls).say ∧ (run calls).say ≤ highest (seen calls).ays := by
  obtain ⟨hI, h_tuned⟩ := inv_run calls
  refine ⟨hI.divisors_pos, fun h_math => ?_, ⟨hI.averaged.lowest_le, hI.averaged.le_highest⟩,
    ⟨hI.averaged.sdy_nonneg, hI.averaged.sdy_le⟩, hI.averaged.say_nonneg, hI.averaged.say_le⟩
  exact ⟨(h_tuned h_math).wa_pos, (h_tuned h_math).wa_le, (h_tuned h_math).le_mj⟩

end Pll

end Laureline
