import Laureline.Gps.Feed
import Mathlib.Algebra.Ring.Int.Defs
import Mathlib.Algebra.Ring.Nat

/-!
# Quantisation corrections

The receiver announces the error of the next pulse, and `vtimer.c` keeps two corrections: one
for the pulse that comes next and one that is deferred until that pulse has been used. They
move on when a pulse is used, so a pulse that is missed leaves its correction for the pulse
after it, and the correction of that one is overwritten.

Corrections are of any type with a zero. A run is a `Pattern`, the seconds in which a pulse is
captured and a message arrives, and the corrections that the messages announce.

* `state_map` — the registers hold announced corrections, each with the pulse it is for;
* `Labels` — which one they hold, in terms of the pattern;
* `added_iff` — the correction of a pulse is its own if and only if `Due` holds there;
* `due_of_captured` — as it does until a pulse is missed.
-/

namespace Laureline

open Gps

variable {α : Type*}

/-- The variables of `vtimer.c` for corrections. -/
structure Quant (α : Type*) where
  /-- `quant_corr`. -/
  quantCorr : α
  /-- `quant_corr_deferred`. -/
  quantCorrDeferred : α
  /-- `STATUS_USED_QUANT`. -/
  usedQuant : Bool
deriving DecidableEq

namespace Quant

variable [Zero α] [DecidableEq α]

/-- `vtimer_start`. -/
def start : Quant α := ⟨0, 0, false⟩

/-- `vtimer_set_correction`. -/
def setCorrection (q : Quant α) (corr : α) : Leadlag → Quant α
  | .leading => { q with quantCorrDeferred := corr }
  | .lagging => { q with quantCorr := corr, quantCorrDeferred := 0 }

/-- What `vtimer_get_frac_delta` does to them, and the correction that it adds. -/
def getFracDelta (q : Quant α) : α × Quant α :=
  (q.quantCorr,
    { quantCorr := q.quantCorrDeferred
      quantCorrDeferred := 0
      usedQuant := q.quantCorr ≠ 0 })

/-- One second: a message, if there is one, and then the pulse, if it was captured. -/
def second (q : Quant α) (captured : Bool) (message : Option α) : Option α × Quant α :=
  let q := message.elim q fun corr => q.setCorrection corr .leading
  if captured then (some q.getFracDelta.1, q.getFracDelta.2) else (none, q)

end Quant

/-- What happens in each second. -/
structure Pattern where
  /-- The pulse is captured. -/
  captured : ℕ → Bool
  /-- The correction of the next pulse is announced. -/
  announced : ℕ → Bool

namespace Pattern

section Run

variable [Zero α] [DecidableEq α] (p : Pattern) (c : ℕ → α)

/-- The message of a second. -/
def message (k : ℕ) : Option α := if p.announced k then some (c (k + 1)) else none

/-- The registers when a second begins. -/
def state : ℕ → Quant α
  | 0 => .start
  | k + 1 => ((state k).second (p.captured k) (p.message c k)).2

/-- The correction that is added to a pulse, if it is captured. -/
def added (k : ℕ) : Option α := ((p.state c k).second (p.captured k) (p.message c k)).1

/-- The correction that belongs to a pulse. -/
def expected : ℕ → α
  | 0 => 0
  | k + 1 => if p.announced k then c (k + 1) else 0

end Run

/-- The next pulse gets its own correction: it was announced and the pulse before it was
captured; or it was not, and every message up to the last pulse was used up by a pulse before
that one. -/
def Due (p : Pattern) (k : ℕ) : Prop :=
  if p.announced k then p.captured k = true
  else ∀ j ≤ k, p.captured j = true → (∀ i, j < i → i ≤ k → p.captured i = false) →
    ∀ m ≤ j, p.announced m = true → ∃ i, m ≤ i ∧ i < j ∧ p.captured i = true

section Run

variable [Zero α] [DecidableEq α] (p : Pattern) (c : ℕ → α) (k : ℕ)

theorem added_eq :
    p.added c k = if p.captured k then some (p.state c k).quantCorr else none := by
  rw [added, Quant.second]
  cases p.captured k with
  | false => rfl
  | true => cases p.message c k <;> rfl

/-- The deferred correction once the message of a second has arrived. -/
def deferred : α := if p.announced k then c (k + 1) else (p.state c k).quantCorrDeferred

theorem state_succ :
    (p.state c (k + 1)).quantCorr =
        (if p.captured k then p.deferred c k else (p.state c k).quantCorr) ∧
      (p.state c (k + 1)).quantCorrDeferred = (if p.captured k then 0 else p.deferred c k) := by
  rw [state, Quant.second, message, deferred]
  cases p.captured k <;> cases p.announced k <;> exact ⟨rfl, rfl⟩

/-- **Labels.** A register holds the correction of the pulse that it holds in the run in which
every correction is the number of its pulse. -/
theorem state_map {c : ℕ → α} (h_zero : c 0 = 0) :
    (p.state c k).quantCorr = c (p.state id k).quantCorr ∧
      (p.state c k).quantCorrDeferred = c (p.state id k).quantCorrDeferred := by
  induction k with
  | zero => exact ⟨h_zero.symm, h_zero.symm⟩
  | succ k ih =>
    obtain ⟨h_corr, h_deferred⟩ := ih
    have h_now : p.deferred c k = c (p.deferred id k) := by
      rw [deferred, deferred, h_deferred]
      split <;> rfl
    rw [(p.state_succ c k).1, (p.state_succ c k).2, (p.state_succ id k).1, (p.state_succ id k).2,
      h_now, h_corr]
    cases p.captured k with
    | false => exact ⟨rfl, rfl⟩
    | true => exact ⟨rfl, h_zero.symm⟩

/-- The correction of the first pulse is never announced. -/
theorem state_zero (c : ℕ → α) :
    p.state c k = p.state (fun n => if n = 0 then 0 else c n) k := by
  induction k with
  | zero => rfl
  | succ k ih =>
    have h_message : p.message c k = p.message (fun n => if n = 0 then 0 else c n) k := by
      simp only [message, Nat.succ_ne_zero, if_false]
    rw [state, state, ih, h_message]

end Run

/-! ### Which correction -/

/-- No pulse is captured in these seconds. -/
def Missed (p : Pattern) (m k : ℕ) : Prop := ∀ i, m ≤ i → i < k → p.captured i = false

/-- The last pulse before a second. -/
def Last (p : Pattern) (j k : ℕ) : Prop := j < k ∧ p.captured j = true ∧ p.Missed (j + 1) k

/-- What the registers hold when second `k` begins, as the number of the pulse that the
correction is for, or 0. -/
structure Labels (p : Pattern) (k : ℕ) (q : Quant ℕ) : Prop where
  /-- A message since the last pulse. -/
  deferred : q.quantCorrDeferred ≠ 0 → ∃ m < k,
    q.quantCorrDeferred = m + 1 ∧ p.announced m = true ∧ p.Missed m k
  /-- All messages were used up. -/
  no_deferred : q.quantCorrDeferred = 0 → ∀ m < k, p.announced m = true → ¬ p.Missed m k
  /-- A message between the last pulse and the one before it. -/
  corr : q.quantCorr ≠ 0 → ∃ m j, p.Last j k ∧ m ≤ j ∧
    q.quantCorr = m + 1 ∧ p.announced m = true ∧ p.Missed m j
  /-- All messages up to the last pulse were used up before it. -/
  no_corr : q.quantCorr = 0 → ∀ j, p.Last j k → ∀ m ≤ j, p.announced m = true → ¬ p.Missed m j

variable {p : Pattern} {k : ℕ}

theorem Missed.succ {m : ℕ} (h : p.Missed m k) (h_now : p.captured k = false) :
    p.Missed m (k + 1) := by
  intro i hi hi'
  rcases Nat.lt_succ_iff_lt_or_eq.mp hi' with hi' | rfl
  · exact h i hi hi'
  · exact h_now

theorem Missed.of_succ {m : ℕ} (h : p.Missed m (k + 1)) : p.Missed m k :=
  fun i hi hi' => h i hi (Nat.lt_succ_of_lt hi')

/-- The message of a second, or what was deferred before it. -/
theorem Labels.deferred_spec (h : p.Labels k (p.state id k)) :
    (p.deferred id k ≠ 0 → ∃ m ≤ k,
        p.deferred id k = m + 1 ∧ p.announced m = true ∧ p.Missed m k) ∧
      (p.deferred id k = 0 → ∀ m ≤ k, p.announced m = true → ¬ p.Missed m k) := by
  rw [Pattern.deferred]
  -- announced at this pulse, or earlier and still deferred
  by_cases h_now : p.announced k = true
  · rw [if_pos h_now]
    refine ⟨fun _ => ⟨k, le_rfl, rfl, h_now, fun i hi hi' => absurd hi' (not_lt.mpr hi)⟩, ?_⟩
    exact fun h_zero => absurd h_zero (Nat.succ_ne_zero k)
  · rw [if_neg h_now]
    constructor
    -- an earlier message has missed every pulse since
    · intro h_some
      obtain ⟨m, h_lt, h_rest⟩ := h.deferred h_some
      exact ⟨m, Nat.le_of_lt h_lt, h_rest⟩
    · intro h_none m h_le h_ann
      rcases Nat.lt_or_eq_of_le h_le with h_lt | rfl
      · exact h.no_deferred h_none m h_lt h_ann
      · exact absurd h_ann h_now

/-- **One second.** -/
theorem Labels.step (h : p.Labels k (p.state id k)) : p.Labels (k + 1) (p.state id (k + 1)) := by
  obtain ⟨h_corr, h_deferred⟩ := p.state_succ id k
  obtain ⟨h_some, h_none⟩ := h.deferred_spec
  by_cases h_now : p.captured k = true
  · -- the pulse is captured: the deferred correction moves on
    rw [if_pos h_now] at h_corr h_deferred
    have h_last : p.Last k (k + 1) :=
      ⟨Nat.lt_succ_self k, h_now, fun i hi hi' => absurd hi' (not_lt.mpr hi)⟩
    -- this pulse is the last captured one now, and the only one
    have h_only : ∀ j, p.Last j (k + 1) → j = k := by
      rintro j ⟨h_lt, -, h_missed⟩
      by_contra h_ne
      have h_false := h_missed k (by omega) (Nat.lt_succ_self k)
      exact absurd (h_now.symm.trans h_false) (by decide)
    refine ⟨fun h_ne => absurd h_deferred h_ne, fun _ m h_lt _ h_missed => ?_, ?_, ?_⟩
    · have h_false := h_missed k (by omega) (Nat.lt_succ_self k)
      exact absurd (h_now.symm.trans h_false) (by decide)
    · rw [h_corr]
      intro h_ne
      obtain ⟨m, h_le, h_rest⟩ := h_some h_ne
      exact ⟨m, k, h_last, h_le, h_rest⟩
    · rw [h_corr]
      intro h_zero j h_j m h_le
      obtain rfl := h_only j h_j
      exact h_none h_zero m h_le
  · -- the pulse is missed: only a message changes anything
    have h_off : p.captured k = false := Bool.eq_false_iff.mpr h_now
    rw [if_neg h_now] at h_corr h_deferred
    refine ⟨?_, ?_, ?_, ?_⟩
    · rw [h_deferred]
      intro h_ne
      obtain ⟨m, h_le, h_eq, h_ann, h_missed⟩ := h_some h_ne
      exact ⟨m, Nat.lt_succ_of_le h_le, h_eq, h_ann, h_missed.succ h_off⟩
    · rw [h_deferred]
      intro h_zero m h_lt h_ann h_missed
      exact h_none h_zero m (Nat.le_of_lt_succ h_lt) h_ann h_missed.of_succ
    · rw [h_corr]
      intro h_ne
      obtain ⟨m, j, ⟨h_lt, h_cap, h_gap⟩, h_rest⟩ := h.corr h_ne
      exact ⟨m, j, ⟨Nat.lt_succ_of_lt h_lt, h_cap, h_gap.succ h_off⟩, h_rest⟩
    -- the last captured pulse is the one it was
    · rw [h_corr]
      rintro h_zero j ⟨h_lt, h_cap, h_gap⟩
      have h_before : j < k := by
        rcases Nat.lt_succ_iff_lt_or_eq.mp h_lt with h_lt | rfl
        · exact h_lt
        · exact absurd h_cap h_now
      exact h.no_corr h_zero j ⟨h_before, h_cap, h_gap.of_succ⟩

/-- **Every second.** -/
theorem labels (p : Pattern) (k : ℕ) : p.Labels k (p.state id k) := by
  induction k with
  | zero =>
    exact ⟨fun h => absurd rfl h, fun _ m h => absurd h (Nat.not_lt_zero m),
      fun h => absurd rfl h, fun _ j h => absurd h.1 (Nat.not_lt_zero j)⟩
  | succ k ih => exact ih.step

/-- The label of the next pulse is its own number, or 0 without an announcement. -/
theorem label_iff (p : Pattern) (k : ℕ) :
    (p.state id (k + 1)).quantCorr = p.expected id (k + 1) ↔ p.Due k := by
  have h_labels := p.labels (k + 1)
  rw [expected, Due]
  by_cases h_ann : p.announced k = true
  · rw [if_pos h_ann, if_pos h_ann, (p.state_succ id k).1, deferred, if_pos h_ann]
    constructor
    · intro h_eq
      by_contra h_off
      rw [if_neg h_off] at h_eq
      -- what stayed in the register is older
      obtain ⟨m, j, ⟨h_lt, -⟩, h_le, h_num, -⟩ :=
        (p.labels k).corr (by rw [h_eq]; exact Nat.succ_ne_zero k)
      have h_same : m + 1 = k + 1 := h_num.symm.trans h_eq
      omega
    · intro h_on
      rw [if_pos h_on]
  · rw [if_neg h_ann, if_neg h_ann]
    constructor
    · intro h_zero j h_le h_cap h_gap m h_m h_msg
      by_contra h_none
      refine h_labels.no_corr h_zero j ⟨Nat.lt_succ_of_le h_le, h_cap, fun i hi hi' => ?_⟩ m h_m
        h_msg fun i hi hi' => ?_
      · exact h_gap i hi (Nat.le_of_lt_succ hi')
      · by_contra h_on
        exact h_none ⟨i, hi, hi', (Bool.not_eq_false _).mp h_on⟩
    · intro h_used
      by_contra h_ne
      obtain ⟨m, j, ⟨h_lt, h_cap, h_gap⟩, h_le, -, h_msg, h_missed⟩ := h_labels.corr h_ne
      obtain ⟨i, hi, hi', h_on⟩ := h_used j (Nat.le_of_lt_succ h_lt) h_cap
        (fun i hi hi' => h_gap i hi (Nat.lt_succ_of_le hi')) m h_le h_msg
      exact absurd ((h_missed i hi hi').symm.trans h_on) (by decide)

section Run

variable [Zero α] [DecidableEq α]

omit [DecidableEq α] in
/-- Different labels are different corrections in some run. -/
theorem exists_correction [Nontrivial α] {n n' : ℕ} (h : n ≠ n') :
    ∃ c : ℕ → α, c 0 = 0 ∧ c n ≠ c n' := by
  obtain ⟨x, hx⟩ := exists_ne (0 : α)
  by_cases h_zero : n = 0
  · refine ⟨fun i => if i = n' then x else 0, if_neg (fun h' => h (h_zero.trans h')), ?_⟩
    show (if n = n' then x else 0) ≠ (if n' = n' then x else 0)
    rw [if_neg h, if_pos rfl]
    exact hx.symm
  · refine ⟨fun i => if i = n then x else 0, if_neg (fun h' => h_zero h'.symm), ?_⟩
    show (if n = n then x else 0) ≠ (if n' = n then x else 0)
    rw [if_pos rfl, if_neg h.symm]
    exact hx

/-- **The correction of a pulse.** In every run, the correction that is added to a captured
pulse is its own, or 0 if none was announced, for whatever corrections, if and only if `Due`
holds at the second before it; to the first pulse, 0 is added. -/
theorem added_iff [Nontrivial α] (p : Pattern) :
    (∀ c : ℕ → α, p.added c 0 = if p.captured 0 then some (p.expected c 0) else none) ∧
    ∀ k, p.captured (k + 1) = true →
      ((∀ c : ℕ → α, p.added c (k + 1) = some (p.expected c (k + 1))) ↔ p.Due k) := by
  refine ⟨fun c => p.added_eq c 0, fun k h_cap => ?_⟩
  rw [← p.label_iff k]
  have h_added (c : ℕ → α) :
      p.added c (k + 1) = some (p.expected c (k + 1)) ↔
        (p.state c (k + 1)).quantCorr = p.expected c (k + 1) := by
    rw [added_eq, if_pos h_cap, Option.some_inj]
  have h_expected {c : ℕ → α} (h_zero : c 0 = 0) :
      p.expected c (k + 1) = c (p.expected id (k + 1)) := by
    rw [expected, expected]
    split
    · rfl
    · exact h_zero.symm
  simp only [h_added]
  constructor
  · intro h_all
    by_contra h_ne
    obtain ⟨c, h_zero, h_differ⟩ := exists_correction (α := α) h_ne
    have h_eq := h_all c
    rw [(p.state_map (k + 1) h_zero).1, h_expected h_zero] at h_eq
    exact h_differ h_eq
  · intro h_eq c
    have h_first : (fun n => if n = 0 then 0 else c n) 0 = 0 := if_pos rfl
    -- the correction of the first pulse is never announced, so it may be taken to be 0
    have h_same :
        p.expected c (k + 1) = p.expected (fun n => if n = 0 then 0 else c n) (k + 1) := by
      simp only [expected, Nat.succ_ne_zero, if_false]
    rw [state_zero, h_same]
    generalize (fun n => if n = 0 then 0 else c n) = c' at h_first ⊢
    rw [(p.state_map (k + 1) h_first).1, h_eq, h_expected h_first]

end Run

/-- As long as no pulse is missed, the corrections are right. -/
theorem due_of_captured (h : ∀ i ≤ k, p.captured i = true) : p.Due k := by
  rw [Due]
  split
  · exact h k le_rfl
  · next h_ann =>
    intro j h_le h_cap h_gap m h_m h_msg
    have h_now : j = k := by
      by_contra h_ne
      exact absurd ((h_gap k (by omega) le_rfl).symm.trans (h k le_rfl)) (by decide)
    subst h_now
    rcases Nat.lt_or_eq_of_le h_m with h_lt | rfl
    · exact ⟨m, le_rfl, h_lt, h m h_m⟩
    · exact absurd h_msg h_ann

/-- A message in every second, and one pulse that is missed. -/
def missing (n : ℕ) : Pattern := ⟨fun k => k != n, fun _ => true⟩

/-- Before it is, the corrections are right. -/
theorem added_iff_missing : (missing 7).added (fun k => (k : ℤ)) 1 = some 1 :=
  ((added_iff (missing 7)).2 0 rfl).mpr rfl _

/-- The pulse after the one that is missed gets the correction of that one. -/
theorem added_after_missed :
    ¬ ∀ (p : Pattern) (c : ℕ → ℤ) (k : ℕ), p.captured k = true →
      p.added c k = some (p.expected c k) := by
  intro h_all
  exact absurd (h_all (missing 1) (fun k => k) 2 rfl) (by decide)

end Pattern

end Laureline
