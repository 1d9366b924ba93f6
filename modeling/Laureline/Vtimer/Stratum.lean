import Laureline.Vtimer.Thread
import Laureline.Vtimer.TimeOfDay

/-!
# What stratum 1 vouches for

A reply has stratum 1 if `STATUS_TOD_OK` and `STATUS_PLL_OK` are both set when
`ntp_recv` looks at them. The flags are set and cleared in several places of the
loop, and `ntp_recv` can look whenever the clock thread is blocked.

* `ClockInv`: once `STATUS_TOD_OK` is set, the clock has been compared with a
  received time of day, and stepped to it if it was different, except at the one
  place between the flag and the step, where the thread does not block. This needs
  steps that are defined (`Near`): a difference that does not fit an `int32_t` is
  scaled out of the range of `int64_t`.
* `LockInv`: where the thread sleeps with `STATUS_PLL_OK` set, its flag checks have
  found a capture, or one that was recent enough. The check is a difference of
  32-bit tick counts; it is the real age (`sincePps_eq`) because the age at the
  last check was below the limit.
* `stratum_vouched` is the statement about every reply of every run, and
  `stratum_unstepped` a run with an undefined step: the first one after power-up.
-/

namespace Laureline
namespace Thread

/-- The clock was compared with a received time of day and, if its seconds were
different, stepped to it: its seconds were set and its fraction was kept. -/
def Compared.Sound (c : Compared) : Prop :=
  c.received ≠ 0 ∧ (c.received = c.before / 2 ^ 32 ∨ ∃ after, c.stepped = some after ∧
    after / 2 ^ 32 = c.received ∧ after % 2 ^ 32 = c.before % 2 ^ 32)

/-- A step to the received time of day is by a signed 32-bit number of seconds. -/
def Near (s : State) : Action → Prop
  | .run _ => s.pc = .apply → ∀ c ∈ s.compared,
      -2 ^ 31 ≤ (c.received : ℤ) - (s.clock.vtLast / 2 ^ 32 : ℕ) ∧
        (c.received : ℤ) - (s.clock.vtLast / 2 ^ 32 : ℕ) < 2 ^ 31
  | _ => True

instance (s : State) : ∀ a, Decidable (Near s a)
  | .run _ => inferInstanceAs (Decidable (s.pc = .apply → ∀ c ∈ s.compared,
      -2 ^ 31 ≤ (c.received : ℤ) - (s.clock.vtLast / 2 ^ 32 : ℕ) ∧
        (c.received : ℤ) - (s.clock.vtLast / 2 ^ 32 : ℕ) < 2 ^ 31))
  | .tick | .setTime _ | .stratum | .stamp _ => inferInstanceAs (Decidable True)

/-- The last iteration processed a capture, or found at its flag checks that one was
processed less than `holdover` seconds before. -/
def History.Fresh (holdover : ℕ) (h : History) : Prop :=
  h.outcome = some .capture ∨
    ∃ age, h.outcome = some (.missing (some age)) ∧ age < 100 * holdover

/-- The PLL was locked at the flag check of the last capture. -/
def History.Locked (h : History) : Prop := ∃ st, h.st = some st ∧ 3 ≤ st

/-! ### The comparison with a time of day -/

@[simp] theorem updateI_utcNext (v : Vtimer) (mono : ℕ) :
    (v.updateI mono).utcNext = v.utcNext := by simp only [Vtimer.updateI]

theorem kernFreqOr_utcNext (v : Vtimer) (f : Double) (other : ℕ) :
    (v.kernFreqOr f other).utcNext = v.utcNext := by
  unfold Vtimer.kernFreqOr
  cases h : v.kernFreq f with
  | none => rfl
  | some v' =>
    unfold Vtimer.kernFreq at h
    dsimp only at h
    split at h
    · obtain ⟨n, -, rfl⟩ := Option.map_eq_some_iff.mp h
      rfl
    · exact absurd h (by simp)

theorem stepBaseOr_utcNext (v : Vtimer) (dd : Double) (other : ℤ) :
    (v.stepBaseOr dd other).utcNext = v.utcNext := by
  cases dd with
  | fin q =>
    dsimp only [Vtimer.stepBaseOr]
    cases h : v.stepBase q with
    | none => rfl
    | some v' =>
      obtain ⟨n, -, rfl⟩ := Option.map_eq_some_iff.mp h
      rfl
  | _ => rfl

/-- **The invariant of the clock.** -/
structure ClockInv (s : State) : Prop where
  utcNext : s.clock.utcNext < 2 ^ 32
  compared : s.status.todOk → s.compared.isSome
  sound : s.pc ≠ .apply → ∀ c, s.compared = some c → c.Sound
  /-- Between the flag and the step. -/
  apply : s.pc = .apply → ∀ c, s.compared = some c →
    c.received ≠ 0 ∧ c.received < 2 ^ 32 ∧ c.before < 2 ^ 64 ∧ s.clock.vtLast = c.before ∧
      s.tmps = (c.received : ℤ) - (c.before / 2 ^ 32 : ℕ)

/-- Two pieces of the loop are about the time of day. -/
theorem run_otherwise (holdover : ℕ) {s : State} {i : Inputs} (h_freq : s.pc ≠ .freq)
    (h_apply : s.pc ≠ .apply) :
    (s.run holdover i).compared = s.compared ∧
      (s.run holdover i).status.todOk = s.status.todOk ∧
      (s.run holdover i).clock.utcNext = s.clock.utcNext ∧ (s.run holdover i).pc ≠ .apply := by
  unfold State.run
  cases h_pc : s.pc with
  | freq => exact absurd h_pc h_freq
  | apply => exact absurd h_pc h_apply
  | top => dsimp only; split <;> [split <;> [split; split]; skip] <;> simp
  | steps => dsimp only; split <;> [split; skip] <;> simp [stepBaseOr_utcNext]
  | seen | gone | hold | report | correct | stats => dsimp only; split <;> simp
  | _ => simp

theorem ClockInv.run_freq {holdover : ℕ} {s : State} {i : Inputs} (h : ClockInv s)
    (h_pc : s.pc = .freq) : ClockInv (s.run holdover i) := by
  obtain ⟨h_utc, h_compared, h_sound, -⟩ := h
  have h_same : ((s.clock.kernFreqOr i.ppb i.otherRate).updateI i.mono).utcNext =
      s.clock.utcNext := by
    rw [updateI_utcNext, kernFreqOr_utcNext]
  have h_last : ((s.clock.kernFreqOr i.ppb i.otherRate).updateI i.mono).vtLast < 2 ^ 64 := by
    rw [Vtimer.updateI_vtLast]; exact Vtimer.getI_lt _ _
  have h_old := h_sound (by rw [h_pc]; decide)
  unfold State.run
  simp only [h_pc]
  generalize (s.clock.kernFreqOr i.ppb i.otherRate).updateI i.mono = v at h_same h_last
  split
  · next h_some =>
    -- a time of day has come: the seconds are equal, or the step is still to be made
    rw [h_same] at h_some
    refine ⟨by simp, fun _ => rfl, fun h_ne c hc => ?_, fun h_apply c hc => ?_⟩
    · obtain rfl := Option.some.inj hc
      refine ⟨by simpa [h_same] using h_some, Or.inl ?_⟩
      dsimp only at h_ne ⊢
      by_contra h_diff
      exact h_ne (if_pos (by omega))
    · obtain rfl := Option.some.inj hc
      exact ⟨by simpa [h_same] using h_some, by rw [h_same]; exact h_utc, h_last, rfl, rfl⟩
  · exact ⟨by rw [h_same]; exact h_utc, h_compared, fun _ => h_old,
      fun h_apply => absurd h_apply (by simp)⟩

/-- The step sets the seconds and keeps the fraction. -/
theorem ClockInv.run_apply {holdover : ℕ} {s : State} {i : Inputs} (h : ClockInv s)
    (h_near : Near s (.run i)) (h_pc : s.pc = .apply) : ClockInv (s.run holdover i) := by
  obtain ⟨h_utc, h_compared, -, h_step⟩ := h
  unfold State.run
  simp only [h_pc]
  refine ⟨?_, fun h_tod => ?_, fun _ c hc => ?_, fun h_apply => absurd h_apply (by simp)⟩
  · rw [updateI_utcNext, stepBaseOr_utcNext]; exact h_utc
  · simpa using h_compared h_tod
  · obtain ⟨c, h_c, rfl⟩ := Option.map_eq_some_iff.mp hc
    obtain ⟨h_ne, h_received, h_before, h_base, h_tmps⟩ := h_step h_pc c h_c
    obtain ⟨h_low, h_high⟩ := h_near h_pc c h_c
    rw [h_base] at h_low h_high
    refine ⟨h_ne, Or.inr ⟨_, rfl, ?_⟩⟩
    -- in range, the step is exact
    dsimp only
    have h_eq : s.clock.stepBase (Binary64.round s.tmps) =
        some { s.clock with vtLast := u64 (s.clock.vtLast + s.tmps * 2 ^ 32) } := by
      rw [Vtimer.stepBase_seconds _ (by rw [abs_lt]; omega), if_pos (by omega)]
    have h_sum := u64_of_range (x := s.clock.vtLast + s.tmps * 2 ^ 32) (by omega) (by omega)
    simp only [Vtimer.stepBaseOr, h_eq, Option.getD_some]
    omega

/-- **One piece of the loop.** -/
theorem ClockInv.run {holdover : ℕ} {s : State} {i : Inputs} (h : ClockInv s)
    (h_near : Near s (.run i)) : ClockInv (s.run holdover i) := by
  by_cases h_freq : s.pc = .freq
  · exact h.run_freq h_freq
  by_cases h_apply : s.pc = .apply
  · exact h.run_apply h_near h_apply
  -- everywhere else the comparison stays as it is
  obtain ⟨h_compared, h_tod, h_utc, h_pc⟩ := run_otherwise holdover (i := i) h_freq
    h_apply
  refine ⟨by rw [h_utc]; exact h.utcNext, ?_, ?_, fun h_pc' => absurd h_pc' h_pc⟩
  · rw [h_tod, h_compared]; exact h.compared
  · rw [h_compared]; exact fun _ => h.sound h_apply

/-! ### The lock of the PLL -/

namespace Pc

/-- The iteration has a capture and has not marked it yet. -/
def capturing : Pc → Bool
  | logUnlocked | logLocked | steps | logStepped | seen | logDetected | mark => true
  | _ => false

/-- The flag checks of the iteration are still to be made. -/
def undecided : Pc → Bool
  | gone | logInvalid | hold | logTimedOut => true
  | pc => pc.capturing

end Pc

theorem undecided_of_capturing {pc : Pc} (h : pc.capturing) : pc.undecided = true := by
  cases pc <;> first | rfl | exact absurd h (by decide)

/-- **The invariant of the lock.** -/
structure LockInv (holdover : ℕ) (s : State) : Prop where
  lastPps : ∀ c, s.hist.captured = some c → s.lastPps = u32 c
  order : ∀ c, s.hist.captured = some c → ∃ t, s.hist.checked = some t ∧ c ≤ t ∧ t ≤ s.time
  locked : s.pc = .logLocked → s.hist.Locked
  pll : s.status.pllOk → s.pc ≠ .logUnlocked → s.hist.Locked
  /-- At the last check, the last capture was recent enough. -/
  age : s.status.pllOk → s.pc.capturing = false → s.pc ≠ .logTimedOut →
    ∃ c t, s.hist.captured = some c ∧ s.hist.checked = some t ∧ t - c ≤ 100 * holdover
  fresh : s.status.pllOk → s.pc.undecided = false → s.hist.Fresh holdover

/-- The check of the age. A difference of 32-bit tick counts is the real one. -/
theorem sincePps_eq {s : State} {c : ℕ} (h_pps : s.lastPps = u32 c) (h_le : c ≤ s.time)
    (h_lt : s.time - c < 2 ^ 32) : s.sincePps = s.time - c := by
  unfold State.sincePps
  rw [h_pps]
  unfold u32
  omega

/-- After the checks, the rest of the loop leaves the lock alone. -/
theorem run_decided (holdover : ℕ) {s : State} {i : Inputs} (h : s.pc.undecided = false)
    (h_top : s.pc ≠ .top) :
    (s.run holdover i).hist = s.hist ∧ (s.run holdover i).status.pllOk = s.status.pllOk ∧
      (s.run holdover i).lastPps = s.lastPps ∧ (s.run holdover i).time = s.time ∧
      (s.run holdover i).pc.undecided = false := by
  unfold State.run
  cases h_pc : s.pc with
  | top => exact absurd h_pc h_top
  | logUnlocked | logLocked | steps | logStepped | seen | logDetected | mark | gone | logInvalid |
    hold | logTimedOut => rw [h_pc] at h; exact absurd h (by decide)
  | report | correct | stats =>
    -- the rest of an iteration does not touch the history, whichever way it goes
    dsimp only
    split <;> simp [Pc.undecided, Pc.capturing]
  | freq =>
    dsimp only
    split <;> [skip; simp [Pc.undecided, Pc.capturing]]
    refine ⟨rfl, rfl, rfl, rfl, ?_⟩
    dsimp only
    split <;> rfl
  | _ => simp [Pc.undecided, Pc.capturing]

/-- The pieces of an iteration with a capture, up to its mark. -/
theorem run_capturing (holdover : ℕ) {s : State} {i : Inputs} (h : s.pc.capturing)
    (h_mark : s.pc ≠ .mark) :
    (s.run holdover i).hist = s.hist ∧ (s.run holdover i).lastPps = s.lastPps ∧
      (s.run holdover i).time = s.time ∧ (s.run holdover i).pc.capturing ∧
      (s.run holdover i).pc ≠ .logLocked ∧
      ((s.run holdover i).status.pllOk →
        s.pc = .logLocked ∨ s.status.pllOk ∧ s.pc ≠ .logUnlocked) := by
  unfold State.run
  cases h_pc : s.pc with
  | mark => exact absurd h_pc h_mark
  | steps =>
    -- the branches of the capture leave the history alone
    dsimp only
    split <;> [split; skip] <;> simp [Pc.capturing]
  | seen =>
    dsimp only
    split <;> simp [Pc.capturing]
  -- behind a log call the flag is set or cleared
  | logUnlocked | logLocked | logStepped | logDetected => simp [Pc.capturing]
  | _ => rw [h_pc] at h; exact absurd h (by decide)

/-- The head of the loop. -/
theorem LockInv.run_top {holdover : ℕ} {s : State} {i : Inputs} (h : LockInv holdover s)
    (h_pc : s.pc = .top) : LockInv holdover (s.run holdover i) := by
  obtain ⟨h_pps, h_order, -, h_pll, h_age, -⟩ := h
  have h_age' := fun h_ok => h_age h_ok (by rw [h_pc]; rfl) (by rw [h_pc]; decide)
  have h_pll' := fun h_ok => h_pll h_ok (by rw [h_pc]; decide)
  unfold State.run
  simp only [h_pc]
  split
  · split
    · next h_ok =>
      split
      · -- the lock is lost, and the flag is cleared after the log
        exact ⟨h_pps, h_order, fun h => absurd h (by simp), fun _ h => absurd rfl h,
          fun _ h => absurd h Bool.false_ne_true.symm, fun _ h => absurd h Bool.false_ne_true.symm⟩
      · next h_st =>
        -- the lock holds at this very check
        exact ⟨h_pps, h_order, fun h => absurd h (by simp), fun _ _ => ⟨i.st, rfl, not_lt.mp h_st⟩,
          fun _ h => absurd h Bool.false_ne_true.symm, fun _ h => absurd h Bool.false_ne_true.symm⟩
    · next h_ok =>
      split
      · next h_settled =>
        -- the flag is set after the log, on the strength of this check
        exact ⟨h_pps, h_order, fun _ => ⟨i.st, rfl, h_settled.1⟩, fun h => absurd h h_ok,
          fun h => absurd h h_ok, fun h => absurd h h_ok⟩
      · exact ⟨h_pps, h_order, fun h => absurd h (by simp), fun h => absurd h h_ok,
          fun h => absurd h h_ok, fun h => absurd h h_ok⟩
  · -- no capture to process: the checks are still to come
    exact ⟨h_pps, h_order, fun h => absurd h (by simp), fun h_ok _ => h_pll' h_ok,
      fun h_ok _ _ => h_age' h_ok, fun _ h => absurd h Bool.false_ne_true.symm⟩

/-- The flag checks without a capture. -/
theorem LockInv.run_hold {holdover : ℕ} {s : State} {i : Inputs} (h : LockInv holdover s)
    (h_ticks : 100 * holdover + 1000 < 2 ^ 32) (h_apart : Apart s (.run i)) (h_pc : s.pc = .hold) :
    LockInv holdover (s.run holdover i) := by
  obtain ⟨h_pps, h_order, -, h_pll, h_age, -⟩ := h
  have h_pll' := fun h_ok => h_pll h_ok (by rw [h_pc]; decide)
  have h_limit : u32 ((msToTicks 1000 : ℤ) * holdover) = 100 * holdover := by
    have h_second : msToTicks 1000 = 100 := by decide
    rw [h_second]
    unfold u32
    omega
  have h_order' : ∀ c, s.hist.captured = some c → ∃ t, some s.time = some t ∧ c ≤ t ∧ t ≤ s.time :=
    fun c hc => by
      obtain ⟨t, -, h_le, h_now⟩ := h_order c hc
      exact ⟨s.time, rfl, le_trans h_le h_now, le_refl _⟩
  -- with the flag set, the age at the last check was below the limit, so it has not wrapped
  have h_real : s.status.pllOk → ∃ c, s.hist.captured = some c ∧ s.sincePps = s.time - c := by
    intro h_ok
    obtain ⟨c, t, hc, ht, h_le⟩ := h_age h_ok (by rw [h_pc]; rfl) (by rw [h_pc]; decide)
    obtain ⟨t', ht', h_ct, h_now⟩ := h_order c hc
    obtain rfl : t = t' := Option.some.inj (ht.symm.trans ht')
    have h_near := h_apart (Or.inr h_pc) t ht
    exact ⟨c, hc, sincePps_eq (h_pps c hc) (by omega) (by omega)⟩
  unfold State.run
  simp only [h_pc, h_limit]
  split
  · -- too old: the flag is cleared after the log, before the thread sleeps
    exact ⟨h_pps, h_order', fun h => absurd h (by simp), fun h_ok _ => h_pll' h_ok,
      fun _ _ h => absurd rfl h, fun _ h => absurd h Bool.false_ne_true.symm⟩
  · next h_in =>
    have h_young : s.status.pllOk →
        ∃ c, s.hist.captured = some c ∧ s.time - c < 100 * holdover := by
      intro h_ok
      obtain ⟨c, hc, h_eq⟩ := h_real h_ok
      exact ⟨c, hc, h_eq ▸ not_le.mp fun h => h_in ⟨h, h_ok⟩⟩
    refine ⟨h_pps, h_order', fun h => absurd h (by simp), fun h_ok _ => h_pll' h_ok,
      fun h_ok _ _ => ?_, fun h_ok _ => ?_⟩
    · obtain ⟨c, hc, h_lt⟩ := h_young h_ok
      exact ⟨c, s.time, hc, rfl, le_of_lt h_lt⟩
    · obtain ⟨c, hc, h_lt⟩ := h_young h_ok
      exact Or.inr ⟨s.time - c, by dsimp only; rw [hc]; rfl, h_lt⟩

/-- **One piece of the loop.** -/
theorem LockInv.run {holdover : ℕ} {s : State} {i : Inputs} (h : LockInv holdover s)
    (h_ticks : 100 * holdover + 1000 < 2 ^ 32) (h_apart : Apart s (.run i)) :
    LockInv holdover (s.run holdover i) := by
  cases h_pc : s.pc with
  | top => exact h.run_top h_pc
  | hold => exact h.run_hold h_ticks h_apart h_pc
  | mark =>
    -- the capture is of this tick
    have h_pll := fun h_ok => h.pll h_ok (by rw [h_pc]; decide)
    unfold State.run
    simp only [h_pc]
    refine ⟨fun c hc => ?_, fun c hc => ?_, fun h => absurd h (by simp), fun h_ok _ => h_pll h_ok,
      fun _ _ _ => ⟨s.time, s.time, rfl, rfl, by omega⟩, fun _ _ => Or.inl rfl⟩
    · rw [← Option.some.inj hc]
    · obtain rfl := Option.some.inj hc
      exact ⟨s.time, rfl, le_refl _, le_refl _⟩
  | gone =>
    have h_pll := fun h_ok => h.pll h_ok (by rw [h_pc]; decide)
    have h_age := fun h_ok => h.age h_ok (by rw [h_pc]; rfl) (by rw [h_pc]; decide)
    unfold State.run
    simp only [h_pc]
    split <;> exact ⟨h.lastPps, h.order, fun h => absurd h (by simp), fun h_ok _ => h_pll h_ok,
      fun h_ok _ _ => h_age h_ok, fun _ h => absurd h Bool.false_ne_true.symm⟩
  | logInvalid =>
    have h_pll := fun h_ok => h.pll h_ok (by rw [h_pc]; decide)
    have h_age := fun h_ok => h.age h_ok (by rw [h_pc]; rfl) (by rw [h_pc]; decide)
    unfold State.run
    simp only [h_pc]
    exact ⟨h.lastPps, h.order, fun h => absurd h (by simp), fun h_ok _ => h_pll h_ok,
      fun h_ok _ _ => h_age h_ok, fun _ h => absurd h Bool.false_ne_true.symm⟩
  | logTimedOut =>
    -- the flag is cleared, and nothing is vouched for
    unfold State.run
    simp only [h_pc]
    exact ⟨h.lastPps, h.order, fun h => absurd h (by simp), fun h => absurd h (by simp),
      fun h => absurd h (by simp), fun h => absurd h (by simp)⟩
  | logUnlocked | logLocked | steps | logStepped | seen | logDetected =>
    -- between the check of the lock and the mark
    obtain ⟨h_hist, h_pps, h_time, h_cap, h_pc', h_ok⟩ := run_capturing holdover
      (i := i) (s := s) (by rw [h_pc]; rfl) (by rw [h_pc]; decide)
    refine ⟨?_, ?_, fun h => absurd h h_pc', fun h_set _ => ?_,
      fun _ h => absurd (h_cap.symm.trans h) (by decide), fun _ h => ?_⟩
    · rw [h_hist, h_pps]; exact h.lastPps
    · rw [h_hist, h_time]; exact h.order
    · rw [h_hist]
      rcases h_ok h_set with h_locked | ⟨h_ok, h_ne⟩
      · exact h.locked h_locked
      · exact h.pll h_ok h_ne
    · exact absurd (h.symm.trans (undecided_of_capturing h_cap)) Bool.false_ne_true
  | _ =>
    -- after the checks
    obtain ⟨h_hist, h_ok, h_pps, h_time, h_pc'⟩ := run_decided holdover
      (i := i) (s := s) (by rw [h_pc]; rfl) (by rw [h_pc]; decide)
    refine ⟨?_, ?_, fun h => ?_, fun h_set _ => ?_, fun h_set _ _ => ?_, fun h_set _ => ?_⟩
    · rw [h_hist, h_pps]; exact h.lastPps
    · rw [h_hist, h_time]; exact h.order
    · rw [h] at h_pc'; exact absurd h_pc' (by decide)
    · rw [h_hist]; exact h.pll (h_ok ▸ h_set) (by rw [h_pc]; decide)
    · rw [h_hist]; exact h.age (h_ok ▸ h_set) (by rw [h_pc]; rfl) (by rw [h_pc]; decide)
    · rw [h_hist]; exact h.fresh (h_ok ▸ h_set) (by rw [h_pc]; rfl)

/-! ### Replies -/

/-- What a stratum of 1 says about the clock. -/
def Reply.Compared (r : Reply) : Prop := ∃ c, r.compared = some c ∧ c.Sound

/-- What a stratum of 1 says about the lock. -/
def Pending.Vouched (holdover : ℕ) (q : Pending) : Prop :=
  q.pc.asleep → q.hist.Locked ∧ q.hist.Fresh holdover

/-- **The invariant of the time of day**, with that of the requests. -/
structure TodInv (s : State) : Prop where
  clock : ClockInv s
  request : ∀ q, s.request = some q → q.stratum = 1 → s.status.todOk
  replies : ∀ r ∈ s.replies, r.stratum = 1 → r.Compared

/-- **The invariant of the lock**, with that of the requests. -/
structure PllInv (holdover : ℕ) (s : State) : Prop where
  lock : LockInv holdover s
  request : ∀ q, s.request = some q → q.stratum = 1 → q.Vouched holdover
  replies : ∀ r ∈ s.replies, r.stratum = 1 → r.Vouched holdover

/-- The loop does not look at requests, and never clears `STATUS_TOD_OK`. -/
theorem run_request (holdover : ℕ) (s : State) (i : Inputs) :
    (s.run holdover i).request = s.request ∧ (s.run holdover i).replies = s.replies ∧
      (s.status.todOk → (s.run holdover i).status.todOk) := by
  unfold State.run
  cases s.pc with
  | top => dsimp only; split <;> [split; skip] <;> simp
  | steps => dsimp only; split <;> [split; skip] <;> simp
  | report | freq | stats => dsimp only; split <;> simp
  | _ => simp

theorem TodInv.initial (systemFrequency : ℕ) : TodInv (initial systemFrequency) := by
  refine ⟨⟨?_, ?_, ?_, ?_⟩, ?_, ?_⟩ <;> simp [Thread.initial, Vtimer.start]

theorem PllInv.initial (systemFrequency holdover : ℕ) :
    PllInv holdover (initial systemFrequency) := by
  refine ⟨⟨?_, ?_, ?_, ?_, ?_, ?_⟩, ?_, ?_⟩ <;> simp [Thread.initial]

theorem blocked_ne_apply {pc : Pc} (h : pc.blocked) : pc ≠ .apply := by
  rintro rfl; exact absurd h (by decide)

theorem decided_of_asleep {pc : Pc} (h : pc.asleep) :
    pc ≠ .logUnlocked ∧ pc.undecided = false := by
  cases pc <;> first | exact ⟨by decide, rfl⟩ | exact absurd h (by decide)

/-- A request gets stratum 1 if both flags are set. -/
theorem ready_of_stratum {s : State} (h : (if s.status.ready then 1 else 16) = 1) :
    s.status.pllOk = true ∧ s.status.todOk = true := by
  have h_ready : s.status.ready := by
    by_contra h_not
    rw [if_neg h_not] at h
    exact absurd h (by decide)
  exact Bool.and_eq_true_iff.mp h_ready

/-- **One step** keeps the clock compared. -/
theorem TodInv.next {holdover : ℕ} {s s' : State} {a : Action} (h : TodInv s) (h_near : Near s a)
    (h_next : Thread.next holdover s a = some s') : TodInv s' := by
  obtain ⟨h_clock, h_request, h_replies⟩ := h
  cases a with
  | run i =>
    obtain rfl := Option.some.inj h_next
    obtain ⟨h_req, h_rep, h_tod⟩ := run_request holdover s i
    refine ⟨h_clock.run h_near, ?_, ?_⟩
    · rw [h_req]
      intro q hq h_one
      exact h_tod (h_request q hq h_one)
    · rw [h_rep]
      exact h_replies
  | tick =>
    obtain rfl := Option.some.inj h_next
    exact ⟨⟨h_clock.utcNext, h_clock.compared, h_clock.sound, h_clock.apply⟩, h_request, h_replies⟩
  | setTime seconds =>
    obtain ⟨h_blocked, h_eq⟩ := Option.ite_none_right_eq_some.mp h_next
    obtain rfl := Option.some.inj h_eq
    exact ⟨⟨seconds.toNat_lt, h_clock.compared, h_clock.sound,
      fun h => absurd h (blocked_ne_apply h_blocked)⟩, h_request, h_replies⟩
  | stratum =>
    obtain ⟨-, h_eq⟩ := Option.ite_none_right_eq_some.mp h_next
    obtain rfl := Option.some.inj h_eq
    refine ⟨⟨h_clock.utcNext, h_clock.compared, h_clock.sound, h_clock.apply⟩, ?_, h_replies⟩
    intro q hq h_one
    obtain rfl := Option.some.inj hq
    exact (ready_of_stratum h_one).2
  | stamp mono =>
    simp only [Thread.next] at h_next
    split at h_next
    · next q hq =>
      obtain ⟨h_blocked, h_eq⟩ := Option.ite_none_right_eq_some.mp h_next
      obtain rfl := Option.some.inj h_eq
      refine ⟨⟨h_clock.utcNext, h_clock.compared, h_clock.sound, h_clock.apply⟩,
        fun q hq => absurd hq (by simp), ?_⟩
      intro r hr h_one
      rcases List.mem_cons.mp hr with rfl | hr
      · -- the flag was set at the request, and a blocked thread has made its step
        have h_tod := h_request q hq h_one
        obtain ⟨c, hc⟩ := Option.isSome_iff_exists.mp (h_clock.compared h_tod)
        exact ⟨c, hc, h_clock.sound (blocked_ne_apply h_blocked) c hc⟩
      · exact h_replies r hr h_one
    · exact absurd h_next (by simp)

/-- **One step** keeps the lock vouched for. -/
theorem PllInv.next {holdover : ℕ} (h_ticks : 100 * holdover + 1000 < 2 ^ 32) {s s' : State}
    {a : Action} (h : PllInv holdover s) (h_apart : Apart s a)
    (h_next : Thread.next holdover s a = some s') : PllInv holdover s' := by
  obtain ⟨h_lock, h_request, h_replies⟩ := h
  cases a with
  | run i =>
    obtain rfl := Option.some.inj h_next
    obtain ⟨h_req, h_rep, -⟩ := run_request holdover s i
    refine ⟨h_lock.run h_ticks h_apart, ?_, ?_⟩
    · rw [h_req]
      exact h_request
    · rw [h_rep]
      exact h_replies
  | tick =>
    obtain rfl := Option.some.inj h_next
    refine ⟨⟨h_lock.lastPps, ?_, h_lock.locked, h_lock.pll, h_lock.age, h_lock.fresh⟩,
      h_request, h_replies⟩
    intro c hc
    obtain ⟨t, ht, h_le, h_now⟩ := h_lock.order c hc
    exact ⟨t, ht, h_le, Nat.le_succ_of_le h_now⟩
  | setTime seconds =>
    obtain ⟨-, h_eq⟩ := Option.ite_none_right_eq_some.mp h_next
    obtain rfl := Option.some.inj h_eq
    exact ⟨⟨h_lock.lastPps, h_lock.order, h_lock.locked, h_lock.pll, h_lock.age, h_lock.fresh⟩,
      h_request, h_replies⟩
  | stratum =>
    obtain ⟨-, h_eq⟩ := Option.ite_none_right_eq_some.mp h_next
    obtain rfl := Option.some.inj h_eq
    refine ⟨⟨h_lock.lastPps, h_lock.order, h_lock.locked, h_lock.pll, h_lock.age, h_lock.fresh⟩,
      ?_, h_replies⟩
    intro q hq h_one h_asleep
    obtain rfl := Option.some.inj hq
    obtain ⟨h_pll, -⟩ := ready_of_stratum h_one
    -- an iteration that sleeps has made its checks, and has cleared the flag if it had to
    obtain ⟨h_ne, h_decided⟩ := decided_of_asleep h_asleep
    exact ⟨h_lock.pll h_pll h_ne, h_lock.fresh h_pll h_decided⟩
  | stamp mono =>
    simp only [Thread.next] at h_next
    split at h_next
    · next q hq =>
      obtain ⟨-, h_eq⟩ := Option.ite_none_right_eq_some.mp h_next
      obtain rfl := Option.some.inj h_eq
      refine ⟨⟨h_lock.lastPps, h_lock.order, h_lock.locked, h_lock.pll, h_lock.age, h_lock.fresh⟩,
        fun q hq => absurd hq (by simp), ?_⟩
      intro r hr h_one
      rcases List.mem_cons.mp hr with rfl | hr
      · exact h_request q hq h_one
      · exact h_replies r hr h_one
    · exact absurd h_next (by simp)

/-- **Stratum 1.** Over every run of the clock thread, the parsers and the NTP server
whose steps to a received time of day are by a signed 32-bit number of seconds:
whenever a reply has stratum 1, the clock had been compared with, and if different
stepped to, a received time of day before its timestamp was read.

Over every run with iterations at most 10 s apart: if a reply has stratum 1 and the
thread was asleep between iterations when `ntp_recv` looked at the flags, the last
iteration had processed a capture, or had found at its flag checks that one was
processed less than `holdover` seconds before, and the PLL was locked at the flag
check of the last capture. -/
theorem stratum_vouched (systemFrequency : ℕ) {holdover : ℕ}
    (h_ticks : 100 * holdover + 1000 < 2 ^ 32) (s : State) :
    ((machine systemFrequency holdover).Reach Near s →
      ∀ r ∈ s.replies, r.stratum = 1 → ∃ c, r.compared = some c ∧ c.Sound) ∧
    ((machine systemFrequency holdover).Reach Apart s →
      ∀ r ∈ s.replies, r.stratum = 1 → r.pc.asleep →
        (∃ st, r.hist.st = some st ∧ 3 ≤ st) ∧
          (r.hist.outcome = some .capture ∨
            ∃ age, r.hist.outcome = some (.missing (some age)) ∧ age < 100 * holdover)) := by
  constructor
  · intro h
    -- the steps are defined
    have h_inv : TodInv s := h.invariant (.initial systemFrequency)
      fun _ _ _ h_inv h_near h_next => h_inv.next h_near h_next
    exact h_inv.replies
  · intro h
    -- the iterations are not too far apart
    have h_inv : PllInv holdover s := h.invariant (.initial systemFrequency holdover)
      fun _ _ _ h_inv h_apart h_next => h_inv.next h_ticks h_apart h_next
    exact h_inv.replies

/-- A capture with the PLL locked and the phase offset 0. A conversion that is out of
range gives the largest value. -/
def lockedInputs : Inputs where
  capture := 1
  holdoverTest := false
  loopstatsInterval := 60
  delta := .fin 0
  usedQuant := false
  st := 3
  ppb := .fin 0
  mono := 0
  otherRate := 0
  otherStep := 2 ^ 63 - 1

/-- A pass of the loop from the sleep up to the next one, with a step. -/
def steppedPass : List Action := List.replicate 13 (.run lockedInputs)

/-- A time of day of January 1968 arrives while the thread logs the lock, half an era
after the start of the clock, and one of January 2014 a second later. A request is
answered while the thread sleeps again. -/
def lockedRun : List Action :=
  [.run lockedInputs, .setTime 2147483000] ++ steppedPass ++ [.setTime 3600000000] ++
    List.replicate 100 .tick ++ steppedPass ++ [.stratum, .tick, .stamp 0]

theorem stratum_vouched_locked :
    ((machine 60000000 60).after Apart lockedRun).replies.map
      (fun r => (r.stratum, r.pc.asleep, r.timestamp / 2 ^ 32)) = [(1, true, 3600000000)] ∧
    (∀ r ∈ ((machine 60000000 60).after Near lockedRun).replies, r.stratum = 1 →
      ∃ c, r.compared = some c ∧ c.Sound) ∧
    ∀ r ∈ ((machine 60000000 60).after Apart lockedRun).replies, r.stratum = 1 → r.pc.asleep →
      (∃ st, r.hist.st = some st ∧ 3 ≤ st) ∧
        (r.hist.outcome = some .capture ∨
          ∃ age, r.hist.outcome = some (.missing (some age)) ∧ age < 100 * 60) :=
  ⟨by decide +kernel,
    (stratum_vouched 60000000 (by decide) _).1
      ((machine 60000000 60).reach_after Near (by decide +kernel)),
    (stratum_vouched 60000000 (by decide) _).2
      ((machine 60000000 60).reach_after Apart (by decide +kernel))⟩

/-- The first time of day after power-up is that of a day in 2014. -/
def unsteppedRun : List Action :=
  [.run lockedInputs, .setTime 3600000000] ++ steppedPass ++ [.stratum, .tick, .stamp 0]

/-- The step is undefined, and the clock has another time when `ntp_recv` answers. -/
theorem stratum_unstepped :
    ¬ ∀ systemFrequency holdover s, 1 ≤ holdover → 100 * holdover + 1000 < 2 ^ 32 →
      (machine systemFrequency holdover).Reach Apart s →
        ∀ r ∈ s.replies, r.stratum = 1 → ∃ c, r.compared = some c ∧ c.Sound := by
  intro h_all
  have h_replies : ((machine 60000000 60).after Apart unsteppedRun).replies.map
      (fun r => (r.stratum, r.compared)) =
        [(1, some ⟨3600000000, 0, some (2 ^ 63 - 1)⟩)] := by
    decide +kernel
  have h_reach : (machine 60000000 60).Reach Apart
      ((machine 60000000 60).after Apart unsteppedRun) :=
    (machine 60000000 60).reach_after Apart (by decide +kernel)
  generalize (machine 60000000 60).after Apart unsteppedRun = s at h_replies h_reach
  obtain ⟨r, rs, h_cons, h_eq, -⟩ := List.map_eq_cons_iff.mp h_replies
  obtain ⟨h_one, h_compared⟩ := Prod.mk.inj h_eq
  have hr : r ∈ s.replies := h_cons ▸ List.mem_cons_self
  obtain ⟨c, hc, -, h_step⟩ := h_all 60000000 60 _ (by decide) (by decide) h_reach r hr h_one
  obtain rfl := Option.some.inj (h_compared.symm.trans hc)
  -- the clock was stepped to the end of the range of `int64_t`
  obtain h_same | ⟨after, h_after, h_seconds, -⟩ := h_step
  · exact absurd h_same (by decide)
  · obtain rfl := Option.some.inj h_after
    exact absurd h_seconds (by decide)

end Thread
end Laureline
