import Laureline.Timer.Tim3

/-!
# Sleeping until a tick

`monotonic_sleep_until` rounds its tick down to a multiple of the period, leaves it in
`sleep_epoch` for the handler, and waits for `sleep_flag`. `sleepMachine` is the timer with one
thread that sleeps again and again. Beside it stand the epochs of the rollovers that have been
serviced since the call.

* `Tim3.next_sleep` — only the service of a rollover wakes a sleeper;
* `Sleeping.step` — the invariant: the flag is set from the first rollover on that is not too
  early, and never while the thread is awake;
* `sleep_returns` — when the call can return.
-/

namespace Laureline
namespace Tim3

/-! ### What wakes a sleeper -/

/-- The step of the handler services a rollover. -/
def HandlerPc.services : HandlerPc → Bool
  | .update sr => sr.uif
  | _ => false

/-- The step services a rollover. -/
def services (s : State) : Action → Bool
  | .cpu => s.pc.handler.any HandlerPc.services
  | _ => false

/-- The call of `monotonic_sleep_until`, or its return. -/
def Action.isSleep : Action → Bool
  | .sleepUntil _ | .semTake => true
  | _ => false

@[simp] theorem Vars.capture_sleepEpoch (v : Vars) (sr : Sr) (ccr : ℕ) :
    (v.capture sr ccr).sleepEpoch = v.sleepEpoch := by
  unfold capture; dsimp only; split <;> rfl

@[simp] theorem Vars.capture_sleepFlag (v : Vars) (sr : Sr) (ccr : ℕ) :
    (v.capture sr ccr).sleepFlag = v.sleepFlag := by
  unfold capture; dsimp only; split <;> rfl

/-- The update branch wakes a sleeper whose time has come, and leaves the others alone. -/
theorem Vars.update_cases (v : Vars) :
    (v.sleepEpoch ≠ 0 ∧ v.sleepEpoch ≤ v.update.monoEpoch ∧ v.update.sleepEpoch = 0 ∧
      v.update.sleepFlag = true) ∨
    ((v.sleepEpoch ≠ 0 → v.update.monoEpoch < v.sleepEpoch) ∧
      v.update.sleepEpoch = v.sleepEpoch ∧ v.update.sleepFlag = v.sleepFlag) := by
  rw [update_monoEpoch]
  by_cases h : v.sleepEpoch ≠ 0 ∧ (v.monoEpoch + monoPeriod) % 2 ^ 64 ≥ v.sleepEpoch
  · refine Or.inl ⟨h.1, h.2, ?_, ?_⟩ <;> rw [update, if_pos h]
  · refine Or.inr ⟨fun h_ne => Nat.lt_of_not_le fun h_le => h ⟨h_ne, h_le⟩, ?_, ?_⟩ <;>
      rw [update, if_neg h]

section Timer

variable {gpsext : Bool} {s s' : State} {a : Action}

/-- A step of the handler. -/
theorem HandlerStep.sleep {h : HandlerPc} (h_step : HandlerStep s s' h) :
    services s .cpu = true ∧ s'.vars = s.vars.update ∨
    services s .cpu = false ∧ s'.vars.sleepEpoch = s.vars.sleepEpoch ∧
      s'.vars.sleepFlag = s.vars.sleepFlag := by
  rw [h_step.vars, services, h_step.pc, Option.any_some]
  cases h with
  | readSr | writeSr _ => exact Or.inr ⟨rfl, rfl, rfl⟩
  | update sr =>
    -- the handler tests its copy of the flags
    cases h_uif : sr.uif with
    | true => exact Or.inl ⟨h_uif, by simp only [handlerStep, h_uif, if_true]⟩
    | false => exact Or.inr ⟨h_uif, by simp [handlerStep, h_uif], by simp [handlerStep, h_uif]⟩
  | readCcr sr =>
    refine Or.inr ⟨rfl, ?_, ?_⟩
    · simp only [handlerStep]
      split_ifs <;> simp
    · simp only [handlerStep]
      split_ifs <;> simp

/-- **What wakes a sleeper.** Between a call and its return, a step either services a rollover
or leaves the sleeper alone. -/
theorem next_sleep (hn : next gpsext s a = some s') (h : a.isSleep = false) :
    services s a = true ∧ s'.vars = s.vars.update ∨
    services s a = false ∧ s'.vars.sleepEpoch = s.vars.sleepEpoch ∧
      s'.vars.sleepFlag = s.vars.sleepFlag := by
  cases a with
  | sleepUntil _ | semTake => exact absurd h (by simp [Action.isSleep])
  | advance n =>
    obtain rfl := Option.some.inj hn
    exact Or.inr ⟨rfl, rfl, rfl⟩
  | edge =>
    obtain ⟨-, hn⟩ := Option.ite_none_left_eq_some.mp hn
    obtain rfl := Option.some.inj hn
    exact Or.inr ⟨rfl, rfl, rfl⟩
  | irq | disable | enable | callNow | getCapture =>
    obtain ⟨-, hn⟩ := Option.ite_none_right_eq_some.mp hn
    obtain rfl := Option.some.inj hn
    exact Or.inr ⟨rfl, rfl, rfl⟩
  | cpu =>
    rcases cpuStep_cases hn with ⟨h, h_step⟩ | h_step
    -- a step of the handler may service the rollover; the reads of a caller do not
    · exact h_step.sleep
    · cases h_step with
      | cnt1 h_pc | epoch _ h_pc | cnt2 _ _ h_pc | ret _ _ _ h_pc | again _ _ _ h_pc =>
        exact Or.inr ⟨by simp [services, h_pc, Pc.handler], rfl, rfl⟩

end Timer

/-! ### One thread that sleeps -/

/-- The timer, and a thread that may be in `monotonic_sleep_until`. -/
structure Sleeper where
  timer : State
  /-- The tick that the sleep in progress is for. -/
  asleep : Option ℕ
  /-- The epochs of the rollovers serviced since the call, newest first (a history variable). -/
  serviced : List ℕ

/-- The successor under an action. A call is for a tick of at least one period, and returns
before the next call. -/
def Sleeper.next (gpsext : Bool) (s : Sleeper) (a : Action) : Option Sleeper :=
  match a with
  | .sleepUntil w =>
    if s.asleep = none ∧ monoPeriod ≤ w ∧ w < 2 ^ 64 then
      (Tim3.next gpsext s.timer (.sleepUntil w)).map fun t => ⟨t, some w, []⟩
    else none
  | .semTake =>
    if s.asleep = none then none
    else (Tim3.next gpsext s.timer .semTake).map fun t => ⟨t, none, []⟩
  | a =>
    (Tim3.next gpsext s.timer a).map fun t =>
      { s with
        timer := t
        serviced := if services s.timer a then t.vars.monoEpoch :: s.serviced else s.serviced }

/-- `ppscapture.c` with one thread that sleeps. -/
def sleepMachine (gpsext : Bool) : Machine Sleeper Action where
  init := ⟨State.initial, none, []⟩
  next := Sleeper.next gpsext

/-- A rollover that has been serviced since the call is not too early for its tick, rounded
down to a multiple of the period. -/
def Sleeper.Reached (s : Sleeper) (w : ℕ) : Prop := ∃ epoch ∈ s.serviced, w - w % monoPeriod ≤ epoch

/-- **The invariant.** A thread that is awake has left nothing behind. -/
inductive Sleeping (s : Sleeper) : Prop
  | awake (h_asleep : s.asleep = none) (h_epoch : s.timer.vars.sleepEpoch = 0)
      (h_flag : s.timer.vars.sleepFlag = false)
  | waits (w : ℕ) (h_asleep : s.asleep = some w) (h_w : monoPeriod ≤ w) (h_early : ¬ s.Reached w)
      (h_epoch : s.timer.vars.sleepEpoch = w - w % monoPeriod)
      (h_flag : s.timer.vars.sleepFlag = false)
  | woken (w : ℕ) (h_asleep : s.asleep = some w) (h_reached : s.Reached w)
      (h_epoch : s.timer.vars.sleepEpoch = 0) (h_flag : s.timer.vars.sleepFlag = true)

section Step

variable {gpsext : Bool} {s s' : Sleeper} {a : Action}

theorem Sleeper.Reached.mono {t : State} {w epoch : ℕ} (h : s.Reached w) :
    Sleeper.Reached { s with timer := t, serviced := epoch :: s.serviced } w := by
  obtain ⟨e, h_e, h_le⟩ := h
  exact ⟨e, List.mem_cons_of_mem _ h_e, h_le⟩

/-- The tick of a call is at least one period, so its rounded value is not the 0 for none. -/
theorem rounded_pos {w : ℕ} (h : monoPeriod ≤ w) : w - w % monoPeriod ≠ 0 := by
  have h_lt : w % monoPeriod < monoPeriod := Nat.mod_lt w (by decide)
  omega

/-- A rollover that is serviced. -/
theorem Sleeping.update (h : Sleeping s) {t : State} (h_vars : t.vars = s.timer.vars.update) :
    Sleeping { s with timer := t, serviced := t.vars.monoEpoch :: s.serviced } := by
  have h_cases := s.timer.vars.update_cases
  rw [← h_vars] at h_cases
  cases h with
  | awake h_asleep h_epoch h_flag =>
    -- with `sleep_epoch` 0 the handler wakes nobody
    rcases h_cases with ⟨h_ne, -⟩ | ⟨-, h_epoch', h_flag'⟩
    · exact absurd h_epoch h_ne
    · exact .awake h_asleep (h_epoch'.trans h_epoch) (h_flag'.trans h_flag)
  | waits w h_asleep h_w h_early h_epoch h_flag =>
    rw [h_epoch] at h_cases
    rcases h_cases with ⟨-, h_le, h_epoch', h_flag'⟩ | ⟨h_lt, h_epoch', h_flag'⟩
    · -- the first rollover that is not too early
      exact .woken w h_asleep ⟨_, List.mem_cons_self, h_le⟩ h_epoch' h_flag'
    · -- this rollover is too early, as are those before it
      refine .waits w h_asleep h_w ?_ h_epoch' (h_flag'.trans h_flag)
      rintro ⟨epoch, h_epoch, h_le⟩
      rcases List.mem_cons.mp h_epoch with rfl | h_epoch
      · exact absurd (h_lt (rounded_pos h_w)) (Nat.not_lt.mpr h_le)
      · exact h_early ⟨epoch, h_epoch, h_le⟩
  | woken w h_asleep h_reached h_epoch h_flag =>
    rcases h_cases with ⟨h_ne, -⟩ | ⟨-, h_epoch', h_flag'⟩
    · exact absurd h_epoch h_ne
    · exact .woken w h_asleep h_reached.mono (h_epoch'.trans h_epoch) (h_flag'.trans h_flag)

/-- A step that leaves the sleeper alone. -/
theorem Sleeping.same (h : Sleeping s) {t : State}
    (h_epoch : t.vars.sleepEpoch = s.timer.vars.sleepEpoch)
    (h_flag : t.vars.sleepFlag = s.timer.vars.sleepFlag) : Sleeping { s with timer := t } := by
  cases h with
  | awake h_asleep h_epoch' h_flag' =>
    exact .awake h_asleep (h_epoch.trans h_epoch') (h_flag.trans h_flag')
  | waits w h_asleep h_w h_early h_epoch' h_flag' =>
    exact .waits w h_asleep h_w h_early (h_epoch.trans h_epoch') (h_flag.trans h_flag')
  | woken w h_asleep h_reached h_epoch' h_flag' =>
    exact .woken w h_asleep h_reached (h_epoch.trans h_epoch') (h_flag.trans h_flag')

theorem Sleeper.next_of_timer (h : a.isSleep = false) (hn : s.next gpsext a = some s') :
    ∃ t, Tim3.next gpsext s.timer a = some t ∧ s' = { s with
      timer := t
      serviced := if services s.timer a then t.vars.monoEpoch :: s.serviced else s.serviced } := by
  cases a with
  | sleepUntil _ | semTake => exact absurd h (by simp [Action.isSleep])
  | advance | edge | irq | disable | enable | callNow | cpu | getCapture =>
    simp only [Sleeper.next, Option.map_eq_some_iff] at hn
    obtain ⟨t, h_t, h_eq⟩ := hn
    exact ⟨t, h_t, h_eq.symm⟩

/-- **One step.** -/
theorem Sleeping.step (h : Sleeping s) (hn : s.next gpsext a = some s') : Sleeping s' := by
  cases h_sleep : a.isSleep with
  | false =>
    obtain ⟨t, h_t, rfl⟩ := Sleeper.next_of_timer h_sleep hn
    rcases next_sleep h_t h_sleep with ⟨h_services, h_vars⟩ | ⟨h_services, h_epoch, h_flag⟩
    · rw [h_services]
      exact h.update h_vars
    · rw [h_services]
      exact h.same h_epoch h_flag
  | true =>
    cases a with
    | sleepUntil w =>
      -- the flag of an earlier sleep was taken when that sleep returned
      obtain ⟨⟨h_awake, h_w, -⟩, hn⟩ := Option.ite_none_right_eq_some.mp hn
      obtain ⟨t, h_t, rfl⟩ := Option.map_eq_some_iff.mp hn
      obtain ⟨-, h_t⟩ := Option.ite_none_right_eq_some.mp h_t
      obtain rfl := Option.some.inj h_t
      have h_early : ¬ Sleeper.Reached ⟨s.timer, some w, []⟩ w := by
        rintro ⟨_, h_epoch, -⟩
        exact absurd h_epoch List.not_mem_nil
      cases h with
      | awake _ _ h_flag => exact .waits w rfl h_w h_early rfl h_flag
      | waits _ h_asleep | woken _ h_asleep => exact absurd (h_awake.symm.trans h_asleep) (by simp)
    | semTake =>
      obtain ⟨h_asleep, hn⟩ := Option.ite_none_left_eq_some.mp hn
      obtain ⟨t, h_t, rfl⟩ := Option.map_eq_some_iff.mp hn
      obtain ⟨⟨-, -, h_taken⟩, h_t⟩ := Option.ite_none_right_eq_some.mp h_t
      obtain rfl := Option.some.inj h_t
      cases h with
      | awake h_none => exact absurd h_none h_asleep
      -- the semaphore is taken only when the flag is set
      | waits _ _ _ _ _ h_flag => exact absurd (h_flag.symm.trans h_taken) (by simp)
      | woken _ _ _ h_epoch => exact .awake rfl h_epoch rfl
    | advance | edge | irq | disable | enable | callNow | cpu | getCapture =>
      exact absurd h_sleep (by simp [Action.isSleep])

/-- The flag is set from the first rollover on that is not too early. -/
theorem Sleeping.sleepFlag (h : Sleeping s) :
    s.timer.vars.sleepFlag = true ↔ ∃ w, s.asleep = some w ∧ s.Reached w := by
  cases h with
  | awake h_asleep _ h_flag => simp [h_asleep, h_flag]
  | waits w h_asleep _ h_early _ h_flag => simp [h_asleep, h_flag, h_early]
  | woken w h_asleep h_reached _ h_flag => simp [h_asleep, h_flag, h_reached]

/-- The call can return when the flag is set and the thread runs. -/
theorem Sleeping.semTake (h : Sleeping s) :
    (∃ s', s.next gpsext .semTake = some s') ↔
      s.timer.pc = .thread ∧ s.timer.nest = 0 ∧ s.timer.vars.sleepFlag = true := by
  constructor
  · rintro ⟨s', hn⟩
    obtain ⟨-, hn⟩ := Option.ite_none_left_eq_some.mp hn
    obtain ⟨t, h_t, -⟩ := Option.map_eq_some_iff.mp hn
    exact (Option.ite_none_right_eq_some.mp h_t).1
  · rintro ⟨h_pc, h_nest, h_flag⟩
    obtain ⟨w, h_asleep, -⟩ := h.sleepFlag.mp h_flag
    obtain ⟨t, h_t⟩ : ∃ t, Tim3.next gpsext s.timer .semTake = some t :=
      ⟨_, if_pos ⟨h_pc, h_nest, h_flag⟩⟩
    refine ⟨⟨t, none, []⟩, ?_⟩
    rw [Sleeper.next, if_neg (by rw [h_asleep]; simp), h_t]
    rfl

/-- **When the call returns.** In every run, whatever the timer does, the flag is set just from
the first rollover serviced since the call on that is not too early, and while it is set the
call can return. -/
theorem sleep_returns (h : (sleepMachine gpsext).Reach (fun _ _ => True) s) :
    (s.timer.vars.sleepFlag = true ↔ ∃ w, s.asleep = some w ∧ s.Reached w) ∧
      ((∃ s', (sleepMachine gpsext).next s .semTake = some s') ↔
        s.timer.pc = .thread ∧ s.timer.nest = 0 ∧ s.timer.vars.sleepFlag = true) := by
  have h_sleeping := h.invariant (I := Sleeping) (.awake rfl rfl rfl)
    fun _ _ _ hI _ hn => hI.step hn
  exact ⟨h_sleeping.sleepFlag, h_sleeping.semTake⟩

end Step

end Tim3
end Laureline
