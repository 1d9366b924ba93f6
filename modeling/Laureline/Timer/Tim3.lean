import Mathlib.Tactic.Common
import Mathlib.Data.List.Basic
import Mathlib.Algebra.Group.Nat.Defs
import Laureline.Lib.Machine

/-!
# TIM3 and the monotonic time base

`ppscapture.c` over a model of the timer it drives. The hardware is a tick count
that only grows, of which the 16-bit counter is the remainder, an update flag
that every multiple of the period sets, and two capture channels of which
`ppscapture_start` enables one (`FLAG_GPSEXT` selects channel 3).

The processor is one instruction stream. `Pc` says where it stands, `nest` is the
depth of the critical sections around it (`DISABLE_IRQ` is `portENTER_CRITICAL`,
which nests), and `Action.cpu` runs the modelled code up to its next access of a
timer register. Ticks and pulse edges come between any two actions, so every
placement of a rollover or of an edge relative to the register accesses is a run
of the machine. `TIM3_IRQHandler` runs as an interrupt when no critical section
is open, and as a call from `monotonic_now`; its steps are shared
(`handlerStep`).

`Hist` holds history variables. No definition that models code reads them.

* `regs.ticks` is the extended tick count, `regs.sr` the status register.
* `timerMachine gpsext` is the system, with every placement allowed.
* `next_cases` and `cpuStep_cases` say what a step can do. The invariants are
  derived from them.
-/

namespace Laureline
namespace Tim3

/-- `MONO_PERIOD`, the number of ticks between two update events. -/
def monoPeriod : ℕ := 65536

/-! ### The timer registers -/

/-- The flags of `TIM3->SR` that `ppscapture.c` uses. -/
structure Sr where
  uif : Bool
  cc1if : Bool
  cc3if : Bool
deriving DecidableEq, Repr

/-- `TIM3->SR = ~sr`: a zero bit clears its flag, a one bit leaves it alone. -/
def Sr.writeNot (flags sr : Sr) : Sr where
  uif := flags.uif && !sr.uif
  cc1if := flags.cc1if && !sr.cc1if
  cc3if := flags.cc3if && !sr.cc3if

/-- One of the capture flags is set. -/
def Sr.cc (sr : Sr) : Bool := sr.cc1if || sr.cc3if

/-- The registers of the timer. -/
structure Regs where
  /-- The extended tick count. -/
  ticks : ℕ
  sr : Sr
  ccr1 : ℕ
  ccr3 : ℕ
deriving DecidableEq, Repr

namespace Regs

/-- `TIM3->CNT`. -/
def cnt (r : Regs) : ℕ := r.ticks % monoPeriod

/-- `n` ticks pass. The update flag is set when a multiple of the period is
reached. -/
def advance (r : Regs) (n : ℕ) : Regs :=
  { r with
    ticks := r.ticks + n
    sr := { r.sr with
      uif := r.sr.uif || decide (r.ticks / monoPeriod < (r.ticks + n) / monoPeriod) } }

/-- A pulse edge: the enabled channel latches the counter and sets its flag. -/
def edge (gpsext : Bool) (r : Regs) : Regs :=
  if gpsext then { r with ccr3 := r.cnt, sr := { r.sr with cc3if := true } }
  else { r with ccr1 := r.cnt, sr := { r.sr with cc1if := true } }

end Regs

/-! ### The variables of `ppscapture.c` -/

/-- The static variables. -/
structure Vars where
  /-- `mono_epoch`, the high-order part of the monotonic timer. -/
  monoEpoch : ℕ
  /-- `mono_capture`, or 0 if there is no pending capture. -/
  monoCapture : ℕ
  /-- `sleep_epoch`, or 0 if there is no sleeper. -/
  sleepEpoch : ℕ
  /-- The token of the binary semaphore `sleep_flag`. -/
  sleepFlag : Bool
deriving DecidableEq, Repr

namespace Vars

/-- The update branch of `TIM3_IRQHandler`: the epoch advances by one period, and
a sleeper whose time has come is woken. -/
def update (v : Vars) : Vars :=
  let epoch := (v.monoEpoch + monoPeriod) % 2 ^ 64
  if v.sleepEpoch ≠ 0 ∧ epoch ≥ v.sleepEpoch then
    { v with monoEpoch := epoch, sleepEpoch := 0, sleepFlag := true }
  else { v with monoEpoch := epoch }

/-- The capture branch of `TIM3_IRQHandler`. A capture in the upper half of the
period that was read together with an update event is from the period before. -/
def capture (v : Vars) (sr : Sr) (ccr : ℕ) : Vars :=
  let stamp := (v.monoEpoch + ccr) % 2 ^ 64
  if sr.uif ∧ ccr > monoPeriod / 2 then
    { v with monoCapture := (stamp + 2 ^ 64 - monoPeriod) % 2 ^ 64 }
  else { v with monoCapture := stamp }

@[simp] theorem update_monoEpoch (v : Vars) :
    v.update.monoEpoch = (v.monoEpoch + monoPeriod) % 2 ^ 64 := by
  unfold update; dsimp only; split <;> rfl

@[simp] theorem update_monoCapture (v : Vars) : v.update.monoCapture = v.monoCapture := by
  unfold update; dsimp only; split <;> rfl

@[simp] theorem capture_monoEpoch (v : Vars) (sr : Sr) (ccr : ℕ) :
    (v.capture sr ccr).monoEpoch = v.monoEpoch := by
  unfold capture; dsimp only; split <;> rfl

end Vars

/-! ### Control -/

/-- The points of `TIM3_IRQHandler` between its register accesses. -/
inductive HandlerPc
  | readSr
  | writeSr (sr : Sr)
  | update (sr : Sr)
  | readCcr (sr : Sr)
deriving DecidableEq, Repr

/-- Where the processor stands. `thread` is any code outside `ppscapture.c`. -/
inductive Pc
  | thread
  | isr (h : HandlerPc)
  | nowCnt1
  | nowEpoch (tmr1 : ℕ)
  | nowCnt2 (tmr1 ret : ℕ)
  | nowTest (tmr1 ret tmr2 : ℕ)
  | nowHandler (h : HandlerPc)
deriving DecidableEq, Repr

/-- The point of `TIM3_IRQHandler` reached, in either of its two contexts. -/
def Pc.handler : Pc → Option HandlerPc
  | .isr h => some h
  | .nowHandler h => some h
  | _ => none

/-- One returned call of `monotonic_now`, with the tick counts at the two `CNT`
reads of the pass that returned and the update flag at the first of them. -/
structure NowCall where
  value : ℕ
  aFirst : ℕ
  pendFirst : Bool
  aSecond : ℕ
deriving DecidableEq, Repr

/-- History variables. Lists hold the newest entry first. -/
structure Hist where
  /-- The tick count at the first `CNT` read of the current pass. -/
  aFirst : ℕ
  /-- The update flag at that read. -/
  pendFirst : Bool
  /-- The tick count at the second `CNT` read. -/
  aSecond : ℕ
  /-- The returned calls of `monotonic_now`. -/
  calls : List NowCall
  /-- The tick at which the pending update flag was set. -/
  uifAt : ℕ
  /-- The tick at which the pending capture flag was set. -/
  ccAt : ℕ
  /-- The tick of the last read of `SR`. -/
  srAt : ℕ
  /-- The ticks of the pulse edges. -/
  edges : List ℕ
  /-- The edge that `mono_capture` holds. -/
  held : Option ℕ
  /-- What `monotonic_get_capture` returned, with the edge it belongs to. -/
  fetched : List (Option ℕ × ℕ)
deriving DecidableEq, Repr

/-- The timer, the variables, and where the code is. -/
structure State where
  regs : Regs
  vars : Vars
  /-- The depth of open critical sections. -/
  nest : ℕ
  pc : Pc
  hist : Hist
deriving DecidableEq, Repr

/-- After `ppscapture_start`: the counter is at 0, no flag is set and the epoch
is one period. -/
def State.initial : State where
  regs := ⟨0, ⟨false, false, false⟩, 0, 0⟩
  vars := ⟨monoPeriod, 0, 0, false⟩
  nest := 0
  pc := .thread
  hist := ⟨0, false, 0, [], 0, 0, 0, [], none, []⟩

/-- What the timer, the callers and the handler do. -/
inductive Action
  /-- `n` ticks pass. -/
  | advance (n : ℕ)
  /-- A pulse edge reaches the capture input. -/
  | edge
  /-- The interrupt is taken. -/
  | irq
  /-- A caller opens a critical section of its own, as `vtimer_now` does. -/
  | disable
  | enable
  /-- A caller enters `monotonic_now`. -/
  | callNow
  /-- The modelled code runs to its next register access. -/
  | cpu
  /-- `monotonic_get_capture`. -/
  | getCapture
  /-- The critical section of `monotonic_sleep_until`. -/
  | sleepUntil (monoWhen : ℕ)
  /-- The sleeper takes `sleep_flag`. -/
  | semTake
deriving DecidableEq, Repr

/-! ### The code -/

/-- One step of `TIM3_IRQHandler`: the state after it and the point reached, or
`none` when it has returned. -/
def handlerStep (s : State) : HandlerPc → State × Option HandlerPc
  | .readSr => ({ s with hist := { s.hist with srAt := s.regs.ticks } }, some (.writeSr s.regs.sr))
  | .writeSr sr =>
    ({ s with regs := { s.regs with sr := s.regs.sr.writeNot sr } }, some (.update sr))
  | .update sr => ({ s with vars := if sr.uif then s.vars.update else s.vars }, some (.readCcr sr))
  | .readCcr sr =>
    -- reading `CCRx` clears `CCxIF` in hardware
    if sr.cc1if then
      ({ s with
        regs := { s.regs with sr := { s.regs.sr with cc1if := false } }
        vars := s.vars.capture sr s.regs.ccr1
        hist := { s.hist with held := s.hist.edges.head? } }, none)
    else if sr.cc3if then
      ({ s with
        regs := { s.regs with sr := { s.regs.sr with cc3if := false } }
        vars := s.vars.capture sr s.regs.ccr3
        hist := { s.hist with held := s.hist.edges.head? } }, none)
    else (s, none)

/-- The modelled code runs to its next register access. -/
def cpuStep (s : State) : Option State :=
  match s.pc with
  | .thread => none
  | .isr h => some { (handlerStep s h).1 with pc := (handlerStep s h).2.elim .thread .isr }
  | .nowHandler h =>
    some { (handlerStep s h).1 with pc := (handlerStep s h).2.elim .nowCnt1 .nowHandler }
  | .nowCnt1 =>
    some { s with
      pc := .nowEpoch s.regs.cnt
      hist := { s.hist with aFirst := s.regs.ticks, pendFirst := s.regs.sr.uif } }
  | .nowEpoch tmr1 => some { s with pc := .nowCnt2 tmr1 s.vars.monoEpoch }
  | .nowCnt2 tmr1 ret =>
    some { s with
      pc := .nowTest tmr1 ret s.regs.cnt
      hist := { s.hist with aSecond := s.regs.ticks } }
  | .nowTest tmr1 ret tmr2 =>
    if tmr2 > tmr1 then
      some { s with
        pc := .thread
        nest := s.nest - 1
        hist := { s.hist with
          calls := ⟨(ret + tmr2) % 2 ^ 64, s.hist.aFirst, s.hist.pendFirst, s.hist.aSecond⟩
            :: s.hist.calls } }
    else
      -- the timer rolled over while it was sampled: process the update event now
      some { s with pc := .nowHandler .readSr }

/-- The history of `n` ticks passing: an update flag that was clear is set at the
first multiple of the period. -/
def Hist.advance (h : Hist) (r : Regs) : Hist :=
  if r.sr.uif then h else { h with uifAt := (r.ticks / monoPeriod + 1) * monoPeriod }

/-- The history of a pulse edge: a capture flag that was clear is set now. -/
def Hist.edge (h : Hist) (r : Regs) : Hist :=
  { h with
    edges := r.ticks :: h.edges
    ccAt := if r.sr.cc then h.ccAt else r.ticks }

/-- The successor under an action. The capture unit registers at most one edge in
a tick. -/
def next (gpsext : Bool) (s : State) : Action → Option State
  | .advance n => some { s with regs := s.regs.advance n, hist := s.hist.advance s.regs }
  | .edge =>
    if s.hist.edges.head? = some s.regs.ticks then none
    else some { s with regs := s.regs.edge gpsext, hist := s.hist.edge s.regs }
  | .irq =>
    -- the interrupt stays requested when `monotonic_now` has served its flags, so
    -- no flag need be set
    if s.pc = .thread ∧ s.nest = 0 then some { s with pc := .isr .readSr } else none
  | .disable => if s.pc = .thread then some { s with nest := s.nest + 1 } else none
  | .enable => if s.pc = .thread ∧ 0 < s.nest then some { s with nest := s.nest - 1 } else none
  | .callNow =>
    if s.pc = .thread then some { s with nest := s.nest + 1, pc := .nowCnt1 } else none
  | .cpu => cpuStep s
  | .getCapture =>
    if s.pc = .thread then
      some { s with
        vars := { s.vars with monoCapture := 0 }
        hist := { s.hist with
          held := none
          fetched := (s.hist.held, s.vars.monoCapture) :: s.hist.fetched } }
    else none
  | .sleepUntil w =>
    if s.pc = .thread ∧ s.nest = 0 then
      some { s with vars := { s.vars with sleepEpoch := w - w % monoPeriod } }
    else none
  | .semTake =>
    if s.pc = .thread ∧ s.nest = 0 ∧ s.vars.sleepFlag then
      some { s with vars := { s.vars with sleepFlag := false } }
    else none

/-- The timer, its interrupt handler and the functions of `ppscapture.c`. -/
def timerMachine (gpsext : Bool) : Machine State Action where
  init := State.initial
  next := next gpsext

/-! ### What a step can do

The inversion lemmas below are the only place where `next` and `cpuStep` are
unfolded; every invariant is proved from them. -/

/-- A step of a thread outside `ppscapture.c`, or its entry into one of the
functions: the timer and the epoch stay as they are. -/
structure ThreadStep (s s' : State) : Prop where
  pc : s.pc = .thread
  pc' : s'.pc = .thread ∨ s'.pc = .isr .readSr ∨ s'.pc = .nowCnt1
  regs : s'.regs = s.regs
  epoch : s'.vars.monoEpoch = s.vars.monoEpoch
  calls : s'.hist.calls = s.hist.calls
  /-- The capture is left alone, or handed out by `monotonic_get_capture`. -/
  capture : (s'.hist = s.hist ∧ s'.vars.monoCapture = s.vars.monoCapture) ∨
    (s'.hist = { s.hist with
        held := none
        fetched := (s.hist.held, s.vars.monoCapture) :: s.hist.fetched } ∧
      s'.vars.monoCapture = 0)

/-- A step of `TIM3_IRQHandler`, in either of its contexts. -/
structure HandlerStep (s s' : State) (h : HandlerPc) : Prop where
  pc : s.pc.handler = some h
  pc' : s'.pc.handler = (handlerStep s h).2
  back : (handlerStep s h).2 = none → s'.pc = .thread ∨ s'.pc = .nowCnt1
  regs : s'.regs = (handlerStep s h).1.regs
  vars : s'.vars = (handlerStep s h).1.vars
  hist : s'.hist = (handlerStep s h).1.hist

/-- A step of `monotonic_now` itself. -/
inductive NowStep (s : State) : State → Prop
  | cnt1 (hpc : s.pc = .nowCnt1) : NowStep s { s with
      pc := .nowEpoch s.regs.cnt
      hist := { s.hist with aFirst := s.regs.ticks, pendFirst := s.regs.sr.uif } }
  | epoch (tmr1 : ℕ) (hpc : s.pc = .nowEpoch tmr1) :
      NowStep s { s with pc := .nowCnt2 tmr1 s.vars.monoEpoch }
  | cnt2 (tmr1 ret : ℕ) (hpc : s.pc = .nowCnt2 tmr1 ret) : NowStep s { s with
      pc := .nowTest tmr1 ret s.regs.cnt
      hist := { s.hist with aSecond := s.regs.ticks } }
  | ret (tmr1 ret tmr2 : ℕ) (hpc : s.pc = .nowTest tmr1 ret tmr2) (hlt : tmr1 < tmr2) :
      NowStep s { s with
        pc := .thread
        nest := s.nest - 1
        hist := { s.hist with
          calls := ⟨(ret + tmr2) % 2 ^ 64, s.hist.aFirst, s.hist.pendFirst, s.hist.aSecond⟩
            :: s.hist.calls } }
  | again (tmr1 ret tmr2 : ℕ) (hpc : s.pc = .nowTest tmr1 ret tmr2) (hge : tmr2 ≤ tmr1) :
      NowStep s { s with pc := .nowHandler .readSr }

/-- A step of the code is one of the handler or one of `monotonic_now`. -/
theorem cpuStep_cases {s s' : State} (hn : cpuStep s = some s') :
    (∃ h, HandlerStep s s' h) ∨ NowStep s s' := by
  unfold cpuStep at hn
  cases hpc : s.pc with
  | thread => simp [hpc] at hn
  | isr h =>
    -- a handler that returns leaves the interrupt, or goes back to the head of the loop
    rw [hpc] at hn
    obtain rfl := Option.some.inj hn
    refine Or.inl ⟨h, by rw [hpc]; rfl, ?_, fun hb => Or.inl ?_, rfl, rfl, rfl⟩
    · cases h' : (handlerStep s h).2 <;> rfl
    · rw [hb]; rfl
  | nowHandler h =>
    rw [hpc] at hn
    obtain rfl := Option.some.inj hn
    refine Or.inl ⟨h, by rw [hpc]; rfl, ?_, fun hb => Or.inr ?_, rfl, rfl, rfl⟩
    · cases h' : (handlerStep s h).2 <;> rfl
    · rw [hb]; rfl
  | nowCnt1 => rw [hpc] at hn; obtain rfl := Option.some.inj hn; exact Or.inr (.cnt1 hpc)
  | nowEpoch tmr1 =>
    rw [hpc] at hn; obtain rfl := Option.some.inj hn; exact Or.inr (.epoch tmr1 hpc)
  | nowCnt2 tmr1 ret =>
    rw [hpc] at hn; obtain rfl := Option.some.inj hn; exact Or.inr (.cnt2 tmr1 ret hpc)
  | nowTest tmr1 ret tmr2 =>
    rw [hpc] at hn
    simp only at hn
    split at hn <;> obtain rfl := Option.some.inj hn
    · next hlt => exact Or.inr (.ret tmr1 ret tmr2 hpc hlt)
    · next hge => exact Or.inr (.again tmr1 ret tmr2 hpc (by omega))

/-- Every step passes ticks, is a pulse edge, a step of the modelled code, or a
step of a thread. -/
theorem next_cases {gpsext : Bool} {s s' : State} {a : Action} (hn : next gpsext s a = some s') :
    (∃ n, a = .advance n ∧
      s' = { s with regs := s.regs.advance n, hist := s.hist.advance s.regs }) ∨
    (a = .edge ∧ s.hist.edges.head? ≠ some s.regs.ticks ∧
      s' = { s with regs := s.regs.edge gpsext, hist := s.hist.edge s.regs }) ∨
    (a = .cpu ∧ cpuStep s = some s') ∨ ThreadStep s s' := by
  -- but for the first three, an action is taken by a thread if its guard holds
  have h_thread : ∀ {P : Prop} [Decidable P] {t : State},
      (if P then some t else none) = some s' → (P → ThreadStep s t) → ThreadStep s s' := by
    intro P _ t h h_step
    obtain ⟨hP, h_eq⟩ := Option.ite_none_right_eq_some.mp h
    exact Option.some.inj h_eq ▸ h_step hP
  cases a with
  | advance n => exact Or.inl ⟨n, rfl, (Option.some.inj hn).symm⟩
  | edge =>
    obtain ⟨h_new, h_eq⟩ := Option.ite_none_left_eq_some.mp hn
    exact Or.inr (Or.inl ⟨rfl, h_new, (Option.some.inj h_eq).symm⟩)
  | cpu => exact Or.inr (Or.inr (Or.inl ⟨rfl, hn⟩))
  | irq =>
    refine Or.inr (Or.inr (Or.inr (h_thread hn fun hc => ?_)))
    exact ⟨hc.1, Or.inr (Or.inl rfl), rfl, rfl, rfl, Or.inl ⟨rfl, rfl⟩⟩
  | disable =>
    refine Or.inr (Or.inr (Or.inr (h_thread hn fun hc => ?_)))
    exact ⟨hc, Or.inl hc, rfl, rfl, rfl, Or.inl ⟨rfl, rfl⟩⟩
  | callNow =>
    refine Or.inr (Or.inr (Or.inr (h_thread hn fun hc => ?_)))
    exact ⟨hc, Or.inr (Or.inr rfl), rfl, rfl, rfl, Or.inl ⟨rfl, rfl⟩⟩
  | getCapture =>
    refine Or.inr (Or.inr (Or.inr (h_thread hn fun hc => ?_)))
    exact ⟨hc, Or.inl hc, rfl, rfl, rfl, Or.inr ⟨rfl, rfl⟩⟩
  | enable | sleepUntil w | semTake =>
    refine Or.inr (Or.inr (Or.inr (h_thread hn fun hc => ?_)))
    exact ⟨hc.1, Or.inl hc.1, rfl, rfl, rfl, Or.inl ⟨rfl, rfl⟩⟩

/-! ### What the handler and the clock leave alone -/

@[simp] theorem handlerStep_ticks (s : State) (h : HandlerPc) :
    (handlerStep s h).1.regs.ticks = s.regs.ticks := by
  cases h with
  | readCcr sr => simp only [handlerStep]; split <;> [rfl; (split <;> rfl)]
  | _ => rfl

@[simp] theorem handlerStep_calls (s : State) (h : HandlerPc) :
    (handlerStep s h).1.hist.calls = s.hist.calls := by
  cases h with
  | readCcr sr => simp only [handlerStep]; split <;> [rfl; (split <;> rfl)]
  | _ => rfl

@[simp] theorem Hist.advance_calls (h : Hist) (r : Regs) : (h.advance r).calls = h.calls := by
  unfold Hist.advance; split <;> rfl

@[simp] theorem Hist.advance_aFirst (h : Hist) (r : Regs) : (h.advance r).aFirst = h.aFirst := by
  unfold Hist.advance; split <;> rfl

@[simp] theorem Hist.advance_pendFirst (h : Hist) (r : Regs) :
    (h.advance r).pendFirst = h.pendFirst := by
  unfold Hist.advance; split <;> rfl

@[simp] theorem Hist.advance_aSecond (h : Hist) (r : Regs) :
    (h.advance r).aSecond = h.aSecond := by
  unfold Hist.advance; split <;> rfl

@[simp] theorem Regs.advance_ticks (r : Regs) (n : ℕ) : (r.advance n).ticks = r.ticks + n := rfl

@[simp] theorem Regs.edge_ticks (r : Regs) (gpsext : Bool) : (r.edge gpsext).ticks = r.ticks := by
  unfold Regs.edge; split <;> rfl

@[simp] theorem Regs.edge_uif (r : Regs) (gpsext : Bool) :
    (r.edge gpsext).sr.uif = r.sr.uif := by
  unfold Regs.edge; split <;> rfl

end Tim3
end Laureline
