import Laureline.Lib.Machine
import Laureline.Vtimer.Clock

/-!
# The clock thread and the NTP server

The loop of `pll_thread`, cut where the thread can block (in `log_write` and in
`vtimer_sleep_until`) and at each reading of the tick count. The thread has the
highest priority: the NTP server and the parsers that set the time of day run only
while it is blocked, and they can run at every point where it is blocked. Ticks
pass at any time.

What the thread takes from elsewhere is left open and given anew for every piece
of the loop (`Inputs`): captures, phase offsets, the PLL state, the correction of
the PLL, monotonic readings, and the values of conversions that C leaves
undefined.

* `State.run` is one piece of the loop, from a `Pc` to the next.
* `Action` has besides it the tick, the arrival of a time of day, and the two
  accesses of `ntp_recv`: the flags for the stratum, then the clock for the
  timestamp.
-/

namespace Laureline

/-! ### The clock -/

namespace Vtimer

/-- `kern_freq`, with a value for the rate in the undefined case. -/
def kernFreqOr (v : Vtimer) (f : Double) (other : ℕ) : Vtimer :=
  (v.kernFreq f).getD { v with vtRate := other }

/-- The first line of `vtimer_step`, with a value for the undefined conversion. -/
def stepBaseOr (v : Vtimer) (dd : Double) (other : ℤ) : Vtimer :=
  match dd with
  | .fin q => (v.stepBase q).getD { v with vtLast := u64 (v.vtLast + other) }
  | _ => { v with vtLast := u64 (v.vtLast + other) }

end Vtimer

namespace Thread

/-! ### The state -/

/-- The bits of `status_flags`. -/
structure Status where
  ppsOk : Bool := false
  todOk : Bool := false
  pllOk : Bool := false
  usedQuant : Bool := false
deriving DecidableEq, Repr

/-- `STATUS_READY`: both bits are set. -/
def Status.ready (f : Status) : Bool := f.pllOk && f.todOk

/-- Where the thread is. The names in `log…` and `sleep…` are the calls that can
block; the others are the pieces of code in between. -/
inductive Pc
  /-- The head of the loop, up to the check of `STATUS_PLL_OK` for a capture. -/
  | top
  | logUnlocked
  | logLocked
  /-- The check against `STEP_THRESH`. -/
  | steps
  | logStepped
  /-- The check of `STATUS_PPS_OK` for a capture. -/
  | seen
  | logDetected
  /-- `last_pps = xTaskGetTickCount()`. -/
  | mark
  /-- The check of `STATUS_PPS_OK` without a capture. -/
  | gone
  | logInvalid
  /-- The check of `STATUS_PLL_OK` without a capture. -/
  | hold
  | logTimedOut
  /-- The report of the holdover test. -/
  | report
  | logOffset
  /-- `kern_freq`, the update of the clock, and the comparison with `utc_next`. -/
  | freq
  /-- `vtimer_step(tmps)`. -/
  | apply
  | logTime
  /-- The update after the step. -/
  | settle
  | correct
  | logCorrect
  | stats
  | logStats
  | sleepTop
  | sleepBlink
  | sleepNext
deriving DecidableEq, Repr

namespace Pc

/-- The thread sleeps between two iterations. -/
def asleep : Pc → Bool
  | sleepTop | sleepBlink | sleepNext => true
  | _ => false

/-- The thread is blocked. -/
def blocked : Pc → Bool
  | logUnlocked | logLocked | logStepped | logDetected | logInvalid | logTimedOut | logOffset |
    logTime | logCorrect | logStats => true
  | pc => pc.asleep

end Pc

/-- What an iteration has found at its flag checks. -/
inductive Outcome
  /-- A capture, which it processed. -/
  | capture
  /-- No capture to process; the ticks since the last one that was, if any. -/
  | missing (age : Option ℕ)
deriving DecidableEq, Repr

/-- A received time of day that the clock has been compared with. -/
structure Compared where
  received : ℕ
  /-- `vt_last` at the comparison. -/
  before : ℕ
  /-- `vt_last` after the first line of `vtimer_step`, if that was called. -/
  stepped : Option ℕ
deriving DecidableEq, Repr

/-- What has happened, besides what the program keeps. -/
structure History where
  /-- `pll_state.st` at the flag check of the last capture that was processed. -/
  st : Option ℤ := none
  /-- The tick when the last capture was processed. -/
  captured : Option ℕ := none
  /-- The tick of the flag checks of the last iteration. -/
  checked : Option ℕ := none
  /-- What the last iteration found there. -/
  outcome : Option Outcome := none
deriving DecidableEq, Repr

/-- A request to which the NTP server has given a stratum. -/
structure Pending where
  stratum : ℕ
  /-- Where the clock thread was. -/
  pc : Pc
  hist : History
deriving DecidableEq, Repr

/-- A reply, with its timestamp. -/
structure Reply extends Pending where
  timestamp : ℕ
  /-- The last comparison of the clock before the timestamp was read. -/
  compared : Option Compared
deriving DecidableEq, Repr

/-- The clock thread, the server and what they share. -/
structure State where
  pc : Pc
  /-- The ticks since the scheduler was started. -/
  time : ℕ
  clock : Vtimer
  status : Status
  -- the static variables of `pll_thread`
  tmp : ℕ
  oldStatus : Status
  delta : Double
  tmps : ℤ
  last : ℕ
  lastPps : ℕ
  desync : ℕ
  nextReport : ℕ
  /-- The request that `ntp_recv` is working on. -/
  request : Option Pending
  -- history variables
  hist : History
  compared : Option Compared
  replies : List Reply
deriving DecidableEq

/-- What a piece of the loop takes from elsewhere. -/
structure Inputs where
  /-- `monotonic_get_capture`. -/
  capture : ℕ
  /-- `cfg.flags & FLAG_HOLDOVER_TEST`. -/
  holdoverTest : Bool
  /-- `cfg.loopstats_interval`. -/
  loopstatsInterval : ℕ
  /-- `vtimer_get_frac_delta`, and whether it used a correction. -/
  delta : Double
  usedQuant : Bool
  /-- `pll_state.st`. -/
  st : ℤ
  /-- `pll_math` or `pll_poll`. -/
  ppb : Double
  /-- `monotonic_now`. -/
  mono : ℕ
  /-- The rate and the step in cases that C leaves undefined. -/
  otherRate : ℕ
  otherStep : ℤ

/-! ### The loop -/

/-- `pdMS_TO_TICKS`, at 100 ticks a second. -/
def msToTicks (ms : ℕ) : ℕ := u32 (ms * 100) / 1000

/-- `SETTLED_THRESH`. -/
def settledThresh : ℚ := Binary64.round (5 / 1000000)

/-- `STEP_THRESH`. -/
def stepThresh : ℚ := Binary64.round (20 / 1000)

namespace State

/-- `xTaskGetTickCount() - last_pps`. -/
def sincePps (s : State) : ℕ := u32 ((u32 s.time : ℤ) - s.lastPps)

/-- One piece of the loop of `pll_thread`. -/
def run (holdover : ℕ) (s : State) (i : Inputs) : State :=
  match s.pc with
  | .top =>
    let s := { s with tmp := i.capture, oldStatus := s.status }
    -- in a holdover test captures are not processed
    if s.tmp ≠ 0 ∧ !i.holdoverTest then
      let s := { s with
        delta := i.delta
        status.usedQuant := i.usedQuant
        hist.st := some i.st }
      if s.status.pllOk then { s with pc := if i.st < 3 then .logUnlocked else .steps }
      else { s with
        pc := if 3 ≤ i.st ∧ s.delta.gt (-settledThresh) ∧ s.delta.lt settledThresh then .logLocked
          else .steps }
    else { s with pc := .gone }
  | .logUnlocked => { s with status.pllOk := false, pc := .steps }
  | .logLocked => { s with status.pllOk := true, pc := .steps }
  | .steps =>
    if s.delta.lt (-stepThresh) ∨ s.delta.gt stepThresh then
      let s := { s with desync := (s.desync + 1) % 256 }
      -- the fifth offset in a row that is too large
      if 5 ≤ s.desync then
        { s with
          clock := (s.clock.stepBaseOr s.delta.neg i.otherStep).updateI i.mono
          desync := 0
          pc := .logStepped }
      else { s with pc := .seen }
    else { s with desync := 0, pc := .seen }
  | .logStepped => { s with pc := .seen }
  | .seen =>
    { s with pc := if s.sincePps < msToTicks 1100 ∧ !s.status.ppsOk then .logDetected else .mark }
  | .logDetected => { s with status.ppsOk := true, pc := .mark }
  | .mark =>
    -- `pll_math` comes here; its result is used in `freq`
    { s with
      lastPps := u32 s.time
      hist.captured := some s.time
      hist.checked := some s.time
      hist.outcome := some .capture
      pc := .freq }
  | .gone =>
    { s with pc := if msToTicks 5000 ≤ s.sincePps ∧ s.status.ppsOk then .logInvalid else .hold }
  | .logInvalid => { s with status.ppsOk := false, pc := .hold }
  | .hold =>
    -- the ticks are read anew: the log may have taken some time
    { s with
      hist.checked := some s.time
      hist.outcome := some (.missing (s.hist.captured.map fun t => s.time - t))
      pc := if u32 (msToTicks 1000 * holdover) ≤ s.sincePps ∧ s.status.pllOk then .logTimedOut
        else .report }
  | .logTimedOut => { s with status.pllOk := false, pc := .report }
  | .report =>
    if s.tmp ≠ 0 ∧ s.nextReport = 0 then
      { s with delta := i.delta, status.usedQuant := i.usedQuant, pc := .logOffset }
    else { s with pc := .freq }
  | .logOffset => { s with pc := .freq }
  | .freq =>
    let clock := (s.clock.kernFreqOr i.ppb i.otherRate).updateI i.mono
    let s := { s with clock, tmps := 0, last := clock.vtLast }
    if s.clock.utcNext ≠ 0 then
      -- interrupts are masked up to the flag, and no call that blocks comes before the step
      let tmps : ℤ := s.clock.utcNext - (s.last / 2 ^ 32 : ℕ)
      { s with
        tmps
        clock.utcNext := 0
        status.todOk := true
        compared := some ⟨s.clock.utcNext, s.last, none⟩
        pc := if tmps ≠ 0 then .apply else .correct }
    else { s with pc := .correct }
  | .apply =>
    let clock := s.clock.stepBaseOr (.fin (Binary64.round s.tmps)) i.otherStep
    { s with
      clock := clock.updateI i.mono
      compared := s.compared.map fun c => { c with stepped := some clock.vtLast }
      pc := .logTime }
  | .logTime => { s with pc := .settle }
  | .settle =>
    let clock := s.clock.updateI i.mono
    { s with clock, last := clock.vtLast, pc := .correct }
  | .correct =>
    { s with pc := if !s.oldStatus.todOk ∧ s.status.todOk then .logCorrect else .stats }
  | .logCorrect => { s with pc := .stats }
  | .stats =>
    if s.nextReport = 0 then
      -- `next_report` is 16 bits wide
      { s with nextReport := (i.loopstatsInterval + 65535) % 65536, pc := .logStats }
    else { s with nextReport := s.nextReport - 1, pc := .sleepTop }
  | .logStats => { s with pc := .sleepTop }
  | .sleepTop => { s with pc := .sleepBlink }
  | .sleepBlink => { s with pc := .sleepNext }
  | .sleepNext => { s with pc := .top }

end State

/-! ### The machine -/

/-- What the two threads and the hardware do. -/
inductive Action
  /-- The clock thread runs, or goes on after a call that blocked it. -/
  | run (i : Inputs)
  /-- The tick interrupt. -/
  | tick
  /-- `vtimer_set_utc` or `vtimer_set_gps`, with the seconds it computes. -/
  | setTime (seconds : UInt32)
  /-- `ntp_recv` reads the flags. -/
  | stratum
  /-- `ntp_recv` reads the clock. -/
  | stamp (mono : ℕ)

/-- `vtimer_start`, and the zeros of the static variables. -/
def initial (systemFrequency : ℕ) : State where
  pc := .top
  time := 0
  clock := .start systemFrequency
  status := {}
  tmp := 0
  oldStatus := {}
  delta := .fin 0
  tmps := 0
  last := 0
  lastPps := 0
  desync := 0
  nextReport := 0
  request := none
  hist := {}
  compared := none
  replies := []

/-- A step, if it is possible. -/
def next (holdover : ℕ) (s : State) : Action → Option State
  | .run i => some (s.run holdover i)
  | .tick => some { s with time := s.time + 1 }
  | .setTime seconds =>
    if s.pc.blocked then some { s with clock.utcNext := seconds.toNat } else none
  | .stratum =>
    if s.pc.blocked ∧ s.request = none then
      some { s with request := some ⟨if s.status.ready then 1 else 16, s.pc, s.hist⟩ }
    else none
  | .stamp mono =>
    match s.request with
    | some q =>
      if s.pc.blocked then
        some { s with request := none, replies := ⟨q, s.clock.now mono, s.compared⟩ :: s.replies }
      else none
    | none => none

/-- The clock thread with its environment. -/
def machine (systemFrequency holdover : ℕ) : Machine State Action where
  init := initial systemFrequency
  next := next holdover

/-- The flag checks of two successive iterations are at most 10 s apart. -/
def Apart (s : State) : Action → Prop
  | .run _ => (s.pc = .mark ∨ s.pc = .hold) → ∀ t ∈ s.hist.checked, s.time ≤ t + 1000
  | _ => True

instance (s : State) (a : Action) : Decidable (Apart s a) := by
  cases a <;> unfold Apart <;> infer_instance

end Thread
end Laureline
