import Laureline.Lib.Average
import Laureline.Lib.Binary64
import Mathlib.Data.UInt

/-!
# The phase-locked loop

`pllmath.c` in exact arithmetic: a `double` is a rational number and an `int` a whole one. `pllMath`
takes one phase error: the averages (`State.average`), the corrections (`State.correct`), and then
either the loop has failed and starts again (`State.loosen`) or it is tightened step by step
(`State.steer`).
-/

namespace Laureline

namespace Pll

open Binary64 Average

/-- `ABLE_PLL_UNLOCKED`. -/
def ablePllUnlocked : UInt32 := (1 : UInt32) <<< (1 : UInt32)

/-- `struct pll_state`, and `sys_able`. -/
structure State where
  y : ℚ
  ly : ℚ
  my : ℚ
  lmy : ℚ
  dy : ℚ
  ddy : ℚ
  sdy : ℚ
  ay : ℚ
  say : ℚ
  a : ℚ
  b : ℚ
  c : ℚ
  z : ℚ
  wa : ℚ
  wamin : ℚ
  wamax : ℚ
  j : ℕ
  mj : ℚ
  dl : ℤ
  zc : ℕ
  st : ℕ
  -- parameters
  go3 : ℚ
  t3 : ℚ
  mj0 : ℚ
  dl0 : ℚ
  wa0 : ℚ
  b0 : ℚ
  be : ℕ
  ce : ℕ
  sysAble : UInt32

/-- At power-up. -/
def powerUp : State where
  y := 0
  ly := 0
  my := 0
  lmy := 0
  dy := 0
  ddy := 0
  sdy := 0
  ay := 0
  say := 0
  a := 0
  b := 0
  c := 0
  z := 0
  wa := 0
  wamin := 0
  wamax := 0
  j := 0
  mj := 0
  dl := 0
  zc := 0
  st := 0
  go3 := 0
  t3 := 0
  mj0 := 0
  dl0 := 0
  wa0 := 0
  b0 := 0
  be := 0
  ce := 0
  sysAble := 0

namespace State

variable (s : State)

/-- `init_pllmath`. -/
def initPllmath : State :=
  { s with
    b0 := 0, be := 2, ce := 4, mj0 := 8, dl0 := 10, go3 := 1 / 1000, t3 := 10, wa0 := 1 / 10
    wamin := 0, wamax := 1 / 10 }

/-- `pll_reset`. -/
def pllReset : State := { s with st := 0, sysAble := s.sysAble ||| ablePllUnlocked }

/-- `pll_poll`. -/
def pllPoll : ℚ × State :=
  let s := if 5 ≤ s.st then { s with b := s.b + s.c } else s
  (s.b, s)

/-! ### `pll_math` -/

/-- The loop is started anew by the next call of `pll_math`. -/
def restarts : Prop := s.st = 0 ∨ |s.b| > 128 / 1000000

instance : Decidable s.restarts := inferInstanceAs (Decidable (_ ∨ _))

/-- "If the state is zero, we need to initialize everything". -/
def restart : State :=
  { s with
    mj := s.mj0, dl := trunc s.dl0, wa := s.wa0, j := 0, b := 0, c := 0, my := 0, ly := 0, lmy := 0
    dy := 0, say := 0, sdy := 0, zc := 0, st := 1, sysAble := s.sysAble ||| ablePllUnlocked }

/-- From the timer to `ly = y`. -/
def average : State :=
  let j := if s.j < s.mj then s.j + 1 else s.j
  let my := approach j s.my s.y
  let dy := s.y - s.ly
  let ay := |dy - s.dy|
  { s with
    dl := s.dl - 1, j, my
    zc := if s.lmy * my < 0 then 0 else s.zc + 1
    lmy := my, ddy := s.dy, dy
    sdy := approach j s.sdy |dy|
    ay
    say := approach j s.say ay
    ly := s.y }

/-- "Ring up our corrections". -/
def correct : State :=
  let a := s.y * s.wa
  let b := if 3 ≤ s.st then s.b + s.y * s.wa ^ s.be else s.b
  let (b, c) := if 5 ≤ s.st then (b + s.c, s.c + s.y * s.wa ^ s.ce) else (b, s.c)
  { s with a, b, c, z := a + s.b0 + b }

/-- The sanity checks. -/
def check : State := if s.restarts then s.restart else s

/-- What `pll_math(y)` does before it looks at the result. -/
def measure (y : ℚ) : State := (check { s with y := -y }).average.correct

/-- No zero crossing in a long time, or a rapid excursion. -/
def fails : Prop := 4 ≤ s.st ∧ (s.zc > 200 / s.wa ∨ |s.my| > 20 * s.sdy)

instance : Decidable s.fails := inferInstanceAs (Decidable (_ ∧ _))

/-- The limit is jacked up, and the loop starts again. -/
def loosen : State :=
  { s with
    wamin := if s.wamin / (4 / 5) < s.wamax then s.wa / (4 / 5) else s.wamin
    st := 0, sysAble := s.sysAble ||| ablePllUnlocked }

/-- The timer, set to `mj`. -/
def rearm : State := { s with dl := trunc s.mj }

/-- The ratio is tightened down to the limit. -/
def squeeze : State :=
  if s.wa > s.wamin then State.rearm { s with wa := s.wa * (9 / 10), mj := s.mj / (4 / 5) }
  else s.rearm

/-- The timer of the third order. -/
def stretch : State := if 5 ≤ s.st then { s with dl := trunc (s.dl * s.t3) } else s

/-- The third order starts. -/
def third : State := if s.st = 4 ∧ s.wa < s.go3 then { s with st := 5 } else s

/-- States 4 and 5, once the timer has expired. -/
def tighten : State :=
  if 4 ≤ s.st ∧ |s.my| < s.say * (1 / 10) ∧ s.zc < 10 then s.squeeze.stretch else s

/-- The five states, once the timer has expired. -/
def advance : State :=
  if s.st = 1 ∧ |s.y| < s.sdy + 128 / 1000000 / s.wa then { s.rearm with st := 2 }
  else if s.st = 2 then { s.rearm with st := 3, sysAble := s.sysAble &&& ~~~ablePllUnlocked }
  else if s.st = 3 ∧ |s.my| < s.say * (1 / 2) ∧ s.zc < 10 then { s.rearm with st := 4 }
  else s.third.tighten

/-- The timer is set again while the average is too far off. -/
def wait : State := if 4 ≤ s.st ∧ |s.my| > s.sdy * (1 / 5) then s.rearm else s

/-- The rest of `pll_math` where the loop has not failed. -/
def steer : State := if 0 ≤ s.wait.dl then s.wait else s.wait.advance

/-- `pll_math`. -/
def pllMath (y : ℚ) : ℚ × State :=
  let s := s.measure y
  (s.z, if s.fails then s.loosen else s.steer)

end State

/-- The calls from `vtimer_thread`. -/
inductive Call
  | init
  | reset
  | poll
  | math (y : ℚ)

/-- One call. -/
def State.call (s : State) : Call → State
  | .init => s.initPllmath
  | .reset => s.pllReset
  | .poll => s.pllPoll.2
  | .math y => (s.pllMath y).2

/-- The calls after `init_pllmath`. -/
def run (calls : List Call) : State := calls.foldl State.call powerUp.initPllmath

end Pll

end Laureline
