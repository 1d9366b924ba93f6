import Laureline.Eeprom.WritePage

/-!
# The I2C driver

`i2c_transact` and `handle_i2c_event` of `i2c.c`, with the peripheral between them and the bus.
The handler runs as a whole whenever the peripheral asks for it; bytes go over the bus in between.

* `State.handleEvent` is the handler, with one definition for each of its branches.
* `Action` has besides it the call, what the bus does, and the return of the call.
* The peripheral has a data register and a shift register. A byte that was read stays in the shift
  register while the data register is full, and the bus waits. `Phase` is how far a transaction is.
* A byte that is read is acknowledged by the peripheral if `ACK` was set before the byte, or before
  the one in front of it if `POS` is set.
* `given` and `wire` are history variables: the buffer with which the transaction was called, and
  its bytes on the bus with whether they were acknowledged.

A transaction in which the device refuses a byte or another master interferes is for
`handle_i2c_error`, and is no run here.
-/

namespace Laureline

namespace I2c

open Eeprom (I2cError)

/-- The place in a transaction. -/
inductive Phase
  | idle
  /-- `SB` is set. -/
  | sb
  /-- The address is being sent. -/
  | address
  /-- `ADDR` is set. -/
  | addr
  | data
deriving DecidableEq, Repr

/-- Where `i2c_transact` is. -/
inductive Pc
  /-- No call is in progress; the last one, if any, has returned. -/
  | returned (rc : Option I2cError)
  /-- `xSemaphoreTake(i2c->sem, portMAX_DELAY)`. -/
  | wait
deriving DecidableEq, Repr

/-- The increment of a `uint8_t`. -/
def inc (i : ℕ) : ℕ := (i + 1) % 256

theorem inc_of_lt {i : ℕ} (h : i < 255) : inc i = i + 1 := Nat.mod_eq_of_lt (by omega)

/-- The registers, and the members of `i2c_t`; `count` and `index` have eight bits. -/
structure State where
  -- CR1
  start : Bool
  stop : Bool
  ack : Bool
  pos : Bool
  -- CR2; ITERREN is set and cleared with ITEVTEN
  itevten : Bool
  itbufen : Bool
  phase : Phase
  dr : Option UInt8
  shift : Option UInt8
  /-- `ACK` at the end of the last byte. -/
  latched : Bool
  /-- No byte follows. -/
  ended : Bool
  -- i2c_t
  addrDir : UInt8
  buf : List UInt8
  count : ℕ
  index : ℕ
  error : I2cError
  sem : Bool
  pc : Pc
  -- history variables
  given : List UInt8
  wire : List (UInt8 × Bool)
deriving DecidableEq

/-- What the caller, the bus and the interrupt do. -/
inductive Action
  /-- `i2c_transact` is called. -/
  | transact (addrDir : UInt8) (buf : List UInt8)
  /-- The start condition is sent. -/
  | started
  /-- The address is sent, and a device has answered. -/
  | addressed
  /-- A byte has been read. -/
  | recv (b : UInt8)
  /-- A byte has been sent and acknowledged. -/
  | sent
  /-- `handle_i2c_event`, and whether its loop at the end takes too long. -/
  | event (late : Bool)
  /-- `i2c_transact` returns. -/
  | ret
deriving DecidableEq, Repr

namespace State

variable (s : State)

/-- `i2c->addr_dir & 1`. -/
def reads : Bool := s.addrDir &&& 1 != 0

/-- `I2C_SR1_RXNE`. -/
def rxne : Bool := s.phase == .data && s.reads && s.dr.isSome

/-- `I2C_SR1_TXE`. -/
def txe : Bool := s.phase == .data && !s.reads && s.dr.isNone

/-- `I2C_SR1_BTF`. -/
def btf : Bool :=
  s.phase == .data && if s.reads then s.dr.isSome && s.shift.isSome
    else s.dr.isNone && s.shift.isNone && !s.wire.isEmpty

/-- The peripheral asks for `handle_i2c_event`. -/
def pending : Bool :=
  s.itevten && (s.phase == .sb || s.phase == .addr || s.btf || s.itbufen && (s.rxne || s.txe))

/-- `i2c->buf[i2c->index++] = d->DR`. -/
def store : State :=
  { s with buf := s.buf.set s.index (s.dr.getD 0), index := inc s.index, dr := s.shift,
           shift := none }

/-- `d->DR = i2c->buf[i2c->index++]`. -/
def load : State :=
  let b := s.buf.getD s.index 0
  match s.shift with
  | none => { s with shift := some b, index := inc s.index }
  | some _ => { s with dr := some b, index := inc s.index }

/-! ### The branches of `handle_i2c_event` -/

/-- Start bit is sent, now send address. -/
def onSb : State :=
  { s with ack := true, index := 0, pos := s.pos || (s.reads && s.count == 2), phase := .address }

/-- Address is sent, now send data. -/
def onAddr : State :=
  if s.reads && s.count == 1 then
    { s with ack := false, phase := .data, stop := true, itbufen := true }
  else if s.reads && s.count == 2 then { s with phase := .data, ack := false, itbufen := false }
  else if s.reads && s.count == 3 then { s with phase := .data, itbufen := false }
  else { s with phase := .data, itbufen := true }

/-- Byte transfer finished. -/
def onBtf : State :=
  if s.reads then
    if s.count > 2 then
      let s := { s with ack := false }.store
      { { s with stop := true }.store with itbufen := true }
    else
      let s := { s with stop := true }.store.store
      { s with index := inc s.index }
  else { s with stop := true, index := inc s.index }

/-- Byte received. -/
def onRxne : State :=
  let s := s.store
  if s.index + 3 = s.count then { s with itbufen := false }
  else if s.index = s.count then { s with index := inc s.index }
  else s

/-- Byte transmitted. -/
def onTxe : State :=
  let s := s.load
  if s.index = s.count then { s with itbufen := false } else s

/-- The end of `handle_i2c_event`. The comparison is of `int`; the loop ends when the stop
condition is sent. -/
def finish (late : Bool) : State :=
  if s.index = s.count + 1 then
    { s with pos := false, itevten := false, itbufen := false, start := false, stop := false,
             phase := .idle, error := if late then .timeout else s.error, sem := true }
  else s

/-- `handle_i2c_event`. -/
def handleEvent (late : Bool) : State :=
  finish (if s.phase = .sb then s.onSb
    else if s.phase = .addr then s.onAddr
    else if s.btf then s.onBtf
    else if s.rxne then s.onRxne
    else if s.txe then s.onTxe
    else s) late

/-! ### Steps -/

/-- `i2c_transact` up to the semaphore. -/
def transact (addrDir : UInt8) (buf : List UInt8) : State :=
  { s with addrDir, buf, count := buf.length % 256, error := .ok, start := true, itevten := true,
           pc := .wait, given := buf, wire := [] }

/-- A byte has come to the shift register, and goes on to the data register if that is free. -/
def recv (b : UInt8) : State :=
  let acked := if s.pos then s.latched else s.ack
  { s with dr := s.dr <|> some b, shift := if s.dr.isSome then some b else none,
           latched := s.ack, ended := !acked || s.stop, wire := s.wire ++ [(b, acked)] }

/-- The successor under an action. -/
def next (s : State) : Action → Option State
  | .transact addrDir buf =>
    match s.pc with
    | .returned _ => some (s.transact addrDir buf)
    | .wait => none
  | .started =>
    if s.start ∧ s.phase = .idle then some { s with start := false, phase := .sb, ended := false }
    else none
  | .addressed =>
    if s.phase = .address then some { s with phase := .addr, latched := s.ack } else none
  | .recv b =>
    if s.phase = .data ∧ s.reads ∧ s.shift = none ∧ s.ended = false then some (s.recv b) else none
  | .sent =>
    if s.phase = .data ∧ s.reads = false then
      s.shift.map fun b => { s with wire := s.wire ++ [(b, true)], shift := s.dr, dr := none }
    else none
  | .event late => if s.pending then some (s.handleEvent late) else none
  | .ret =>
    if s.pc = .wait ∧ s.sem then some { s with sem := false, pc := .returned (some s.error) }
    else none

end State

/-- The device after `i2c_start`. -/
def start : State where
  start := false
  stop := false
  ack := false
  pos := false
  itevten := false
  itbufen := false
  phase := .idle
  dr := none
  shift := none
  latched := false
  ended := false
  addrDir := 0
  buf := []
  count := 0
  index := 0
  error := .ok
  sem := false
  pc := .returned none
  given := []
  wire := []

/-- The driver with its peripheral. -/
def machine : Machine State Action := { init := start, next := State.next }

/-! ### The bus -/

/-- An interrupt is served before the next byte is over, and a transaction has a byte. From 255
bytes on, `index` does not get to `count` + 1, or `count` is not the length. -/
def Timely (s : State) : Action → Prop
  | .transact _ buf => 0 < buf.length ∧ buf.length < 255
  | .recv _ | .sent => s.pending = false
  | _ => True

instance (s : State) : ∀ a, Decidable (Timely s a)
  | .transact _ buf => inferInstanceAs (Decidable (0 < buf.length ∧ buf.length < 255))
  | .recv _ | .sent => inferInstanceAs (Decidable (s.pending = false))
  | .started | .addressed | .event _ | .ret => isTrue trivial

/-! ### Which steps there are -/

section Cases

variable {s s' : State}

/-- What a step does, with the condition under which it happens. -/
inductive Step (s : State) : Action → State → Prop
  | transact {rc : Option I2cError} (addrDir : UInt8) (buf : List UInt8)
      (h_pc : s.pc = .returned rc) : Step s (.transact addrDir buf) (s.transact addrDir buf)
  | started (h_start : s.start = true) (h_phase : s.phase = .idle) :
      Step s .started { s with start := false, phase := .sb, ended := false }
  | addressed (h_phase : s.phase = .address) :
      Step s .addressed { s with phase := .addr, latched := s.ack }
  | recv (b : UInt8) (h_phase : s.phase = .data) (h_reads : s.reads = true)
      (h_shift : s.shift = none) (h_ended : s.ended = false) : Step s (.recv b) (s.recv b)
  | sent {b : UInt8} (h_phase : s.phase = .data) (h_reads : s.reads = false)
      (h_shift : s.shift = some b) :
      Step s .sent { s with wire := s.wire ++ [(b, true)], shift := s.dr, dr := none }
  | event (late : Bool) (h_pending : s.pending = true) : Step s (.event late) (s.handleEvent late)
  | ret (h_pc : s.pc = .wait) (h_sem : s.sem = true) :
      Step s .ret { s with sem := false, pc := .returned (some s.error) }

theorem step_of_next {a : Action} (h : s.next a = some s') : Step s a s' := by
  cases a with
  | transact addrDir buf =>
    -- a call begins only when the last one has returned
    cases h_pc : s.pc <;> simp only [State.next, h_pc, reduceCtorEq, Option.some.injEq] at h
    subst h
    exact .transact addrDir buf h_pc
  | started =>
    simp only [State.next] at h
    split_ifs at h with hc
    obtain rfl := Option.some.inj h
    exact .started hc.1 hc.2
  | addressed =>
    simp only [State.next] at h
    split_ifs at h with hc
    obtain rfl := Option.some.inj h
    exact .addressed hc
  | recv b =>
    simp only [State.next] at h
    split_ifs at h with hc
    obtain rfl := Option.some.inj h
    exact .recv b hc.1 hc.2.1 hc.2.2.1 hc.2.2.2
  | sent =>
    simp only [State.next] at h
    split_ifs at h with hc
    -- what has been sent is the byte in the shift register
    obtain ⟨b, h_shift, rfl⟩ := Option.map_eq_some_iff.mp h
    exact .sent hc.1 hc.2 h_shift
  | event late =>
    simp only [State.next] at h
    split_ifs at h with hc
    obtain rfl := Option.some.inj h
    exact .event late hc
  | ret =>
    simp only [State.next] at h
    split_ifs at h with hc
    obtain rfl := Option.some.inj h
    exact .ret hc.1 hc.2

end Cases

end I2c

end Laureline
