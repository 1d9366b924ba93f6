import Laureline.Lib.Machine
import Mathlib.Logic.Function.Basic

/-!
# A serial port

`serial_write`, `serial_get`, `usart_irq` and `usart_tcie` of `serial.c`, cut at every access to
what the tasks, the interrupts and the hardware share. A port has a DMA stream for what it sends,
or else a queue (`txDma`).

* `State.task` is the next access of a task. A task that has to wait for the mutex, for
  `tcie_sem` or for a place in `tx_q` has none.
* `usart_irq` reads the status register (`Action.irq`) and does the rest with the data register
  (`Action.irqDr`). Tasks do not run in between, but bytes come and go.
* The store to `CR1` in `_serial_putc` sets `TXEIE` whatever was read before it, since no other
  bit of `CR1` ever changes.
* `begun`, `wire`, `arrived` and `got` are history variables: the messages in the order in which
  their tasks got the mutex, the bytes that left the data register, the bytes that came, and those
  that `serial_get` returned.
-/

namespace Laureline

namespace Serial

/-- `SERIAL_TX_SIZE`. -/
def serialTxSize : ℕ := 16

/-- `SERIAL_RX_SIZE`. -/
def serialRxSize : ℕ := 16

/-- The next access of a task, with the bytes that are left. -/
inductive Pc
  /-- No call is in progress. -/
  | idle
  | mutexTake (value : List UInt8)
  /-- From `dma_disable` to the store to `CNDTR`. -/
  | dmaSetup (value : List UInt8)
  | dmaEnable (value : List UInt8)
  | tcieTake
  /-- `while (size--)`, and `xQueueSend` if there is a byte. -/
  | queueSend (value : List UInt8)
  /-- `serial->usart->CR1 |= USART_CR1_TXEIE`. -/
  | setTxeie (value : List UInt8)
  | mutexGive
deriving DecidableEq, Repr

/-- The bytes that the task has not handed over yet. -/
def Pc.left : Pc → List UInt8
  | .dmaSetup value | .dmaEnable value | .queueSend value | .setTxeie value => value
  | .idle | .mutexTake _ | .tcieTake | .mutexGive => []

/-- Between `xSemaphoreTake` and `xSemaphoreGive`. -/
def Pc.inside : Pc → Bool
  | .idle | .mutexTake _ => false
  | _ => true

/-- A port and the tasks `T`. -/
structure State (T : Type) where
  mutex : Option T
  pc : T → Pc
  txQ : List UInt8
  txeie : Bool
  /-- The data register towards the line; `TXE` is set when it is empty. -/
  tdr : Option UInt8
  /-- The stream is enabled, with these bytes left. -/
  dma : Option (List UInt8)
  tcif : Bool
  tcieSem : Bool
  /-- `usart_irq` runs and has read these values of `RXNE` and `TXE`. -/
  isr : Option (Bool × Bool)
  /-- The data register from the line; `RXNE` is set when it is not empty. -/
  rdr : Option UInt8
  rxQ : List UInt8
  -- history variables
  begun : List (List UInt8)
  wire : List UInt8
  arrived : List UInt8
  got : List UInt8

/-- What the threads, the interrupts, the stream and the line do. -/
inductive Action (T : Type)
  /-- `serial_write` is called. -/
  | write (t : T) (value : List UInt8)
  | task (t : T)
  /-- The byte in the data register goes to the line. -/
  | shift
  /-- The stream writes a byte to the data register. -/
  | dmaMove
  /-- The interrupt of the stream calls `usart_tcie`. -/
  | usartTcie
  | irq
  | irqDr
  /-- A byte has come. -/
  | arrive (b : UInt8)
  /-- `serial_get` returns a byte. -/
  | get
deriving DecidableEq, Repr

namespace State

variable {T : Type} [DecidableEq T] (s : State T)

/-- A task goes on. -/
def goto (t : T) (p : Pc) : State T := { s with pc := Function.update s.pc t p }

/-- The next access of a task. -/
def task (txDma : Bool) (t : T) : Option (State T) :=
  match s.pc t with
  | .idle => none
  | .mutexTake value =>
    if s.mutex = none then
      let next := if txDma then Pc.dmaSetup value else .queueSend value
      some { s.goto t next with mutex := some t, begun := s.begun ++ [value] }
    else none
  -- `dma_disable` clears the flags of the stream
  | .dmaSetup value => some { s.goto t (.dmaEnable value) with dma := none, tcif := false }
  | .dmaEnable value => some { s.goto t .tcieTake with dma := some value }
  | .tcieTake => if s.tcieSem then some { s.goto t .mutexGive with tcieSem := false } else none
  | .queueSend [] => some (s.goto t .mutexGive)
  | .queueSend (b :: value) =>
    if s.txQ.length < serialTxSize then
      some { s.goto t (.setTxeie value) with txQ := s.txQ ++ [b] }
    else none
  | .setTxeie value => some { s.goto t (.queueSend value) with txeie := true }
  | .mutexGive => some { s.goto t .idle with mutex := none }

/-- The received byte goes to `rx_q`, if there is one and if there is a place. -/
def received (rxne : Bool) : State T :=
  if rxne ∧ s.rxQ.length < serialRxSize then
    { s with rdr := none, rxQ := s.rxQ ++ s.rdr.toList }
  else { s with rdr := none }

/-- The next byte of `tx_q` goes to the data register. -/
def refill (txDma : Bool) : State T :=
  if txDma then { s with txeie := false }
  else
    match s.txQ with
    | [] => { s with txeie := false }
    | b :: txQ => { s with tdr := some b, txQ }

/-- The successor under an action. -/
def next (txDma : Bool) : Action T → Option (State T)
  | .write t value => if s.pc t = .idle then some (s.goto t (.mutexTake value)) else none
  | .task t => if s.isr = none then s.task txDma t else none
  | .shift => s.tdr.map fun b => { s with tdr := none, wire := s.wire ++ [b] }
  | .dmaMove =>
    match s.dma, s.tdr with
    | some (b :: bs), none => some { s with tdr := some b, dma := some bs, tcif := bs.isEmpty }
    | _, _ => none
  | .usartTcie =>
    if s.isr = none ∧ s.tcif then some { s with tcif := false, dma := none, tcieSem := true }
    else none
  | .irq => if s.isr = none then some { s with isr := some (s.rdr.isSome, s.tdr.isNone) } else none
  | .irqDr =>
    s.isr.map fun (rxne, txe) =>
      let s := s.received rxne
      if txe then { s.refill txDma with isr := none } else { s with isr := none }
  | .arrive b =>
    -- after an overrun the old byte is kept
    some { s with arrived := s.arrived ++ [b], rdr := s.rdr <|> some b }
  | .get =>
    match s.isr, s.rxQ with
    | none, b :: rxQ => some { s with rxQ, got := s.got ++ [b] }
    | _, _ => none

end State

/-- The port as `serial_start` leaves it. -/
def start (T : Type) : State T where
  mutex := none
  pc _ := .idle
  txQ := []
  txeie := false
  tdr := none
  dma := none
  tcif := false
  tcieSem := false
  isr := none
  rdr := none
  rxQ := []
  begun := []
  wire := []
  arrived := []
  got := []

/-- A port with the tasks that use it. -/
def machine (T : Type) [DecidableEq T] (txDma : Bool) : Machine (State T) (Action T) where
  init := start T
  next s := s.next txDma

/-! ### The accesses, one by one -/

section Cases

variable {T : Type} [DecidableEq T] {s s' : State T} {txDma : Bool}

/-- What one access of the task `t` does, with the condition under which it happens. -/
inductive Access (txDma : Bool) (t : T) (s : State T) : State T → Prop
  | mutexTake {value : List UInt8} (hpc : s.pc t = .mutexTake value) (hm : s.mutex = none) :
      Access txDma t s { s.goto t (if txDma then .dmaSetup value else .queueSend value) with
        mutex := some t, begun := s.begun ++ [value] }
  | dmaSetup {value : List UInt8} (hpc : s.pc t = .dmaSetup value) :
      Access txDma t s { s.goto t (.dmaEnable value) with dma := none, tcif := false }
  | dmaEnable {value : List UInt8} (hpc : s.pc t = .dmaEnable value) :
      Access txDma t s { s.goto t .tcieTake with dma := some value }
  | tcieTake (hpc : s.pc t = .tcieTake) (hs : s.tcieSem = true) :
      Access txDma t s { s.goto t .mutexGive with tcieSem := false }
  | sent (hpc : s.pc t = .queueSend []) : Access txDma t s (s.goto t .mutexGive)
  | queueSend {b : UInt8} {value : List UInt8} (hpc : s.pc t = .queueSend (b :: value))
      (hq : s.txQ.length < serialTxSize) :
      Access txDma t s { s.goto t (.setTxeie value) with txQ := s.txQ ++ [b] }
  | setTxeie {value : List UInt8} (hpc : s.pc t = .setTxeie value) :
      Access txDma t s { s.goto t (.queueSend value) with txeie := true }
  | mutexGive (hpc : s.pc t = .mutexGive) : Access txDma t s { s.goto t .idle with mutex := none }

/-- A task does nothing else. -/
theorem access_of_task {t : T} (h : s.task txDma t = some s') : Access txDma t s s' := by
  cases hpc : s.pc t <;> simp only [State.task, hpc, reduceCtorEq, Option.some.injEq] at h
  case mutexTake value =>
    -- the task waits while another one holds the mutex
    by_cases hm : s.mutex = none
    · rw [if_pos hm] at h
      obtain rfl := Option.some.inj h
      exact .mutexTake hpc hm
    · rw [if_neg hm] at h
      exact absurd h (by simp)
  case dmaSetup value =>
    subst h
    exact .dmaSetup hpc
  case dmaEnable value =>
    subst h
    exact .dmaEnable hpc
  case tcieTake =>
    -- it waits for the end of the transfer
    split_ifs at h with hs
    obtain rfl := Option.some.inj h
    exact .tcieTake hpc hs
  case queueSend value =>
    -- it is done, or waits for room in the queue
    cases value with
    | nil =>
      obtain rfl := Option.some.inj h
      exact .sent hpc
    | cons b value =>
      simp only [] at h
      split_ifs at h with hq
      obtain rfl := Option.some.inj h
      exact .queueSend hpc hq
  case setTxeie value =>
    subst h
    exact .setTxeie hpc
  case mutexGive =>
    subst h
    exact .mutexGive hpc

/-- What happens besides the accesses of the tasks. -/
inductive Event (txDma : Bool) (s : State T) : Action T → State T → Prop
  | write {t : T} {value : List UInt8} (hpc : s.pc t = .idle) :
      Event txDma s (.write t value) (s.goto t (.mutexTake value))
  | shift {b : UInt8} (hb : s.tdr = some b) :
      Event txDma s .shift { s with tdr := none, wire := s.wire ++ [b] }
  | dmaMove {b : UInt8} {bs : List UInt8} (hd : s.dma = some (b :: bs)) (hb : s.tdr = none) :
      Event txDma s .dmaMove { s with tdr := some b, dma := some bs, tcif := bs.isEmpty }
  | usartTcie (hi : s.isr = none) (hc : s.tcif = true) :
      Event txDma s .usartTcie { s with tcif := false, dma := none, tcieSem := true }
  | irq (hi : s.isr = none) :
      Event txDma s .irq { s with isr := some (s.rdr.isSome, s.tdr.isNone) }
  | irqRx {rxne : Bool} (hi : s.isr = some (rxne, false)) :
      Event txDma s .irqDr { s.received rxne with isr := none }
  | irqTx {rxne : Bool} (hi : s.isr = some (rxne, true)) :
      Event txDma s .irqDr { (s.received rxne).refill txDma with isr := none }
  | arrive (b : UInt8) : Event txDma s (.arrive b)
      { s with arrived := s.arrived ++ [b], rdr := s.rdr <|> some b }
  | get {b : UInt8} {rxQ : List UInt8} (hi : s.isr = none) (hq : s.rxQ = b :: rxQ) :
      Event txDma s .get { s with rxQ, got := s.got ++ [b] }

/-- A step is an access of a task or one of the events. -/
theorem cases_of_next {a : Action T} (h : (machine T txDma).next s a = some s') :
    (∃ t, a = .task t ∧ s.isr = none ∧ Access txDma t s s') ∨ Event txDma s a s' := by
  have h : s.next txDma a = some s' := h
  cases a with
  | task t =>
    simp only [State.next] at h
    -- no task runs while the interrupt is being served
    split_ifs at h with hi
    exact .inl ⟨t, rfl, hi, access_of_task h⟩
  | write t value =>
    simp only [State.next] at h
    split_ifs at h with hpc
    obtain rfl := Option.some.inj h
    exact .inr (.write hpc)
  | shift =>
    obtain ⟨b, hb, rfl⟩ := Option.map_eq_some_iff.mp h
    exact .inr (.shift hb)
  | dmaMove =>
    simp only [State.next] at h
    split at h
    · next b bs hd hb =>
      obtain rfl := Option.some.inj h
      exact .inr (.dmaMove hd hb)
    · exact absurd h (by simp)
  | usartTcie =>
    simp only [State.next] at h
    split_ifs at h with hc
    obtain rfl := Option.some.inj h
    exact .inr (.usartTcie hc.1 hc.2)
  | irq =>
    simp only [State.next] at h
    split_ifs at h with hi
    obtain rfl := Option.some.inj h
    exact .inr (.irq hi)
  | irqDr =>
    obtain ⟨⟨rxne, txe⟩, hi, rfl⟩ := Option.map_eq_some_iff.mp h
    -- what the handler does is decided by the flags it has read
    cases txe with
    | false => exact .inr (.irqRx hi)
    | true => exact .inr (.irqTx hi)
  | arrive b =>
    obtain rfl := Option.some.inj h
    exact .inr (.arrive b)
  | get =>
    simp only [State.next] at h
    split at h
    · next b rxQ hi hq =>
      obtain rfl := Option.some.inj h
      exact .inr (.get hi hq)
    · exact absurd h (by simp)

theorem goto_self (t : T) (p : Pc) : (s.goto t p).pc t = p := Function.update_self ..

theorem goto_of_ne {t u : T} (h : u ≠ t) (p : Pc) : (s.goto t p).pc u = s.pc u :=
  Function.update_of_ne h ..

/-! ### What the interrupt leaves alone -/

omit [DecidableEq T]

theorem received_tasks (s : State T) (rxne : Bool) :
    (s.received rxne).pc = s.pc ∧ (s.received rxne).mutex = s.mutex ∧
      (s.received rxne).isr = s.isr := by
  unfold State.received
  split_ifs <;> exact ⟨rfl, rfl, rfl⟩

theorem refill_tasks (s : State T) (txDma : Bool) :
    (s.refill txDma).pc = s.pc ∧ (s.refill txDma).mutex = s.mutex := by
  unfold State.refill
  split_ifs
  · exact ⟨rfl, rfl⟩
  · split <;> exact ⟨rfl, rfl⟩

end Cases

end Serial

end Laureline
