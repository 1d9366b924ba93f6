import Laureline.Lib.Machine
import Laureline.Lib.Nibble
import Mathlib.Logic.Function.Basic

/-!
# The DMA streams

`dma.c`: a table of twelve channels on two controllers, and twelve interrupt handlers that share
`dma_service_irq`. A handler is cut at its accesses to the interrupt registers, so that transfers
complete and other handlers run in between; `dma_allocate`, `dma_release`, `dma_enable` and
`dma_disable` are called at any time.

A write to `IFCR` clears the flags in `ISR` whose bits are written as 1.
-/

namespace Laureline

namespace Dma

open Nibble

/-- The two controllers. -/
inductive Ctrl
  | dma1
  | dma2
deriving DecidableEq

/-- The index of a stream. -/
abbrev Stream := Fin 12

/-- `dma_ch_t`. `ctrl` is the controller of `ch` and of `ifcr`. -/
structure DmaCh where
  ctrl : Ctrl
  index : Stream
  ishift : ℕ
deriving DecidableEq

/-- `dma_streams`. -/
def dmaStreams : Vector DmaCh 12 :=
  #v[⟨.dma1, 0, 0⟩, ⟨.dma1, 1, 4⟩, ⟨.dma1, 2, 8⟩, ⟨.dma1, 3, 12⟩, ⟨.dma1, 4, 16⟩, ⟨.dma1, 5, 20⟩,
    ⟨.dma1, 6, 24⟩, ⟨.dma2, 7, 0⟩, ⟨.dma2, 8, 4⟩, ⟨.dma2, 9, 8⟩, ⟨.dma2, 10, 12⟩, ⟨.dma2, 11, 16⟩]

/-- The arguments of `dma_service_irq`. -/
structure Service where
  dma : Ctrl
  ch : DmaCh

/-- `DMA1_Channel1_IRQHandler`. -/
def dma1Channel1IRQHandler : Service := ⟨.dma1, dmaStreams[0]⟩

/-- `DMA1_Channel2_IRQHandler`. -/
def dma1Channel2IRQHandler : Service := ⟨.dma1, dmaStreams[1]⟩

/-- `DMA1_Channel3_IRQHandler`. -/
def dma1Channel3IRQHandler : Service := ⟨.dma1, dmaStreams[2]⟩

/-- `DMA1_Channel4_IRQHandler`. -/
def dma1Channel4IRQHandler : Service := ⟨.dma1, dmaStreams[3]⟩

/-- `DMA1_Channel5_IRQHandler`. -/
def dma1Channel5IRQHandler : Service := ⟨.dma1, dmaStreams[4]⟩

/-- `DMA1_Channel6_IRQHandler`. -/
def dma1Channel6IRQHandler : Service := ⟨.dma1, dmaStreams[5]⟩

/-- `DMA1_Channel7_IRQHandler`. -/
def dma1Channel7IRQHandler : Service := ⟨.dma1, dmaStreams[6]⟩

/-- `DMA2_Channel1_IRQHandler`, which passes `DMA1` too. -/
def dma2Channel1IRQHandler : Service := ⟨.dma1, dmaStreams[7]⟩

/-- `DMA2_Channel2_IRQHandler`, which passes `DMA1` too. -/
def dma2Channel2IRQHandler : Service := ⟨.dma1, dmaStreams[8]⟩

/-- `DMA2_Channel3_IRQHandler`, which passes `DMA1` too. -/
def dma2Channel3IRQHandler : Service := ⟨.dma1, dmaStreams[9]⟩

/-- `DMA2_Channel4_IRQHandler`, which passes `DMA1` too. -/
def dma2Channel4IRQHandler : Service := ⟨.dma1, dmaStreams[10]⟩

/-- `DMA2_Channel5_IRQHandler`, which passes `DMA1` too. -/
def dma2Channel5IRQHandler : Service := ⟨.dma1, dmaStreams[11]⟩

/-- The handler of the vector of each stream. -/
def vectors : Vector Service 12 :=
  #v[dma1Channel1IRQHandler, dma1Channel2IRQHandler, dma1Channel3IRQHandler,
    dma1Channel4IRQHandler, dma1Channel5IRQHandler, dma1Channel6IRQHandler,
    dma1Channel7IRQHandler, dma2Channel1IRQHandler, dma2Channel2IRQHandler,
    dma2Channel3IRQHandler, dma2Channel4IRQHandler, dma2Channel5IRQHandler]

/-- Where a handler is in `dma_service_irq`. -/
inductive Pc
  /-- `flags = (dma->ISR >> ch->ishift) & 0xF`. -/
  | read
  /-- `dma->IFCR = 0xF << ch->ishift`. -/
  | clear
  /-- The call of `isr_funcs[ch->index]`. -/
  | call
deriving DecidableEq

/-- A handler that has been entered. -/
structure Frame where
  vector : Stream
  pc : Pc
  flags : BitVec 32

/-- The registers, the tables of `dma.c` and the handlers that run. -/
structure State where
  isr : Ctrl → BitVec 32
  /-- `DMA_CCR1_EN` of each channel. -/
  en : Stream → Bool
  /-- The vectors that are enabled. -/
  nvic : Stream → Bool
  isrFuncs : Stream → Option ℕ
  isrParams : Stream → ℕ
  /-- The handlers, the innermost first. -/
  stack : List Frame
  -- history variables
  /-- The calls of `isr_funcs`: the function, its parameter and the flags. -/
  calls : List (ℕ × ℕ × BitVec 32)
  /-- The flags that were raised and neither passed on nor dropped by `dma_disable`. -/
  owed : Stream → BitVec 32

/-- A call from outside of the handlers, an event of the hardware, or a step of a handler. -/
inductive Action
  | allocate (c : Stream) (func : Option ℕ) (param : ℕ)
  | release (c : Stream)
  | enable (c : Stream)
  | disable (c : Stream)
  /-- A transfer raises flags. -/
  | complete (c : Stream) (flags : BitVec 4)
  /-- A handler is entered. -/
  | irq (c : Stream)
  /-- The next access of the innermost handler. -/
  | step

namespace State

variable (s : State)

/-- The flags of a stream. -/
def flagsOf (c : Stream) : BitVec 32 :=
  nibble (s.isr (dmaStreams.get c).ctrl) (dmaStreams.get c).ishift

/-- A write of `0xF << ishift` to `IFCR`. -/
def writeIfcr (dma : Ctrl) (ishift : ℕ) : State :=
  { s with isr := Function.update s.isr dma (clearNibble (s.isr dma) ishift) }

/-- `dma_disable`. -/
def dmaDisable (c : Stream) : State :=
  { s.writeIfcr (dmaStreams.get c).ctrl (dmaStreams.get c).ishift with
    en := Function.update s.en c false, owed := Function.update s.owed c 0 }

/-- `dma_allocate`. -/
def dmaAllocate (c : Stream) (func : Option ℕ) (param : ℕ) : State :=
  { s.dmaDisable c with
    isrFuncs := Function.update s.isrFuncs c func
    isrParams := Function.update s.isrParams c param
    nvic := Function.update s.nvic c true }

/-- `dma_release`. -/
def dmaRelease (c : Stream) : State :=
  { s.dmaDisable c with nvic := Function.update s.nvic c false }

/-- A transfer of the stream raises flags. -/
def complete (c : Stream) (flags : BitVec 4) : State :=
  let ch := dmaStreams.get c
  { s with
    isr := Function.update s.isr ch.ctrl (orNibble (s.isr ch.ctrl) ch.ishift flags)
    owed := Function.update s.owed c (s.owed c ||| flags.setWidth 32) }

/-- The next access of the handler `f`, which has interrupted the others. -/
def serviceIrq (f : Frame) (rest : List Frame) : State :=
  let svc := vectors.get f.vector
  match f.pc with
  | .read =>
    { s with
      stack := { f with pc := .clear, flags := nibble (s.isr svc.dma) svc.ch.ishift } :: rest }
  | .clear => { s.writeIfcr svc.dma svc.ch.ishift with stack := { f with pc := .call } :: rest }
  | .call =>
    let index := svc.ch.index
    { s with
      stack := rest
      calls := s.calls ++
        (s.isrFuncs index).toList.map fun func => (func, s.isrParams index, f.flags)
      -- a flag that is up again has been raised since it was cleared
      owed := Function.update s.owed index
        (s.owed index &&& (~~~f.flags ||| s.flagsOf index)) }

/-- The successor under an action. -/
def next (s : State) : Action → Option State
  | .allocate c func param => some (s.dmaAllocate c func param)
  | .release c => some (s.dmaRelease c)
  | .enable c => some { s with en := Function.update s.en c true }
  | .disable c => some (s.dmaDisable c)
  | .complete c flags => if s.en c then some (s.complete c flags) else none
  | .irq c =>
    if s.nvic c ∧ ∀ f ∈ s.stack, f.vector ≠ c then
      some { s with stack := ⟨c, .read, 0⟩ :: s.stack }
    else none
  | .step =>
    match s.stack with
    | [] => none
    | f :: rest => some (s.serviceIrq f rest)

end State

/-- Before the first `dma_allocate`. -/
def start : State where
  isr _ := 0
  en _ := false
  nvic _ := false
  isrFuncs _ := none
  isrParams _ := 0
  stack := []
  calls := []
  owed _ := 0

/-- Threads, handlers and transfers. -/
def machine : Machine State Action := { init := start, next := State.next }

/-! ### The tables -/

/-- The handler of a stream has the stream's own entry of the table. -/
theorem vectors_ch (c : Stream) : (vectors.get c).ch = (dmaStreams.get c) := by
  revert c
  decide

theorem dmaStreams_index (c : Stream) : (dmaStreams.get c).index = c := by
  revert c
  decide

/-- The fields of two streams in a register are the same or apart. -/
theorem ishift_eq_or_apart (c d : Stream) :
    (dmaStreams.get c).ishift = (dmaStreams.get d).ishift ∨
      Apart (dmaStreams.get c).ishift (dmaStreams.get d).ishift := by
  unfold Apart
  revert c d
  decide

/-- No two streams share a field. -/
theorem stream_ext {c d : Stream} (h_ctrl : (dmaStreams.get c).ctrl = (dmaStreams.get d).ctrl)
    (h_ishift : (dmaStreams.get c).ishift = (dmaStreams.get d).ishift) : c = d := by
  revert c d
  decide

/-- The register has room for the field of every stream. -/
theorem ishift_add_le (c : Stream) : (dmaStreams.get c).ishift + 4 ≤ 32 := by
  revert c
  decide

/-- A handler that is given the other controller has a stream of that one in the same field. -/
theorem exists_twin {c : Stream} (h : (vectors.get c).dma ≠ (dmaStreams.get c).ctrl) :
    ∃ d, d ≠ c ∧ (dmaStreams.get d).ctrl = (vectors.get c).dma ∧
      (dmaStreams.get d).ishift = (dmaStreams.get c).ishift := by
  revert c
  decide

end Dma

end Laureline
