import Laureline.Lib.Bytes
import Laureline.Lib.Machine
import Laureline.Lib.Ring
import Mathlib.Algebra.Group.Fin.Basic

/-!
# The receive ring

`ethernetif_input` of `tcpip.c` with `mac_get_rx_descriptor`, `mac_read_rx_descriptor` and
`mac_release_rx_descriptor` of `eth_mac.c`, cut at every access to a descriptor, with the DMA
running in between. The DMA works on the descriptors in ring order. It fills the current one, if
its OWN bit is set, and clears the bit with the same store that writes the status (`Entry`);
otherwise it is suspended until a frame arrives or a poll demand is written.

* `State.driver` is the next access of the driver.
* `Action` has besides it the call, the outcome of `pbuf_alloc`, and the DMA.
* The reset state is that of `mac_start`. `stored`, `answers` and `handled` are history
  variables, and so are `passed` and `released`, the numbers of descriptors that `rx_ptr` has
  passed and that the DMA was given back.

What is proved of it is in the next module.
-/

namespace Laureline

namespace Mac

namespace Rx

open Bytes RingSlot

/-! ### Descriptors -/

/-- `RX_BUFS`. -/
def rxBufs : ℕ := 4

instance : NeZero rxBufs := ⟨by decide⟩

/-- `MAC_BUF_SIZE`. -/
def macBufSize : ℕ := 1522

/-- The place of a descriptor in `rx_descs`; `des_next` is the following place. -/
abbrev Pos := Fin rxBufs

/-- A word of a descriptor. -/
abbrev Word := BitVec 32

/-- `STM32_RDES0_OWN`. -/
def rdes0Own : Word := 0x80000000

/-- `STM32_RDES0_AFM`. -/
def rdes0Afm : Word := 0x40000000

/-- `STM32_RDES0_FL_MASK`. -/
def rdes0FlMask : Word := 0x3FFF0000

/-- `STM32_RDES0_ES`. -/
def rdes0Es : Word := 0x00008000

/-- `STM32_RDES0_FS`. -/
def rdes0Fs : Word := 0x00000200

/-- `STM32_RDES0_LS`. -/
def rdes0Ls : Word := 0x00000100

/-- `STM32_RDES0_IPHCE`. -/
def rdes0Iphce : Word := 0x00000080

/-- `STM32_RDES0_FT`. -/
def rdes0Ft : Word := 0x00000020

/-- `STM32_RDES0_PCE`. -/
def rdes0Pce : Word := 0x00000001

/-- `des0 & STM32_RDES0_OWN`. -/
def isOwn (des0 : Word) : Bool := des0 &&& rdes0Own != 0

/-- The condition for a valid frame, with `STM32_IP_CHECKSUM_OFFLOAD`. -/
def isValid (des0 : Word) : Bool :=
  -- filter match, no error
  des0 &&& (rdes0Afm ||| rdes0Es) == 0 &&
    -- not ethernet, or checksums ok
    (des0 &&& rdes0Ft == 0 || des0 &&& (rdes0Iphce ||| rdes0Pce) == 0) &&
    des0 &&& rdes0Fs != 0 && des0 &&& rdes0Ls != 0

/-- The length of a frame with its checksum. -/
def frameLength (des0 : Word) : ℕ := ((des0 &&& rdes0FlMask) >>> 16).toNat

/-- `mac_desc_t`, with the contents of its buffer. -/
structure Desc where
  des0 : Word := rdes0Own
  buf : List UInt8 := []
  size : ℕ := 0
  offset : ℕ := 0

/-- `mac_read_rx_descriptor`: what is copied, and the descriptor. -/
def Desc.read (d : Desc) (size : ℕ) : List UInt8 × Desc :=
  let size := if d.size - d.offset < size then d.size - d.offset else size
  (slice d.offset size d.buf, { d with offset := d.offset + size })

/-- What the DMA writes into a descriptor and its buffer. -/
structure Entry where
  des0 : Word
  buf : List UInt8
  own : isOwn des0 = false
  length_buf : buf.length = macBufSize
  /-- A frame without an error is no longer than its buffer, and it has a checksum. -/
  fits : isValid des0 = true → 4 ≤ frameLength des0 ∧ frameLength des0 ≤ macBufSize

namespace Entry

variable (e : Entry)

/-- A whole frame without an error. -/
def valid : Bool := isValid e.des0

/-- The frame without its checksum. -/
def frame : List UInt8 := e.buf.take (frameLength e.des0 - 4)

end Entry

/-! ### The driver -/

/-- The next access of the driver. -/
inductive Pc
  /-- No call is in progress; the last one, if any, has returned. -/
  | returned (rc : Option ℕ)
  /-- The loop of `mac_get_rx_descriptor`. -/
  | test
  /-- An invalid frame: `rx_ptr->des0 = STM32_RDES0_OWN`. -/
  | dropOwn
  | dropNext
  | alloc
  /-- The loop over the chain, with the lengths that are left. -/
  | read (qs : List ℕ)
  /-- `mac_release_rx_descriptor`, and whether there is a chain. -/
  | release (p : Bool)
  | poll (p : Bool)
  /-- `netif->input`. -/
  | input
deriving DecidableEq, Repr

/-- The ring, the driver and the DMA. -/
structure State where
  desc : Pos → Desc
  rxPtr : Pos
  pc : Pc
  rdesc : Pos
  /-- The payload of the chain up to now. -/
  payload : List UInt8
  /-- The descriptor the DMA works on or waits for. -/
  dma : Pos
  /-- `ETH_DMASR_RPS_Suspended`. -/
  suspended : Bool
  -- history variables
  stored : List Entry
  /-- For each call of `pbuf_alloc`, whether it gave a chain. -/
  answers : List Bool
  /-- The valid frames the driver is done with, and whether they were passed on. -/
  handled : List (List UInt8 × Bool)
  passed : ℕ
  released : ℕ

/-- What the caller, lwIP, the driver and the DMA do. -/
inductive Action
  /-- `ethernetif_input` is called. -/
  | call
  /-- `pbuf_alloc` returns a chain with these lengths, or `NULL`. -/
  | pbufAlloc (chain : Option (List ℕ))
  | driver
  /-- The DMA is done with its descriptor. -/
  | dma (e : Entry)
  /-- The DMA has no descriptor. -/
  | suspend

namespace State

variable (s : State)

/-- One descriptor changes. -/
def modify (d : Pos) (f : Desc → Desc) : State :=
  { s with desc := Function.update s.desc d (f (s.desc d)) }

/-- A descriptor is given back to the DMA. -/
def give (d : Pos) : State :=
  { s.modify d fun x => { x with des0 := rdes0Own } with released := s.released + 1 }

/-- The valid frame at `rx_ptr` is taken. -/
def take : State :=
  { s.modify s.rxPtr fun x => { x with size := frameLength x.des0 - 4, offset := 0 } with
    rdesc := s.rxPtr, rxPtr := s.rxPtr + 1, passed := s.passed + 1 }

/-- The next access of the driver. -/
def driver : Option State :=
  match s.pc with
  | .returned _ | .alloc => none
  | .test =>
    let des0 := (s.desc s.rxPtr).des0
    if isOwn des0 then some { s with pc := .returned (some 0) }
    else if isValid des0 then some { s.take with pc := .alloc }
    else some { s with pc := .dropOwn }
  | .dropOwn => some { s.give s.rxPtr with pc := .dropNext }
  | .dropNext => some { s with rxPtr := s.rxPtr + 1, passed := s.passed + 1, pc := .test }
  | .read (q :: qs) =>
    let (bytes, d) := (s.desc s.rdesc).read q
    some { s.modify s.rdesc fun _ => d with payload := s.payload ++ bytes, pc := .read qs }
  | .read [] => some { s with pc := .release true }
  | .release p => some { s.give s.rdesc with pc := .poll p }
  | .poll p =>
    some { s with suspended := false, pc := if p then .input else .returned (some 1) }
  | .input =>
    some { s with handled := s.handled ++ [(s.payload, true)], pc := .returned (some 1) }

/-- `pbuf_alloc` returns. -/
def allocated : Option (List ℕ) → State
  | some qs => { s with answers := s.answers ++ [true], payload := [], pc := .read qs }
  | none =>
    let d := s.desc s.rdesc
    { s with
      answers := s.answers ++ [false]
      handled := s.handled ++ [(d.buf.take d.size, false)]
      pc := .release false }

/-- The DMA fills its descriptor. -/
def fill (e : Entry) : State :=
  { s.modify s.dma fun x => { x with des0 := e.des0, buf := e.buf } with
    dma := s.dma + 1, suspended := false, stored := s.stored ++ [e] }

/-- The successor under an action. -/
def next (s : State) : Action → Option State
  | .call =>
    match s.pc with
    | .returned _ => some { s with pc := .test }
    | _ => none
  | .pbufAlloc chain => if s.pc = .alloc then some (s.allocated chain) else none
  | .driver => s.driver
  | .dma e => if isOwn (s.desc s.dma).des0 then some (s.fill e) else none
  | .suspend => if isOwn (s.desc s.dma).des0 then none else some { s with suspended := true }

end State

/-- The ring as `mac_start` leaves it. -/
def start : State where
  desc _ := {}
  rxPtr := 0
  pc := .returned none
  rdesc := 0
  payload := []
  dma := 0
  suspended := false
  stored := []
  answers := []
  handled := []
  passed := 0
  released := 0

/-- The receive path with the DMA. -/
def machine : Machine State Action := { init := start, next := State.next }

/-- A chain of `pbuf_alloc` has room for as many bytes as were asked for. -/
def Promised (s : State) : Action → Prop
  | .pbufAlloc (some qs) => qs.sum = (s.desc s.rdesc).size
  | _ => True

instance (s : State) : ∀ a, Decidable (Promised s a)
  | .pbufAlloc (some qs) => inferInstanceAs (Decidable (qs.sum = (s.desc s.rdesc).size))
  | .pbufAlloc none | .call | .driver | .dma _ | .suspend => isTrue trivial

/-! ### What an access changes -/

section Simp

variable (s : State) (d : Pos) (f : Desc → Desc)

theorem modify_desc (e : Pos) :
    (s.modify d f).desc e = if e = d then f (s.desc e) else s.desc e := by
  by_cases h : e = d
  · rw [if_pos h, h]
    exact Function.update_self ..
  · rw [if_neg h]
    exact Function.update_of_ne h ..

theorem give_desc (e : Pos) :
    (s.give d).desc e = if e = d then { s.desc e with des0 := rdes0Own } else s.desc e :=
  modify_desc s d (fun x => { x with des0 := rdes0Own }) e

theorem fill_desc (x : Entry) (e : Pos) :
    (s.fill x).desc e =
      if e = s.dma then { s.desc e with des0 := x.des0, buf := x.buf } else s.desc e :=
  modify_desc s s.dma (fun y => { y with des0 := x.des0, buf := x.buf }) e

theorem take_desc (e : Pos) :
    s.take.desc e = if e = s.rxPtr then
      { s.desc e with size := frameLength (s.desc e).des0 - 4, offset := 0 } else s.desc e :=
  modify_desc s s.rxPtr (fun x => { x with size := frameLength x.des0 - 4, offset := 0 }) e

end Simp

end Rx

end Mac

end Laureline
