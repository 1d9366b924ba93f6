import Laureline.Lib.Machine
import Laureline.Lib.Ring
import Mathlib.Algebra.Group.Fin.Basic

/-!
# The transmit ring

`maczero_transmit` and `maczero_housekeeping` of `eth_mac.c`, cut at every access to a
descriptor or to one of the pointers, with the DMA running in between. A read-modify-write
such as `des0 |= STM32_TDES0_LS` is two accesses, and what was read is kept in the program
counter. The DMA works on the descriptors in ring order, from the one `mac_start` gave it,
and clears the OWN bit of the current one when it is done with it.

* `State.driver` is the next access of the driver.
* `Action` has besides it the call with a chain of segments, the two reasons to return
  `ERR_TIMEOUT`, and the DMA.
* The reset state is that of `mac_start`. `taken`, `released`, `sent` and `overwritten`
  are history variables, and so is `Desc.held`.
-/

namespace Laureline

namespace Mac

open RingSlot

/-! ### Descriptors -/

/-- `TX_BUFS`. -/
def txBufs : ℕ := 4

instance : NeZero txBufs := ⟨by decide⟩

/-- The place of a descriptor in `tx_descs`; `des_next` is the following place. -/
abbrev Pos := Fin txBufs

/-- The bits of `des0` that the driver uses. -/
structure Des0 where
  own : Bool := false
  ic : Bool := false
  ls : Bool := false
  fs : Bool := false
  cic : Bool := false
  tch : Bool := false
deriving DecidableEq, Repr

/-- A `struct pbuf`: its address, the address of its payload and its length. -/
structure Seg where
  addr : ℕ
  payload : ℕ
  len : ℕ
deriving DecidableEq, Repr

/-- `mac_tdes_t`. `none` is a null pointer. -/
structure Desc where
  des0 : Des0 := { tch := true }
  des1 : ℕ := 0
  desBuf : Option ℕ := none
  pbuf : Option ℕ := none
  /-- The pointer in `pbuf` was stored for a frame and is not released yet. -/
  held : Bool := false
deriving DecidableEq, Repr

/-! ### The driver -/

/-- What `maczero_transmit` returns. -/
inductive Err
  | ok
  | timeout
deriving DecidableEq, Repr

/-- The next access of the driver. -/
inductive Pc
  /-- No call is in progress; the last one, if any, has returned. -/
  | returned (rc : Option Err)
  /-- The check of the link and of the timeout. -/
  | check
  /-- The condition of the loop of `maczero_housekeeping`. -/
  | housekeeping
  | pbufFree (active : Pos)
  | activeNext (active : Pos)
  /-- `!(tdes->des0 & STM32_TDES0_OWN)`. -/
  | ownTest
  | des1
  | desBuf
  | des0
  | pbufNull
  /-- `if (q == p)`. -/
  | firstOrNot
  | setOwn (old : Des0)
  /-- `if (q->next == NULL)`. -/
  | lastOrNot
  | setLs (old : Des0)
  /-- After the loop: the read of `tdes_first->des0`. -/
  | handOver
  | setFirst (first : Pos) (old : Des0)
  | pbufRef (first : Pos)
  | setActive (first : Pos)
deriving DecidableEq, Repr

/-- The variables of `maczero_transmit`. -/
structure Call where
  p : Seg
  /-- The segments after the first. -/
  rest : List Seg
  q : Seg
  /-- The segments after `q`. -/
  todo : List Seg
  tdes : Pos
  tdesFirst : Option Pos
  /-- The descriptors given to the DMA, in order (a history variable). -/
  given : List Pos
deriving DecidableEq, Repr

/-- The ring, the driver and the DMA. -/
structure State where
  desc : Pos → Desc
  txPtr : Pos
  txActive : Option Pos
  pc : Pc
  call : Call
  /-- The descriptor the DMA works on or waits for. -/
  dma : Pos
  -- history variables
  taken : List ℕ
  released : List ℕ
  sent : List ℕ
  overwritten : List ℕ

/-- What the caller, the driver and the DMA do. -/
inductive Action
  /-- `maczero_transmit` is called with a chain: its first segment and the others. -/
  | transmit (p : Seg) (rest : List Seg)
  /-- The link is down or the time is over. -/
  | giveUp
  | driver
  | dma
deriving DecidableEq, Repr

namespace State

variable (s : State)

/-- One descriptor changes. -/
def modify (d : Pos) (f : Desc → Desc) : State :=
  { s with desc := Function.update s.desc d (f (s.desc d)) }

/-- The driver's descriptor has its OWN bit clear. -/
def ownClear (d : Pos) : Bool := !(s.desc d).des0.own

/-- `pbuf_free(tx_active->pbuf)`, if it is not null. -/
def pbufFree (d : Pos) : State :=
  match (s.desc d).pbuf with
  | some r =>
    { s.modify d fun x => { x with held := false } with released := s.released ++ [r] }
  | none => s

/-- `tdes->pbuf = NULL`. A pointer that is still held is lost. -/
def pbufNull (d : Pos) : State :=
  { s.modify d fun x => { x with pbuf := none, held := false } with
    overwritten :=
      if (s.desc d).held then s.overwritten ++ (s.desc d).pbuf.toList else s.overwritten }

/-- A descriptor is given to the DMA. -/
def give (d : Pos) (v : Des0) : State :=
  { s.modify d fun x => { x with des0 := v } with
    call := { s.call with given := s.call.given ++ [d] } }

/-- The next access of the driver. -/
def driver : Option State :=
  let c := s.call
  match s.pc with
  | .returned _ => none
  | .check => some { s with pc := .housekeeping }
  | .housekeeping =>
    match s.txActive with
    | some d => if s.ownClear d then some { s with pc := .pbufFree d }
                else some { s with pc := .ownTest }
    | none => some { s with pc := .ownTest }
  | .pbufFree d => some { s.pbufFree d with pc := .activeNext d }
  | .activeNext d =>
    -- caught up with the head of the chain
    some { s with txActive := if d + 1 = s.txPtr then none else some (d + 1),
                  pc := .housekeeping }
  | .ownTest =>
    if s.ownClear c.tdes then some { s with txPtr := c.tdes + 1, pc := .des1 }
    else
      -- after `xSemaphoreTake`, whether it succeeded or not
      some { s with pc := .check }
  | .des1 => some { s.modify c.tdes fun x => { x with des1 := c.q.len } with pc := .desBuf }
  | .desBuf =>
    some { s.modify c.tdes fun x => { x with desBuf := some c.q.payload } with pc := .des0 }
  | .des0 =>
    some { s.modify c.tdes fun x => { x with des0 := { cic := true, ic := true, tch := true } } with
      pc := .pbufNull }
  | .pbufNull => some { s.pbufNull c.tdes with pc := .firstOrNot }
  | .firstOrNot =>
    if c.q.addr = c.p.addr then
      some { s.modify c.tdes fun x => { x with pbuf := some c.p.addr, held := true } with
        call := { c with tdesFirst := some c.tdes }, pc := .lastOrNot }
    else some { s with pc := .setOwn (s.desc c.tdes).des0 }
  | .setOwn old => some { s.give c.tdes { old with own := true } with pc := .lastOrNot }
  | .lastOrNot =>
    match c.todo with
    | [] => some { s with pc := .setLs (s.desc c.tdes).des0 }
    | q :: todo => some { s with call := { c with q, todo }, pc := .check }
  | .setLs old =>
    some { s.modify c.tdes fun x => { x with des0 := { old with ls := true } } with
      pc := .handOver }
  | .handOver =>
    -- a null `tdes_first` cannot be written to
    c.tdesFirst.map fun first => { s with pc := .setFirst first (s.desc first).des0 }
  | .setFirst first old =>
    some { s.give first { old with own := true, fs := true } with pc := .pbufRef first }
  | .pbufRef first =>
    some { s with taken := s.taken ++ [c.p.addr], pc := .setActive first }
  | .setActive first =>
    some { s with txActive := s.txActive <|> some first, pc := .returned (some .ok) }

/-- A call begins. -/
def transmit (p : Seg) (rest : List Seg) : State :=
  { s with
    call := { p, rest, q := p, todo := rest, tdes := s.txPtr, tdesFirst := none, given := [] }
    pc := .check }

/-- The DMA is done with its descriptor. -/
def dmaDone : State :=
  { s.modify s.dma fun x => { x with des0 := { x.des0 with own := false } } with
    dma := s.dma + 1
    sent := s.sent ++ (s.desc s.dma).pbuf.toList }

/-- The successor under an action. -/
def next (s : State) : Action → Option State
  | .transmit p rest =>
    match s.pc with
    | .returned _ => some (s.transmit p rest)
    | _ => none
  | .giveUp =>
    match s.pc with
    | .check => some { s with pc := .returned (some .timeout) }
    | _ => none
  | .driver => s.driver
  | .dma => if (s.desc s.dma).des0.own then some s.dmaDone else none

end State

/-- The ring as `mac_start` leaves it. -/
def start : State where
  desc _ := {}
  txPtr := 0
  txActive := none
  pc := .returned none
  call := { p := ⟨0, 0, 0⟩, rest := [], q := ⟨0, 0, 0⟩, todo := [], tdes := 0, tdesFirst := none,
            given := [] }
  dma := 0
  taken := []
  released := []
  sent := []
  overwritten := []

/-- The transmit path with the DMA. -/
def machine : Machine State Action := { init := start, next := State.next }

/-! ### The accesses, one by one -/

/-- What one access of the driver does, with the condition under which it happens. -/
inductive Access (s : State) : State → Prop
  | check (hpc : s.pc = .check) : Access s { s with pc := .housekeeping }
  | isFree {d : Pos} (hpc : s.pc = .housekeeping) (ha : s.txActive = some d)
      (ho : s.ownClear d = true) : Access s { s with pc := .pbufFree d }
  | isDone (hpc : s.pc = .housekeeping) (ha : ∀ d, s.txActive = some d → s.ownClear d = false) :
      Access s { s with pc := .ownTest }
  | pbufFree {d : Pos} (hpc : s.pc = .pbufFree d) :
      Access s { s.pbufFree d with pc := .activeNext d }
  | activeNext {d : Pos} (hpc : s.pc = .activeNext d) :
      Access s { s with txActive := if d + 1 = s.txPtr then none else some (d + 1),
                        pc := .housekeeping }
  | own (hpc : s.pc = .ownTest) (ho : s.ownClear s.call.tdes = false) :
      Access s { s with pc := .check }
  | ownTest (hpc : s.pc = .ownTest) (ho : s.ownClear s.call.tdes = true) :
      Access s { s with txPtr := s.call.tdes + 1, pc := .des1 }
  | des1 (hpc : s.pc = .des1) :
      Access s { s.modify s.call.tdes fun x => { x with des1 := s.call.q.len } with
        pc := .desBuf }
  | desBuf (hpc : s.pc = .desBuf) :
      Access s { s.modify s.call.tdes fun x => { x with desBuf := some s.call.q.payload } with
        pc := .des0 }
  | des0 (hpc : s.pc = .des0) :
      Access s { s.modify s.call.tdes fun x =>
          { x with des0 := { cic := true, ic := true, tch := true } } with pc := .pbufNull }
  | pbufNull (hpc : s.pc = .pbufNull) :
      Access s { s.pbufNull s.call.tdes with pc := .firstOrNot }
  | first (hpc : s.pc = .firstOrNot) (hq : s.call.q.addr = s.call.p.addr) :
      Access s { s.modify s.call.tdes fun x =>
          { x with pbuf := some s.call.p.addr, held := true } with
        call := { s.call with tdesFirst := some s.call.tdes }, pc := .lastOrNot }
  | notFirst (hpc : s.pc = .firstOrNot) (hq : s.call.q.addr ≠ s.call.p.addr) :
      Access s { s with pc := .setOwn (s.desc s.call.tdes).des0 }
  | setOwn {old : Des0} (hpc : s.pc = .setOwn old) :
      Access s { s.give s.call.tdes { old with own := true } with pc := .lastOrNot }
  | last (hpc : s.pc = .lastOrNot) (ht : s.call.todo = []) :
      Access s { s with pc := .setLs (s.desc s.call.tdes).des0 }
  | notLast {q : Seg} {todo : List Seg} (hpc : s.pc = .lastOrNot) (ht : s.call.todo = q :: todo) :
      Access s { s with call := { s.call with q, todo }, pc := .check }
  | setLs {old : Des0} (hpc : s.pc = .setLs old) :
      Access s { s.modify s.call.tdes fun x => { x with des0 := { old with ls := true } } with
        pc := .handOver }
  | handOver {d : Pos} (hpc : s.pc = .handOver) (hf : s.call.tdesFirst = some d) :
      Access s { s with pc := .setFirst d (s.desc d).des0 }
  | setFirst {d : Pos} {old : Des0} (hpc : s.pc = .setFirst d old) :
      Access s { s.give d { old with own := true, fs := true } with pc := .pbufRef d }
  | pbufRef {d : Pos} (hpc : s.pc = .pbufRef d) :
      Access s { s with taken := s.taken ++ [s.call.p.addr], pc := .setActive d }
  | setActive {d : Pos} (hpc : s.pc = .setActive d) :
      Access s { s with txActive := s.txActive <|> some d, pc := .returned (some .ok) }

/-- The driver does nothing else. -/
theorem access_of_driver {s s' : State} (h : s.driver = some s') : Access s s' := by
  -- one case for each place the driver can be at, in the order of the source
  cases hpc : s.pc <;> simp only [State.driver, hpc, reduceCtorEq, Option.some.injEq] at h
  case check =>
    subst h
    exact .check hpc
  case housekeeping =>
    -- `tx_active` is null, or its descriptor is still with the DMA, or a frame can be freed
    split at h
    · next d ha =>
      split_ifs at h with ho <;> obtain rfl := Option.some.inj h
      · exact .isFree hpc ha ho
      · refine .isDone hpc fun d' hd' => ?_
        obtain rfl := Option.some.inj (ha.symm.trans hd')
        simpa using ho
    · next ha =>
      obtain rfl := Option.some.inj h
      exact .isDone hpc fun d hd => absurd (ha.symm.trans hd) (by simp)
  case pbufFree d =>
    subst h
    exact .pbufFree hpc
  case activeNext d =>
    subst h
    exact .activeNext hpc
  case ownTest =>
    -- a descriptor that is not back from the DMA sends the driver to the delay
    split_ifs at h with ho <;> obtain rfl := Option.some.inj h
    · exact .ownTest hpc ho
    · exact .own hpc (by simpa using ho)
  case des1 =>
    subst h
    exact .des1 hpc
  case desBuf =>
    subst h
    exact .desBuf hpc
  case des0 =>
    subst h
    exact .des0 hpc
  case pbufNull =>
    subst h
    exact .pbufNull hpc
  case firstOrNot =>
    -- the first segment keeps OWN for `handOver`
    split_ifs at h with hq <;> obtain rfl := Option.some.inj h
    · exact .first hpc hq
    · exact .notFirst hpc hq
  case setOwn old =>
    subst h
    exact .setOwn hpc
  case lastOrNot =>
    -- `q->next` decides between LS and another pass of the loop
    split at h
    · next ht =>
      obtain rfl := Option.some.inj h
      exact .last hpc ht
    · next q todo ht =>
      obtain rfl := Option.some.inj h
      exact .notLast hpc ht
  case setLs old =>
    subst h
    exact .setLs hpc
  case handOver =>
    -- without a first descriptor there is no step
    rw [Option.map_eq_some_iff] at h
    obtain ⟨d, hf, rfl⟩ := h
    exact .handOver hpc hf
  case setFirst d old =>
    subst h
    exact .setFirst hpc
  case pbufRef d =>
    subst h
    exact .pbufRef hpc
  case setActive d =>
    subst h
    exact .setActive hpc

theorem transmit_inv {s s' : State} {p : Seg} {rest : List Seg}
    (h : s.next (.transmit p rest) = some s') :
    (∃ rc, s.pc = .returned rc) ∧ s' = s.transmit p rest := by
  -- a call is possible only where the last one has returned
  cases hpc : s.pc <;> simp only [State.next, hpc, reduceCtorEq, Option.some.injEq] at h
  exact ⟨⟨_, rfl⟩, h.symm⟩

theorem giveUp_inv {s s' : State} (h : s.next .giveUp = some s') :
    s.pc = .check ∧ s' = { s with pc := .returned (some .timeout) } := by
  cases hpc : s.pc <;> simp only [State.next, hpc, reduceCtorEq, Option.some.injEq] at h
  exact ⟨rfl, h.symm⟩

theorem dma_inv {s s' : State} (h : s.next .dma = some s') :
    (s.desc s.dma).des0.own = true ∧ s' = s.dmaDone := by
  simp only [State.next] at h
  split_ifs at h with ho
  exact ⟨ho, (Option.some.inj h).symm⟩

/-! ### What the accesses leave alone -/

section Simp

variable (s : State) (d : Pos) (f : Desc → Desc)

@[simp] theorem modify_self : (s.modify d f).desc d = f (s.desc d) :=
  Function.update_self _ _ _

theorem modify_of_ne {d e : Pos} (h : e ≠ d) : (s.modify d f).desc e = s.desc e :=
  Function.update_of_ne h _ _

theorem modify_desc (e : Pos) :
    (s.modify d f).desc e = if e = d then f (s.desc e) else s.desc e := by
  by_cases h : e = d
  · rw [if_pos h, h, modify_self]
  · rw [if_neg h, modify_of_ne s f h]

@[simp] theorem modify_txPtr : (s.modify d f).txPtr = s.txPtr := rfl
@[simp] theorem modify_txActive : (s.modify d f).txActive = s.txActive := rfl
@[simp] theorem modify_pc : (s.modify d f).pc = s.pc := rfl
@[simp] theorem modify_call : (s.modify d f).call = s.call := rfl
@[simp] theorem modify_dma : (s.modify d f).dma = s.dma := rfl
@[simp] theorem modify_taken : (s.modify d f).taken = s.taken := rfl
@[simp] theorem modify_released : (s.modify d f).released = s.released := rfl
@[simp] theorem modify_sent : (s.modify d f).sent = s.sent := rfl
@[simp] theorem modify_overwritten : (s.modify d f).overwritten = s.overwritten := rfl

@[simp] theorem pbufFree_txPtr : (s.pbufFree d).txPtr = s.txPtr := by
  unfold State.pbufFree
  split <;> rfl

@[simp] theorem pbufFree_call : (s.pbufFree d).call = s.call := by
  unfold State.pbufFree
  split <;> rfl

@[simp] theorem pbufFree_taken : (s.pbufFree d).taken = s.taken := by
  unfold State.pbufFree
  split <;> rfl

@[simp] theorem pbufFree_txActive : (s.pbufFree d).txActive = s.txActive := by
  unfold State.pbufFree
  split <;> rfl

theorem pbufFree_eq : (s.pbufFree d).sent = s.sent ∧ (s.pbufFree d).dma = s.dma ∧
    (s.pbufFree d).overwritten = s.overwritten := by
  unfold State.pbufFree
  split <;> exact ⟨rfl, rfl, rfl⟩

/-- Housekeeping changes no more than the history variable of a descriptor. -/
theorem pbufFree_desc (e : Pos) :
    (s.pbufFree d).desc e =
      { s.desc e with held := (s.desc e).held && !decide (e = d ∧ (s.desc d).pbuf.isSome) } := by
  unfold State.pbufFree
  cases hp : (s.desc d).pbuf with
  | none => simp
  | some r =>
    show (s.modify d fun x => { x with held := false }).desc e = _
    rw [modify_desc]
    by_cases h : e = d <;> simp [h]

theorem pbufNull_desc (e : Pos) :
    (s.pbufNull d).desc e =
      if e = d then { s.desc e with pbuf := none, held := false } else s.desc e :=
  modify_desc s d (fun x => { x with pbuf := none, held := false }) e

theorem give_desc (v : Des0) (e : Pos) :
    (s.give d v).desc e = if e = d then { s.desc e with des0 := v } else s.desc e :=
  modify_desc s d (fun x => { x with des0 := v }) e

/-- The DMA changes no more than the OWN bit. -/
theorem dmaDone_desc (e : Pos) :
    s.dmaDone.desc e =
      { s.desc e with
        des0 := { (s.desc e).des0 with own := (s.desc e).des0.own && !decide (e = s.dma) } } := by
  show (s.modify s.dma fun x => { x with des0 := { x.des0 with own := false } }).desc e = _
  rw [modify_desc]
  by_cases h : e = s.dma <;> simp [h]

end Simp

end Mac

end Laureline
