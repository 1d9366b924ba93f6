import Laureline.I2c.Device
import Mathlib.Data.List.GetD
import Mathlib.Data.List.TakeDrop

/-!
# Whole transactions

If every interrupt is served in time, `i2c_transact` returns with all the bytes sent, or with all
the bytes read, the last one and no other refused; and it always returns (`i2c_transact_spec`).

* `Stage` is how far a transaction is between the call and the last interrupt. A read of one
  byte begins where the end of a longer one is (`ReadLast`), and two bytes are read in a way of
  their own (`ReadTwo`).
* `Complete` is what is true at the end.
-/

namespace Laureline

namespace I2c

open Eeprom (I2cError)

/-! ### Invariants -/

/-- The bytes went over the bus. -/
structure Complete (s : State) : Prop where
  length : s.wire.length = s.given.length
  read : s.reads = true → s.buf = s.wire.map Prod.fst ∧
    s.wire.map Prod.snd = List.replicate (s.given.length - 1) true ++ [false]
  write : s.reads = false → s.wire.map Prod.fst = s.given
  error : s.error = .ok ∨ s.error = .timeout

/-- The peripheral between two transactions. -/
structure Quiet (s : State) : Prop where
  itevten : s.itevten = false
  start : s.start = false
  stop : s.stop = false
  pos : s.pos = false
  phase : s.phase = .idle
  dr : s.dr = none
  shift : s.shift = none

/-- A transaction that is not over. -/
structure Going (s : State) : Prop where
  pc : s.pc = .wait
  sem : s.sem = false
  itevten : s.itevten = true
  length : s.buf.length = s.count
  count : 0 < s.count
  room : s.count < 255
  error : s.error = .ok
  given : s.given.length = s.count
  /-- The bytes to send stay as they were given. -/
  kept : s.reads = false → s.buf = s.given

/-- No byte has gone over the bus. -/
structure Fresh (s : State) : Prop where
  dr : s.dr = none
  shift : s.shift = none
  wire : s.wire = []
  stop : s.stop = false

/-- After the start condition. -/
structure Ready (s : State) : Prop extends Fresh s where
  start : s.start = false
  ended : s.ended = false
  ack : s.ack = true
  index : s.index = 0
  pos : s.pos = (s.reads && s.count == 2)

/-- The bytes of a write are on their way. -/
structure Writing (s : State) : Prop where
  phase : s.phase = .data
  start : s.start = false
  reads : s.reads = false
  pos : s.pos = false
  index : s.index ≤ s.count
  itbufen : s.itbufen = decide (s.index < s.count)
  bytes : s.wire.map Prod.fst ++ s.shift.toList ++ s.dr.toList = s.buf.take s.index
  dr : s.shift = none → s.dr = none
  /-- While there are bytes to load, the bus is busy. -/
  busy : s.index < s.count → s.shift = none → s.wire = []

/-- A read of two bytes. -/
structure ReadTwo (s : State) : Prop where
  phase : s.phase = .data
  start : s.start = false
  reads : s.reads = true
  count : s.count = 2
  index : s.index = 0
  itbufen : s.itbufen = false
  stop : s.stop = false
  pos : s.pos = true
  ack : s.ack = false
  bytes : (s.dr = none ∧ s.shift = none ∧ s.wire = [] ∧ s.latched = true ∧ s.ended = false) ∨
    (∃ b, s.dr = some b ∧ s.shift = none ∧ s.wire = [(b, true)] ∧ s.latched = false ∧
      s.ended = false) ∨
    ∃ b c, s.dr = some b ∧ s.shift = some c ∧ s.wire = [(b, true), (c, false)]

/-- There are at least three bytes to read from the data register. -/
structure ReadMany (s : State) : Prop where
  phase : s.phase = .data
  start : s.start = false
  reads : s.reads = true
  index : s.index + 3 ≤ s.count
  itbufen : s.itbufen = decide (s.index + 3 < s.count)
  stop : s.stop = false
  pos : s.pos = false
  ack : s.ack = true
  ended : s.ended = false
  bytes : s.wire = (s.buf.take s.index ++ s.dr.toList ++ s.shift.toList).map (·, true)
  dr : s.dr = none → s.shift = none
  shift : s.index + 3 < s.count → s.shift = none

/-- There is one byte to read from the data register. -/
structure ReadLast (s : State) : Prop where
  phase : s.phase = .data
  start : s.start = false
  reads : s.reads = true
  index : s.index + 1 = s.count
  itbufen : s.itbufen = true
  pos : s.pos = false
  ack : s.ack = false
  shift : s.shift = none
  bytes : (s.dr = none ∧ s.ended = false ∧ s.wire = (s.buf.take s.index).map (·, true)) ∨
    ∃ b, s.dr = some b ∧ s.ended = true ∧
      s.wire = (s.buf.take s.index).map (·, true) ++ [(b, false)]

/-- The place of a transaction. -/
inductive Stage (s : State) : Prop
  | starting (h : Fresh s) (h_phase : s.phase = .idle) (h_start : s.start = true)
      (h_pos : s.pos = false)
  | sb (h : Fresh s) (h_phase : s.phase = .sb) (h_start : s.start = false)
      (h_ended : s.ended = false) (h_pos : s.pos = false)
  | address (h : Ready s) (h_phase : s.phase = .address)
  | addr (h : Ready s) (h_phase : s.phase = .addr) (h_latched : s.latched = true)
  | writing (h : Writing s)
  | readTwo (h : ReadTwo s)
  | readMany (h : ReadMany s)
  | readLast (h : ReadLast s)

/-- What holds in every run. -/
inductive Inv (s : State) : Prop
  | returned {rc : Option I2cError} (h_pc : s.pc = .returned rc) (h_sem : s.sem = false)
      (h_quiet : Quiet s) (h_rc : rc = none ∨ rc = some s.error ∧ Complete s)
  | going (h : Going s) (h_stage : Stage s)
  | done (h_pc : s.pc = .wait) (h_sem : s.sem = true) (h_quiet : Quiet s) (h : Complete s)

/-! ### The bytes -/

theorem take_succ_eq {l : List UInt8} {i : ℕ} (h : i < l.length) :
    l.take (i + 1) = l.take i ++ [l.getD i 0] := by
  rw [List.take_add_one, List.getElem?_eq_getElem h, List.getD_eq_getElem _ _ h]
  rfl

theorem take_set_succ {l : List UInt8} {i : ℕ} (h : i < l.length) (b : UInt8) :
    (l.set i b).take (i + 1) = l.take i ++ [b] := by
  rw [take_succ_eq (by rw [List.length_set]; exact h), List.take_set_of_le (Nat.le_refl i)]
  simp [h]

section Step

variable {s s' : State} {a : Action}

theorem not_sending {p : Prop} (h : s.reads = true) (h' : s.reads = false) : p :=
  absurd (h.symm.trans h') (by simp)

/-- What a step leaves alone while the bytes go. -/
def State.call (s : State) :=
  (s.pc, s.sem, s.itevten, s.error, s.count, s.given, s.addrDir, s.buf)

theorem Going.of_call (h : Going s) (h_call : s'.call = s.call) : Going s' := by
  simp only [State.call, Prod.mk.injEq] at h_call
  obtain ⟨h_pc, h_sem, h_itevten, h_error, h_count, h_given, h_dir, h_buf⟩ := h_call
  have h_reads : s'.reads = s.reads := by rw [State.reads, h_dir, State.reads]
  refine ⟨h_pc.trans h.pc, h_sem.trans h.sem, h_itevten.trans h.itevten, ?_, ?_, ?_,
    h_error.trans h.error, ?_, ?_⟩
  · rw [h_buf, h_count, h.length]
  · exact h.count.trans_eq h_count.symm
  · exact h_count.trans_lt h.room
  · rw [h_given, h_count, h.given]
  · rw [h_buf, h_given, h_reads]
    exact h.kept

/-! ### The end of a transaction -/

/-- The handler has counted past the last byte. -/
theorem finish_done (h : Going s) (h_index : s.index = s.count + 1) (h_dr : s.dr = none)
    (h_shift : s.shift = none) (h_length : s.wire.length = s.count)
    (h_read : s.reads = true → s.buf = s.wire.map Prod.fst ∧
      s.wire.map Prod.snd = List.replicate (s.count - 1) true ++ [false])
    (h_write : s.reads = false → s.wire.map Prod.fst = s.buf) (late : Bool) :
    Inv (s.finish late) := by
  unfold State.finish
  -- STOP is set and the thread is woken up
  rw [if_pos h_index]
  refine .done h.pc rfl ⟨rfl, rfl, rfl, rfl, rfl, h_dr, h_shift⟩
    ⟨h_length.trans h.given.symm, ?_, ?_, ?_⟩
  · rw [h.given]
    exact h_read
  · intro h_reads
    exact (h_write h_reads).trans (h.kept h_reads)
  · cases late with
    | true => exact .inr rfl
    | false => exact .inl h.error

theorem finish_going (h_index : s.index ≠ s.count + 1) (late : Bool) : s.finish late = s :=
  if_neg h_index

/-! ### Up to the first byte -/

theorem handleEvent_sb (h_phase : s.phase = .sb) (late : Bool) : s.handleEvent late = s.onSb := by
  rw [State.handleEvent, if_pos h_phase]
  exact finish_going (Nat.succ_ne_zero _).symm late

theorem Ready.handleEvent_addr (h : Ready s) (h_phase : s.phase = .addr) (late : Bool) :
    s.handleEvent late = s.onAddr := by
  have h_index : s.onAddr.index = 0 := by
    unfold State.onAddr
    split_ifs <;> exact h.index
  rw [State.handleEvent, if_neg (by rw [h_phase]; simp), if_pos h_phase]
  exact finish_going (by rw [h_index]; exact (Nat.succ_ne_zero _).symm) late

/-- While the bus is at a start condition or an address, nothing is pending. -/
theorem pending_early (h_phase : s.phase = .idle ∨ s.phase = .address) : s.pending = false := by
  obtain h_phase | h_phase := h_phase <;>
    simp [State.pending, State.btf, State.rxne, State.txe, h_phase]

theorem Going.starting_step (hG : Going s) (h_phase : s.phase = .idle) (h_step : Step s a s') :
    s' = { s with start := false, phase := .sb, ended := false } := by
  cases h_step with
  | transact _ _ h_pc => exact absurd (hG.pc.symm.trans h_pc) (by simp)
  | started => rfl
  | addressed hp | recv _ hp | sent hp => exact absurd (h_phase.symm.trans hp) (by simp)
  | event _ h_pending =>
    exact absurd (h_pending.symm.trans (pending_early (.inl h_phase))) (by simp)
  | ret _ h_sem => exact absurd (hG.sem.symm.trans h_sem) (by simp)

theorem Going.sb_step (hG : Going s) (h_phase : s.phase = .sb) (h_start : s.start = false)
    (h_step : Step s a s') : s' = s.onSb := by
  cases h_step with
  | transact _ _ h_pc => exact absurd (hG.pc.symm.trans h_pc) (by simp)
  | started hs => exact absurd (h_start.symm.trans hs) (by simp)
  | addressed hp | recv _ hp | sent hp => exact absurd (h_phase.symm.trans hp) (by simp)
  | event late => exact handleEvent_sb h_phase late
  | ret _ h_sem => exact absurd (hG.sem.symm.trans h_sem) (by simp)

theorem Going.address_step (hG : Going s) (h_phase : s.phase = .address) (h_start : s.start = false)
    (h_step : Step s a s') : s' = { s with phase := .addr, latched := s.ack } := by
  cases h_step with
  | transact _ _ h_pc => exact absurd (hG.pc.symm.trans h_pc) (by simp)
  | started hs => exact absurd (h_start.symm.trans hs) (by simp)
  | addressed => rfl
  | recv _ hp | sent hp => exact absurd (h_phase.symm.trans hp) (by simp)
  | event _ h_pending =>
    exact absurd (h_pending.symm.trans (pending_early (.inr h_phase))) (by simp)
  | ret _ h_sem => exact absurd (hG.sem.symm.trans h_sem) (by simp)

theorem Ready.addr_step (hG : Going s) (h : Ready s) (h_phase : s.phase = .addr)
    (h_step : Step s a s') : s' = s.onAddr := by
  cases h_step with
  | transact _ _ h_pc => exact absurd (hG.pc.symm.trans h_pc) (by simp)
  | started hs => exact absurd (h.start.symm.trans hs) (by simp)
  | addressed hp | recv _ hp | sent hp => exact absurd (h_phase.symm.trans hp) (by simp)
  | event late => exact h.handleEvent_addr h_phase late
  | ret _ h_sem => exact absurd (hG.sem.symm.trans h_sem) (by simp)

theorem Fresh.onSb (hG : Going s) (h : Fresh s) (h_start : s.start = false)
    (h_ended : s.ended = false) (h_pos : s.pos = false) : Inv s.onSb := by
  refine .going (hG.of_call rfl) (.address ?_ rfl)
  refine ⟨⟨h.dr, h.shift, h.wire, h.stop⟩, h_start, h_ended, rfl, rfl, ?_⟩
  show (s.pos || (s.reads && s.count == 2)) = _
  rw [h_pos, Bool.false_or]
  rfl

/-- The address is sent: the ways of reading part here. -/
theorem Ready.onAddr (hG : Going s) (h : Ready s) (h_latched : s.latched = true) :
    Inv s.onAddr := by
  obtain ⟨⟨h_dr, h_shift, h_wire, h_stop⟩, h_start, h_ended, h_ack, h_index, h_pos⟩ := h
  unfold State.onAddr
  cases h_reads : s.reads with
  | false =>
    -- a write: nothing is loaded yet, and the interrupt for an empty register is turned on
    simp only [Bool.false_and, Bool.false_eq_true, if_false]
    rw [h_reads, Bool.false_and] at h_pos
    refine .going (hG.of_call rfl) (.writing ?_)
    refine ⟨rfl, h_start, h_reads, h_pos, ?_, ?_, ?_, fun _ => h_dr, fun _ _ => h_wire⟩
    · exact h_index.trans_le (Nat.zero_le _)
    · show true = decide (s.index < s.count)
      rw [h_index, decide_eq_true hG.count]
    · show s.wire.map Prod.fst ++ s.shift.toList ++ s.dr.toList = s.buf.take s.index
      rw [h_wire, h_shift, h_dr, h_index]
      rfl
  | true =>
    -- a read: the handler tells the lengths 1, 2 and 3 from the others
    rw [h_reads, Bool.true_and] at h_pos
    simp only [Bool.true_and, beq_iff_eq]
    have h_count := hG.count
    split_ifs with h1 h2 h3
    · -- one byte
      refine .going (hG.of_call rfl) (.readLast ?_)
      refine ⟨rfl, h_start, h_reads, ?_, rfl, ?_, rfl, h_shift, .inl ⟨h_dr, h_ended, ?_⟩⟩
      · show s.index + 1 = s.count
        rw [h_index, h1]
      · show s.pos = false
        rw [h_pos, h1]
        rfl
      · show s.wire = (s.buf.take s.index).map (·, true)
        rw [h_wire, h_index]
        rfl
    · -- two bytes
      refine .going (hG.of_call rfl) (.readTwo ?_)
      refine ⟨rfl, h_start, h_reads, h2, h_index, rfl, h_stop, ?_, rfl,
        .inl ⟨h_dr, h_shift, h_wire, h_latched, h_ended⟩⟩
      show s.pos = true
      rw [h_pos, h2]
      rfl
    · -- three bytes, and more than three
      refine .going (hG.of_call rfl) (.readMany ?_)
      refine ⟨rfl, h_start, h_reads, ?_, ?_, h_stop, ?_, h_ack, h_ended, ?_, fun _ => h_shift,
        fun _ => h_shift⟩
      · exact (congrArg (· + 3) h_index).trans_le h3.ge
      · show false = decide (s.index + 3 < s.count)
        rw [h_index, h3]
        rfl
      · show s.pos = false
        rw [h_pos, h3]
        rfl
      · show s.wire = (s.buf.take s.index ++ s.dr.toList ++ s.shift.toList).map (·, true)
        rw [h_wire, h_index, h_dr, h_shift]
        rfl
    · refine .going (hG.of_call rfl) (.readMany ?_)
      refine ⟨rfl, h_start, h_reads, ?_, ?_, h_stop, ?_, h_ack, h_ended, ?_, fun _ => h_shift,
        fun _ => h_shift⟩
      · show s.index + 3 ≤ s.count
        omega
      · show true = decide (s.index + 3 < s.count)
        rw [decide_eq_true (by omega)]
      · show s.pos = false
        rw [h_pos]
        simp [h2]
      · show s.wire = (s.buf.take s.index ++ s.dr.toList ++ s.shift.toList).map (·, true)
        rw [h_wire, h_index, h_dr, h_shift]
        rfl

/-! ### Bytes -/

/-- In the data phase the bus goes on, or the handler runs. -/
theorem Going.data_step (hG : Going s) (h_phase : s.phase = .data) (h_start : s.start = false)
    (h_step : Step s a s') :
    (∃ b, a = .recv b ∧ s.reads = true ∧ s.shift = none ∧ s.ended = false ∧ s' = s.recv b) ∨
    (∃ b, a = .sent ∧ s.reads = false ∧ s.shift = some b ∧
      s' = { s with wire := s.wire ++ [(b, true)], shift := s.dr, dr := none }) ∨
    ∃ late, s' = s.handleEvent late ∧ (s.btf = true ∨ s.itbufen = true ∧ (s.rxne || s.txe)) := by
  -- in the data phase the bus moves a byte, or the interrupt is served
  cases h_step with
  | transact addrDir buf h_pc => exact absurd (hG.pc.symm.trans h_pc) (by simp)
  | started hs => exact absurd (h_start.symm.trans hs) (by simp)
  | addressed hp => exact absurd (h_phase.symm.trans hp) (by simp)
  | recv b _ h_reads h_shift h_ended => exact .inl ⟨b, rfl, h_reads, h_shift, h_ended, rfl⟩
  | sent _ h_reads h_shift => exact .inr (.inl ⟨_, rfl, h_reads, h_shift, rfl⟩)
  | event late h_pending =>
    refine .inr (.inr ⟨late, rfl, ?_⟩)
    rw [State.pending, hG.itevten, h_phase] at h_pending
    simpa using h_pending
  | ret _ h_sem => exact absurd (hG.sem.symm.trans h_sem) (by simp)

theorem handleEvent_btf (h_phase : s.phase = .data) (h : s.btf = true) (late : Bool) :
    s.handleEvent late = s.onBtf.finish late := by
  rw [State.handleEvent, if_neg (by rw [h_phase]; simp), if_neg (by rw [h_phase]; simp), if_pos h]

theorem handleEvent_rxne (h_phase : s.phase = .data) (hb : s.btf = false) (h : s.rxne = true)
    (late : Bool) : s.handleEvent late = s.onRxne.finish late := by
  rw [State.handleEvent, if_neg (by rw [h_phase]; simp), if_neg (by rw [h_phase]; simp),
    if_neg (by rw [hb]; simp), if_pos h]

theorem handleEvent_txe (h_phase : s.phase = .data) (hb : s.btf = false) (hr : s.rxne = false)
    (h : s.txe = true) (late : Bool) : s.handleEvent late = s.onTxe.finish late := by
  rw [State.handleEvent, if_neg (by rw [h_phase]; simp), if_neg (by rw [h_phase]; simp),
    if_neg (by rw [hb]; simp), if_neg (by rw [hr]; simp), if_pos h]

/-! ### Sending -/

theorem Writing.rxne (h : Writing s) : s.rxne = false := by
  simp [State.rxne, h.reads]

/-- All is sent. -/
theorem Writing.onBtf (hG : Going s) (h : Writing s) (hb : s.btf = true) (late : Bool) :
    Inv (s.onBtf.finish late) := by
  obtain ⟨h_dr, h_shift, h_wire⟩ : s.dr = none ∧ s.shift = none ∧ s.wire ≠ [] := by
    simpa [State.btf, h.phase, h.reads, and_assoc] using hb
  -- with a byte left to load, the bus would not have stopped after another one
  have h_index : s.index = s.count := by
    by_contra h_ne
    exact h_wire (h.busy (lt_of_le_of_ne h.index h_ne) h_shift)
  have h_sent : s.wire.map Prod.fst = s.buf := by
    have h_bytes := h.bytes
    rw [h_dr, h_shift, h_index, ← hG.length, List.take_length] at h_bytes
    simpa using h_bytes
  have h_event : s.onBtf = { s with stop := true, index := s.index + 1 } := by
    simp [State.onBtf, h.reads, inc_of_lt (h_index.trans_lt hG.room)]
  rw [h_event]
  refine finish_done (s := { s with stop := true, index := s.index + 1 })
    (hG.of_call rfl)
    (congrArg (· + 1) h_index) h_dr h_shift ?_ ?_ (fun _ => h_sent) late
  · show s.wire.length = s.count
    rw [← hG.length, ← h_sent, List.length_map]
  · intro h_reads
    exact absurd (h.reads.symm.trans h_reads) (by simp)

/-- One more byte is loaded, into the shift register if that is free. -/
theorem Writing.onTxe (hG : Going s) (h : Writing s) (h_index : s.index < s.count)
    (h_dr : s.dr = none) (late : Bool) : Inv (s.onTxe.finish late) := by
  have h_len : s.index < s.buf.length := h_index.trans_eq hG.length.symm
  have h_bytes := h.bytes
  rw [h_dr, Option.toList_none, List.append_nil] at h_bytes
  have h_inc : inc s.index = s.index + 1 := inc_of_lt (h_index.trans hG.room)
  -- the byte loaded follows those before it
  have h_load : Going s.load ∧ s.load.index = s.index + 1 ∧ s.load.count = s.count ∧
      Writing { s.load with itbufen := decide (s.index + 1 < s.count) } := by
    unfold State.load
    rw [h_inc]
    cases h_shift : s.shift with
    | none =>
      refine ⟨(hG.of_call rfl), rfl, rfl, h.phase,
        h.start, h.reads, h.pos, h_index, rfl, ?_, fun _ => h_dr, fun _ hn => absurd hn (by simp)⟩
      show s.wire.map Prod.fst ++ [s.buf.getD s.index 0] ++ s.dr.toList = s.buf.take (s.index + 1)
      rw [h_dr, take_succ_eq h_len, ← h_bytes, h_shift]
      simp
    | some b =>
      refine ⟨(hG.of_call rfl), rfl, rfl, h.phase,
        h.start, h.reads, h.pos, h_index, rfl, ?_, ?_, ?_⟩
      · show s.wire.map Prod.fst ++ (some b).toList ++ [s.buf.getD s.index 0] =
          s.buf.take (s.index + 1)
        rw [take_succ_eq h_len, ← h_bytes, h_shift]
      · intro hn
        exact absurd hn (by simp)
      · intro _ hn
        exact absurd hn (by simp)
  obtain ⟨hG', h_load_index, h_load_count, hW⟩ := h_load
  have h_event : s.onTxe = { s.load with itbufen := decide (s.index + 1 < s.count) } := by
    have h_itbufen : s.load.itbufen = true := by
      unfold State.load
      cases s.shift <;> exact h.itbufen.trans (decide_eq_true h_index)
    unfold State.onTxe
    by_cases h_last : s.load.index = s.load.count
    · rw [decide_eq_false (by omega)]
      exact if_pos h_last
    · rw [decide_eq_true (by omega), ← h_itbufen]
      exact if_neg h_last
  rw [h_event, finish_going]
  · exact .going (hG'.of_call rfl) (.writing hW)
  · show s.load.index ≠ s.load.count + 1
    omega

theorem Writing.step (hG : Going s) (h : Writing s) (ht : Timely s a) (h_step : Step s a s') :
    Inv s' := by
  obtain ⟨b, -, h_reads, -⟩ | ⟨b, rfl, -, h_shift, rfl⟩ | ⟨late, rfl, h_pending⟩ :=
    hG.data_step h.phase h.start h_step
  · exact absurd (h.reads.symm.trans h_reads) (by simp)
  · refine .going (hG.of_call rfl) (.writing ?_)
    refine ⟨h.phase, h.start, h.reads, h.pos, h.index, h.itbufen, ?_, fun _ => rfl, ?_⟩
    · show (s.wire ++ [(b, true)]).map Prod.fst ++ s.dr.toList ++ [] = s.buf.take s.index
      rw [← h.bytes, h_shift]
      simp
    · intro (h_index : s.index < s.count) (h_dr : s.dr = none)
      -- the handler has not loaded a byte in time
      have h_pending : s.pending = true := by
        simp [State.pending, State.txe, hG.itevten, h.itbufen, h_index, h.phase, h.reads, h_dr]
      exact absurd (ht.symm.trans h_pending) (by simp)
  · cases hb : s.btf with
    | true =>
      rw [handleEvent_btf h.phase hb]
      exact h.onBtf hG hb late
    | false =>
      rw [hb, h.rxne, Bool.false_or] at h_pending
      obtain ⟨h_itbufen, h_txe⟩ := h_pending.resolve_left (by simp)
      rw [handleEvent_txe h.phase hb h.rxne h_txe]
      refine h.onTxe hG ?_ ?_ late
      · exact of_decide_eq_true (h.itbufen.symm.trans h_itbufen)
      · simpa [State.txe, h.phase, h.reads] using h_txe

/-! ### Reading two bytes -/

theorem ReadTwo.pending (hG : Going s) (h : ReadTwo s) : s.pending = s.btf := by
  simp [State.pending, hG.itevten, h.phase, h.itbufen]

/-- `POS` is set: the first byte is acknowledged, and the second refused. -/
theorem ReadTwo.recv (hG : Going s) (h : ReadTwo s) (b : UInt8)
    (h_shift : s.shift = none) : Inv (s.recv b) := by
  refine .going (hG.of_call rfl) (.readTwo ?_)
  refine ⟨h.phase, h.start, h.reads, h.count, h.index, h.itbufen, h.stop, h.pos, h.ack, ?_⟩
  simp only [State.recv, h.pos, h.ack, h.stop, if_true]
  obtain ⟨h_dr, -, h_wire, h_latched, -⟩ | ⟨c, h_dr, -, h_wire, h_latched, -⟩ |
    ⟨c, d, -, h_full, -⟩ := h.bytes
  · exact .inr (.inl ⟨b, by simp [h_dr], by simp [h_dr], by simp [h_wire, h_latched], trivial,
      by simp [h_latched]⟩)
  · exact .inr (.inr ⟨c, b, by simp [h_dr], by simp [h_dr], by simp [h_wire, h_latched]⟩)
  · exact absurd (h_shift.symm.trans h_full) (by simp)

/-- Both bytes are there. -/
theorem ReadTwo.onBtf (hG : Going s) (h : ReadTwo s) (hb : s.btf = true) (late : Bool) :
    Inv (s.onBtf.finish late) := by
  have h_full : s.dr.isSome = true ∧ s.shift.isSome = true := by
    simpa [State.btf, h.phase, h.reads] using hb
  -- BTF means that both bytes are there, so the other two cases are over
  obtain ⟨h_dr, -⟩ | ⟨b, -, h_shift, -⟩ | ⟨b, c, h_dr, h_shift, h_wire⟩ := h.bytes
  · exact absurd h_full.1 (by simp [h_dr])
  · exact absurd h_full.2 (by simp [h_shift])
  obtain ⟨x, y, h_buf⟩ : ∃ x y, s.buf = [x, y] :=
    List.length_eq_two.mp (hG.length.trans h.count)
  -- STOP comes first, then the two bytes are stored
  have h_event : s.onBtf =
      { s with stop := true, buf := [b, c], index := 3, dr := none, shift := none } := by
    simp [State.onBtf, State.store, inc, h.reads, h.count, h_dr, h_shift, h.index, h_buf]
  rw [h_event]
  refine finish_done
    (s := { s with stop := true, buf := [b, c], index := 3, dr := none, shift := none })
    ⟨hG.pc, hG.sem, hG.itevten, h.count.symm, hG.count, hG.room, hG.error, hG.given,
      not_sending h.reads⟩
    (congrArg (· + 1) h.count.symm) rfl rfl ?_ (?_) (not_sending h.reads) late
  · show s.wire.length = s.count
    rw [h_wire, h.count]
    rfl
  · intro _
    show [b, c] = s.wire.map Prod.fst ∧
      s.wire.map Prod.snd = List.replicate (s.count - 1) true ++ [false]
    rw [h_wire, h.count]
    exact ⟨rfl, rfl⟩

theorem ReadTwo.step (hG : Going s) (h : ReadTwo s) (h_step : Step s a s') : Inv s' := by
  obtain ⟨b, -, -, h_shift, -, rfl⟩ | ⟨b, -, h_reads, -⟩ | ⟨late, rfl, h_pending⟩ :=
    hG.data_step h.phase h.start h_step
  · exact h.recv hG b h_shift
  · exact not_sending h.reads h_reads
  · have hb : s.btf = true := by
      rw [h.itbufen] at h_pending
      exact h_pending.resolve_right (by simp)
    rw [handleEvent_btf h.phase hb]
    exact h.onBtf hG hb late

/-! ### Reading more -/

/-- A byte is stored, and `index` does not wrap. -/
def State.stored (s : State) : State :=
  { s with buf := s.buf.set s.index (s.dr.getD 0), index := s.index + 1, dr := s.shift,
           shift := none }

theorem store_eq (h : s.index < 255) : s.store = s.stored := by
  rw [State.store, inc_of_lt h, State.stored]

/-- A byte is stored in its place. -/
theorem store_take {b : UInt8} (h_dr : s.dr = some b) (h_index : s.index < s.buf.length) :
    s.stored.buf.take (s.index + 1) = s.buf.take s.index ++ [b] := by
  show (s.buf.set s.index (s.dr.getD 0)).take (s.index + 1) = _
  rw [h_dr]
  exact take_set_succ h_index b

theorem ReadMany.recv (hG : Going s) (h : ReadMany s) (ht : s.pending = false)
    (h_shift : s.shift = none) (b : UInt8) : Inv (s.recv b) := by
  refine .going (hG.of_call rfl) (.readMany ?_)
  have h_acked : (if s.pos then s.latched else s.ack) = true := by
    rw [if_neg (by rw [h.pos]; simp), h.ack]
  refine ⟨h.phase, h.start, h.reads, h.index, h.itbufen, h.stop, h.pos, h.ack, ?_, ?_, ?_, ?_⟩
  · show (!(if s.pos then s.latched else s.ack) || s.stop) = false
    rw [h_acked, h.stop]
    rfl
  · show s.wire ++ [(b, if s.pos then s.latched else s.ack)] = (s.buf.take s.index ++
      (s.dr <|> some b).toList ++ (if s.dr.isSome then some b else none).toList).map (·, true)
    rw [h_acked, h.bytes, h_shift]
    cases s.dr <;> simp
  · show (s.dr <|> some b) = none → _
    cases s.dr <;> simp
  · intro (h_index : s.index + 3 < s.count)
    show (if s.dr.isSome then some b else none) = none
    cases h_dr : s.dr with
    | none => rfl
    | some c =>
      -- the handler has not stored a byte in time
      have h_pending : s.pending = true := by
        simp [State.pending, State.rxne, hG.itevten, h.itbufen, h_index, h.phase, h.reads, h_dr]
      exact absurd (ht.symm.trans h_pending) (by simp)

/-- The third last byte and the one before the last are stored, and the last one will be refused. -/
theorem ReadMany.onBtf (hG : Going s) (h : ReadMany s) (hb : s.btf = true) (late : Bool) :
    Inv (s.onBtf.finish late) := by
  obtain ⟨h_dr, h_shift⟩ : s.dr.isSome = true ∧ s.shift.isSome = true := by
    simpa [State.btf, h.phase, h.reads] using hb
  obtain ⟨b, h_dr⟩ := Option.isSome_iff_exists.mp h_dr
  obtain ⟨c, h_shift⟩ := Option.isSome_iff_exists.mp h_shift
  -- with more bytes to come, the shift register would be free
  have h_index : s.index + 3 = s.count := by
    by_contra h_ne
    have h_free := h.shift (lt_of_le_of_ne h.index h_ne)
    exact absurd (h_shift.symm.trans h_free) (by simp)
  have h_len : s.index + 1 < s.buf.length := by
    rw [hG.length]
    omega
  have h_event : s.onBtf =
      { s with ack := false, stop := true, itbufen := true, dr := none, shift := none,
               buf := (s.buf.set s.index b).set (s.index + 1) c, index := s.index + 2 } := by
    have h_count : 2 < s.count := by omega
    have h_room := hG.room
    have h_inc : inc s.index = s.index + 1 := inc_of_lt (by omega)
    have h_inc' : inc (s.index + 1) = s.index + 2 := inc_of_lt (by omega)
    simp [State.onBtf, State.store, h.reads, h_count, h_dr, h_shift, h_inc, h_inc']
  have h_bytes : ((s.buf.set s.index b).set (s.index + 1) c).take (s.index + 2) =
      s.buf.take s.index ++ [b] ++ [c] := by
    rw [take_set_succ (by rw [List.length_set]; exact h_len),
      take_set_succ (Nat.lt_of_succ_lt h_len)]
  rw [h_event, finish_going]
  · refine .going ⟨hG.pc, hG.sem, hG.itevten, ?_, hG.count, hG.room, hG.error, hG.given,
      not_sending h.reads⟩ (.readLast ?_)
    · show ((s.buf.set s.index b).set (s.index + 1) c).length = s.count
      rw [List.length_set, List.length_set, hG.length]
    refine ⟨h.phase, h.start, h.reads, h_index, rfl, h.pos, rfl, rfl, .inl ⟨rfl, h.ended, ?_⟩⟩
    show s.wire = (((s.buf.set s.index b).set (s.index + 1) c).take (s.index + 2)).map (·, true)
    rw [h_bytes, h.bytes, h_dr, h_shift]
    rfl
  · show s.index + 2 ≠ s.count + 1
    omega

theorem ReadMany.onRxne (hG : Going s) (h : ReadMany s) (h_index : s.index + 3 < s.count)
    (hr : s.rxne = true) (late : Bool) : Inv (s.onRxne.finish late) := by
  have h_dr : s.dr.isSome = true := by
    simpa [State.rxne, h.phase, h.reads] using hr
  obtain ⟨b, h_dr⟩ := Option.isSome_iff_exists.mp h_dr
  have h_len : s.index < s.buf.length := by
    rw [hG.length]
    omega
  have h_shift := h.shift h_index
  -- `index` does not wrap, since `count` is less than 255
  have h_store : s.store = s.stored := by
    have h_room := hG.room
    exact store_eq (by omega)
  -- the handler only stores the byte, and stops at three bytes to go
  have h_event : s.onRxne = { s.stored with itbufen := decide (s.index + 4 < s.count) } := by
    unfold State.onRxne
    rw [h_store]
    by_cases h_last : s.stored.index + 3 = s.stored.count
    · rw [decide_eq_false (by rw [show s.count = s.index + 1 + 3 from h_last.symm]; omega)]
      exact if_pos h_last
    -- neither of the two tests of the handler is true
    · have h_more : s.index + 4 < s.count := by
        have : s.index + 1 + 3 ≠ s.count := h_last
        omega
      have h_not_all : s.stored.index ≠ s.stored.count := by
        show s.index + 1 ≠ s.count
        omega
      have h_itbufen : s.stored.itbufen = true := h.itbufen.trans (decide_eq_true h_index)
      rw [decide_eq_true h_more, ← h_itbufen]
      exact (if_neg h_last).trans (if_neg h_not_all)
  rw [h_event, finish_going]
  -- the bytes on the bus are those stored, with the byte that is being sent
  · refine .going ⟨hG.pc, hG.sem, hG.itevten, ?_, hG.count, hG.room, hG.error, hG.given,
      not_sending h.reads⟩ (.readMany ?_)
    · show (s.buf.set s.index (s.dr.getD 0)).length = s.count
      rw [List.length_set, hG.length]
    refine ⟨h.phase, h.start, h.reads, h_index, rfl, h.stop, h.pos, h.ack, h.ended, ?_,
      fun _ => rfl, fun _ => rfl⟩
    show s.wire = (s.stored.buf.take (s.index + 1) ++ s.shift.toList ++ []).map (·, true)
    rw [store_take h_dr h_len, h.bytes, h_dr, h_shift]
    simp
  · show s.index + 1 ≠ s.count + 1
    omega

theorem ReadMany.step (hG : Going s) (h : ReadMany s) (ht : Timely s a) (h_step : Step s a s') :
    Inv s' := by
  obtain ⟨b, rfl, -, h_shift, -, rfl⟩ | ⟨b, -, h_reads, -⟩ | ⟨late, rfl, h_pending⟩ :=
    hG.data_step h.phase h.start h_step
  · exact h.recv hG ht h_shift b
  · exact not_sending h.reads h_reads
  · cases hb : s.btf with
    | true =>
      -- one byte is in the data register and the next one behind it
      rw [handleEvent_btf h.phase hb]
      exact h.onBtf hG hb late
    | false =>
      -- a read never has room to send
      have h_txe : s.txe = false := by simp [State.txe, h.reads]
      rw [hb, h_txe, Bool.or_false] at h_pending
      obtain ⟨h_itbufen, hr⟩ := h_pending.resolve_left (by simp)
      rw [handleEvent_rxne h.phase hb hr]
      exact h.onRxne hG (of_decide_eq_true (h.itbufen.symm.trans h_itbufen)) hr late

/-! ### The last byte -/

theorem ReadLast.recv (hG : Going s) (h : ReadLast s) (h_ended : s.ended = false) (b : UInt8) :
    Inv (s.recv b) := by
  refine .going (hG.of_call rfl) (.readLast ?_)
  have h_acked : (if s.pos then s.latched else s.ack) = false := by
    rw [if_neg (by rw [h.pos]; simp), h.ack]
  obtain ⟨h_dr, -, h_wire⟩ | ⟨c, -, h_full, -⟩ := h.bytes
  · refine ⟨h.phase, h.start, h.reads, h.index, h.itbufen, h.pos, h.ack, ?_, .inr ⟨b, ?_, ?_, ?_⟩⟩
    · simp [State.recv, h_dr]
    · simp [State.recv, h_dr]
    · simp [State.recv, h_acked]
    · simp [State.recv, h_acked, h_wire]
  · exact absurd (h_ended.symm.trans h_full) (by simp)

theorem ReadLast.onRxne (hG : Going s) (h : ReadLast s) (hr : s.rxne = true) (late : Bool) :
    Inv (s.onRxne.finish late) := by
  have h_dr : s.dr.isSome = true := by
    simpa [State.rxne, h.phase, h.reads] using hr
  obtain ⟨h_none, -⟩ | ⟨b, h_dr, -, h_wire⟩ := h.bytes
  · exact absurd h_dr (by simp [h_none])
  have h_len : s.index < s.buf.length := by
    rw [hG.length]
    exact h.index.le
  -- the whole buffer is stored
  have h_buf : s.stored.buf = s.buf.take s.index ++ [b] := by
    have h_all : s.stored.buf.length = s.index + 1 := by
      show (s.buf.set s.index (s.dr.getD 0)).length = s.index + 1
      rw [List.length_set, hG.length, h.index]
    rw [← store_take h_dr h_len, ← h_all, List.take_length]
  have h_prev : (s.buf.take s.index).length = s.count - 1 := by
    rw [List.length_take_of_le h_len.le]
    exact Nat.eq_sub_of_add_eq h.index
  have h_room : s.index + 1 < 255 := h.index.trans_lt hG.room
  have h_event : s.onRxne = { s.stored with index := s.stored.index + 1 } := by
    have h_inc : inc s.stored.index = s.stored.index + 1 := inc_of_lt h_room
    unfold State.onRxne
    rw [store_eq (Nat.lt_of_succ_lt h_room)]
    dsimp only
    rw [h_inc]
    have h_not : s.stored.index + 3 ≠ s.stored.count := by
      show s.index + 1 + 3 ≠ s.count
      have := h.index
      omega
    exact (if_neg h_not).trans (if_pos h.index)
  rw [h_event]
  refine finish_done (s := { s.stored with index := s.stored.index + 1 })
    ⟨hG.pc, hG.sem, hG.itevten, ?_, hG.count, hG.room, hG.error, hG.given,
      not_sending h.reads⟩ ?_ h.shift rfl ?_ (fun _ => ⟨?_, ?_⟩)
    (not_sending h.reads) late
  · show (s.buf.set s.index (s.dr.getD 0)).length = s.count
    rw [List.length_set, hG.length]
  · exact congrArg (· + 1) h.index
  · show s.wire.length = s.count
    rw [h_wire, List.length_append, List.length_map, h_prev]
    exact Nat.sub_add_cancel hG.count
  · show s.stored.buf = s.wire.map Prod.fst
    rw [h_buf, h_wire]
    simp [Function.comp_def]
  · show s.wire.map Prod.snd = List.replicate (s.count - 1) true ++ [false]
    rw [h_wire, ← h_prev]
    simp [Function.comp_def]

theorem ReadLast.step (hG : Going s) (h : ReadLast s) (h_step : Step s a s') : Inv s' := by
  obtain ⟨b, -, -, -, h_ended, rfl⟩ | ⟨b, -, h_reads, -⟩ | ⟨late, rfl, h_pending⟩ :=
    hG.data_step h.phase h.start h_step
  · exact h.recv hG h_ended b
  · exact not_sending h.reads h_reads
  · have hb : s.btf = false := by simp [State.btf, h.reads, h.shift]
    have h_txe : s.txe = false := by simp [State.txe, h.reads]
    rw [hb, h_txe, Bool.or_false] at h_pending
    obtain ⟨-, hr⟩ := h_pending.resolve_left (by simp)
    rw [handleEvent_rxne h.phase hb hr]
    exact h.onRxne hG hr late

/-! ### Runs -/

theorem Stage.step (hG : Going s) (h : Stage s) (ht : Timely s a) (h_step : Step s a s') :
    Inv s' := by
  -- up to the first byte each stage has one step, and the bytes have their own lemmas
  cases h with
  | starting h h_phase _ h_pos =>
    rw [hG.starting_step h_phase h_step]
    exact .going (hG.of_call rfl) (.sb ⟨h.dr, h.shift, h.wire, h.stop⟩ rfl rfl rfl h_pos)
  | sb h h_phase h_start h_ended h_pos =>
    rw [hG.sb_step h_phase h_start h_step]
    exact h.onSb hG h_start h_ended h_pos
  | address h h_phase =>
    rw [hG.address_step h_phase h.start h_step]
    exact .going (hG.of_call rfl) (.addr ⟨⟨h.dr, h.shift, h.wire, h.stop⟩, h.start, h.ended, h.ack,
      h.index, h.pos⟩ rfl h.ack)
  | addr h h_phase h_latched =>
    rw [h.addr_step hG h_phase h_step]
    exact h.onAddr hG h_latched
  | writing h => exact h.step hG ht h_step
  | readTwo h => exact h.step hG h_step
  | readMany h => exact h.step hG ht h_step
  | readLast h => exact h.step hG h_step

/-- The peripheral does nothing of its own. -/
theorem Quiet.step (h : Quiet s) (h_step : Step s a s') :
    (∃ rc addrDir buf, s.pc = .returned rc ∧ a = .transact addrDir buf ∧
      s' = s.transact addrDir buf) ∨
    s.pc = .wait ∧ s.sem = true ∧ s' = { s with sem := false, pc := .returned (some s.error) } := by
  cases h_step with
  | transact addrDir buf h_pc => exact .inl ⟨_, addrDir, buf, h_pc, rfl, rfl⟩
  | started hs => exact absurd (h.start.symm.trans hs) (by simp)
  | addressed hp | recv _ hp | sent hp => exact absurd (h.phase.symm.trans hp) (by simp)
  | event late h_pending => simp [State.pending, h.itevten] at h_pending
  | ret h_pc h_sem => exact .inr ⟨h_pc, h_sem, rfl⟩

theorem Inv.step (h : Inv s) (ht : Timely s a) (hn : machine.next s a = some s') : Inv s' := by
  have h_step := step_of_next hn
  cases h with
  | @returned rc h_pc h_sem hQ =>
    -- a call starts a transaction
    obtain ⟨_, addrDir, buf, -, rfl, rfl⟩ | ⟨hp, -⟩ := hQ.step h_step
    · have h_count : buf.length % 256 = buf.length := Nat.mod_eq_of_lt (ht.2.trans (by decide))
      exact .going ⟨rfl, h_sem, rfl, h_count.symm, ht.1.trans_eq h_count.symm,
        h_count.trans_lt ht.2, rfl, h_count.symm, fun _ => rfl⟩
        (.starting ⟨hQ.dr, hQ.shift, rfl, hQ.stop⟩ hQ.phase rfl hQ.pos)
    · exact absurd (h_pc.symm.trans hp) (by simp)
  -- each stage has its own lemma
  | going hG h_stage => exact h_stage.step hG ht h_step
  | done h_pc h_sem hQ hC =>
    -- the thread wakes up and returns
    obtain ⟨_, _, _, hp, -⟩ | ⟨-, -, rfl⟩ := hQ.step h_step
    · exact absurd (h_pc.symm.trans hp) (by simp)
    · exact .returned rfl rfl ⟨hQ.itevten, hQ.start, hQ.stop, hQ.pos, hQ.phase, hQ.dr, hQ.shift⟩
        (.inr ⟨rfl, hC.length, hC.read, hC.write, hC.error⟩)

theorem Inv.of_reach (h : machine.Reach Timely s) : Inv s := by
  refine h.invariant ?_ fun _ _ _ h_inv ht hn => h_inv.step ht hn
  exact .returned rfl rfl ⟨rfl, rfl, rfl, rfl, rfl, rfl, rfl⟩ (.inl rfl)

/-! ### Progress -/

/-- How many steps there are at most to the end of the transaction. -/
def State.left (s : State) : ℕ :=
  match s.phase with
  | .idle => 2 * s.count + 5
  | .sb => 2 * s.count + 4
  | .address => 2 * s.count + 3
  | .addr => 2 * s.count + 2
  | .data => s.count - s.wire.length + (s.count + 1 - s.index)

/-- How many steps a call still takes at most. -/
def State.remaining (s : State) : ℕ :=
  if s.pc = .wait then (if s.sem then 0 else s.left) + 1 else 0

theorem Stage.bounds (hG : Going s) (h : Stage s) (h_phase : s.phase = .data) :
    s.wire.length ≤ s.count ∧ s.index ≤ s.count := by
  cases h with
  | starting _ hp | sb _ hp | address _ hp | addr _ hp =>
    exact absurd (hp.symm.trans h_phase) (by simp)
  | writing h =>
    -- what is on the bus and on its way there are the bytes up to `index`
    have h_bytes := congrArg List.length h.bytes
    have h_index := h.index
    simp only [List.length_append, List.length_map, List.length_take, hG.length] at h_bytes
    omega
  | readTwo h =>
    refine ⟨?_, h.index.trans_le (Nat.zero_le _)⟩
    rw [h.count]
    obtain ⟨-, -, h_wire, -⟩ | ⟨_, -, -, h_wire, -⟩ | ⟨_, _, -, -, h_wire⟩ := h.bytes <;>
      simp [h_wire]
  | readMany h =>
    have h_bytes := congrArg List.length h.bytes
    have h_index := h.index
    -- two more bytes at most are not stored yet
    have h_dr : s.dr.toList.length ≤ 1 := by cases s.dr <;> simp
    have h_shift : s.shift.toList.length ≤ 1 := by cases s.shift <;> simp
    simp only [List.length_append, List.length_map, List.length_take] at h_bytes
    omega
  | readLast h =>
    have h_index := h.index
    refine ⟨?_, by omega⟩
    obtain ⟨-, -, h_wire⟩ | ⟨_, -, -, h_wire⟩ := h.bytes <;>
      simp only [h_wire, List.length_append, List.length_map, List.length_take,
        List.length_singleton] <;> omega

/-- What the handler does to the place in the data. -/
structure Moved (s s' : State) : Prop where
  index : s.index < s'.index
  count : s'.count = s.count
  wire : s'.wire = s.wire
  phase : s'.phase = s.phase

theorem onBtf_moved (h : s.index < 255) (h_reads : s.reads = true → s.index < 253) :
    Moved s s.onBtf := by
  have h_inc : inc s.index = s.index + 1 := inc_of_lt h
  unfold State.onBtf
  -- the end of a longer read, a read of two bytes, a write
  split_ifs with hr
  · have h_room := h_reads hr
    refine ⟨?_, rfl, rfl, rfl⟩
    show s.index < inc (inc s.index)
    rw [h_inc, inc_of_lt (by omega)]
    omega
  · have h_room := h_reads hr
    refine ⟨?_, rfl, rfl, rfl⟩
    show s.index < inc (inc (inc s.index))
    -- three bytes are counted here, and none of the increments wraps
    rw [h_inc, inc_of_lt (i := s.index + 1) (by omega), inc_of_lt (by omega)]
    omega
  · refine ⟨?_, rfl, rfl, rfl⟩
    show s.index < inc s.index
    rw [h_inc]
    exact Nat.lt_succ_self _

theorem onRxne_moved (h : s.index < 254) : Moved s s.onRxne := by
  have h_store : Moved s s.store := by
    refine ⟨?_, rfl, rfl, rfl⟩
    show s.index < inc s.index
    rw [inc_of_lt (by omega)]
    exact Nat.lt_succ_self _
  unfold State.onRxne
  dsimp only
  split_ifs
  · exact ⟨h_store.index, rfl, rfl, rfl⟩
  · refine ⟨?_, rfl, rfl, rfl⟩
    show s.index < inc (inc s.index)
    rw [inc_of_lt (by omega : s.index < 255), inc_of_lt (by omega)]
    omega
  · exact h_store

theorem onTxe_moved (h : s.index < 255) : Moved s s.onTxe := by
  have h_load : Moved s s.load := by
    unfold State.load
    rw [inc_of_lt h]
    cases s.shift <;> exact ⟨Nat.lt_succ_self _, rfl, rfl, rfl⟩
  unfold State.onTxe
  dsimp only
  split_ifs
  · exact ⟨h_load.index, h_load.count, h_load.wire, h_load.phase⟩
  · exact h_load

/-- `index` has room for what the handler adds to it. -/
structure Room (s : State) : Prop where
  index : s.index < 255
  reads : s.reads = true → s.index < 254
  btf : s.btf = true → s.reads = true → s.index < 253

theorem Stage.room (hG : Going s) (h : Stage s) (h_phase : s.phase = .data) : Room s := by
  have h_room := hG.room
  cases h with
  | starting _ hp | sb _ hp | address _ hp | addr _ hp =>
    exact absurd (hp.symm.trans h_phase) (by simp)
  | writing h =>
    have h_index := h.index
    exact ⟨by omega, fun h_reads => not_sending h_reads h.reads,
      fun _ h_reads => not_sending h_reads h.reads⟩
  | readTwo h =>
    have h_index := h.index
    exact ⟨by omega, fun _ => by omega, fun _ _ => by omega⟩
  | readMany h =>
    have h_index := h.index
    exact ⟨by omega, fun _ => by omega, fun _ _ => by omega⟩
  | readLast h =>
    -- the shift register is empty
    have h_index := h.index
    have hb : s.btf = false := by simp [State.btf, h.reads, h.shift]
    exact ⟨by omega, fun _ => by omega, fun h_btf => absurd (hb.symm.trans h_btf) (by simp)⟩

/-- Every interrupt in the data phase takes the transaction further. -/
theorem handleEvent_moved (h_phase : s.phase = .data) (h_room : Room s)
    (h : s.btf = true ∨ s.itbufen = true ∧ (s.rxne || s.txe) = true) (late : Bool) :
    ∃ t, Moved s t ∧ s.handleEvent late = t.finish late := by
  -- `BTF` is tested first, then `RXNE`, then `TXE`
  cases hb : s.btf with
  | true =>
    exact ⟨_, onBtf_moved h_room.index (h_room.btf hb), handleEvent_btf h_phase hb late⟩
  | false =>
    cases hr : s.rxne with
    | true =>
      have h_reads : s.reads = true := by
        rw [State.rxne, Bool.and_eq_true, Bool.and_eq_true] at hr
        exact hr.1.2
      exact ⟨_, onRxne_moved (h_room.reads h_reads), handleEvent_rxne h_phase hb hr late⟩
    | false =>
      rw [hb, hr, Bool.false_or] at h
      obtain ⟨-, h_txe⟩ := h.resolve_left (by simp)
      exact ⟨_, onTxe_moved h_room.index, handleEvent_txe h_phase hb hr h_txe late⟩

theorem Going.remaining (hG : Going s) : s.remaining = s.left + 1 := by
  rw [State.remaining, if_pos hG.pc, if_neg (by rw [hG.sem]; simp)]

theorem left_data (h_phase : s.phase = .data) :
    s.left = s.count - s.wire.length + (s.count + 1 - s.index) := by
  rw [State.left, h_phase]

theorem remaining_done (h_pc : s.pc = .wait) (h_sem : s.sem = true) : s.remaining = 1 := by
  rw [State.remaining, if_pos h_pc, if_pos h_sem]

/-- A byte or an interrupt brings a transaction nearer to its end. -/
theorem Going.data_lt (hG : Going s) (h : Stage s) (h_phase : s.phase = .data)
    (h_start : s.start = false) (ht : Timely s a) (h_step : Step s a s') :
    s'.remaining < s.remaining := by
  have h_inv := h.step hG ht h_step
  obtain ⟨h_wire, h_index⟩ := h.bounds hG h_phase
  rw [hG.remaining, left_data h_phase]
  -- one more byte on the bus, and there are no more than `count`
  have h_byte (h_goes : Going s') (hp : s'.phase = .data)
      (h_more : s'.wire.length = s.wire.length + 1) (h_count : s'.count = s.count)
      (h_same : s'.index = s.index) :
      s'.remaining < s.count - s.wire.length + (s.count + 1 - s.index) + 1 := by
    cases h_inv with
    | returned h_pc => exact absurd (h_goes.pc.symm.trans h_pc) (by simp)
    | done _ h_sem => exact absurd (h_goes.sem.symm.trans h_sem) (by simp)
    | going _ h_stage =>
      obtain ⟨h_wire', -⟩ := h_stage.bounds h_goes hp
      rw [h_goes.remaining, left_data hp]
      omega
  obtain ⟨b, -, -, -, -, rfl⟩ | ⟨b, -, -, -, rfl⟩ | ⟨late, rfl, h_pending⟩ :=
    hG.data_step h_phase h_start h_step
  · exact h_byte (hG.of_call rfl) h_phase (List.length_append ..) rfl rfl
  · exact h_byte (hG.of_call rfl) h_phase (List.length_append ..) rfl rfl
  · obtain ⟨t, h_moved, h_event⟩ := handleEvent_moved h_phase (h.room hG h_phase) h_pending late
    rw [h_event] at h_inv ⊢
    by_cases h_done : t.index = t.count + 1
    · -- the last interrupt
      have h_finish : (t.finish late).sem = true := by
        rw [State.finish, if_pos h_done]
      cases h_inv with
      | returned h_pc h_sem => exact absurd (h_sem.symm.trans h_finish) (by simp)
      | going hG' => exact absurd (hG'.sem.symm.trans h_finish) (by simp)
      | done h_pc h_sem =>
        rw [remaining_done h_pc h_sem]
        omega
    · rw [finish_going h_done] at h_inv ⊢
      have h_count := h_moved.count
      have h_more := h_moved.index
      cases h_inv with
      | returned h_pc =>
        simp [State.remaining, h_pc]
      | going hG' h_stage =>
        rw [hG'.remaining, left_data (h_moved.phase.trans h_phase), h_moved.wire]
        omega
      | done h_pc h_sem =>
        rw [remaining_done h_pc h_sem]
        omega

theorem Going.remaining_lt (hG : Going s) (h_call : s'.call = s.call) (h_left : s'.left < s.left) :
    s'.remaining < s.remaining := by
  rw [hG.remaining, (hG.of_call h_call).remaining]
  exact Nat.succ_lt_succ h_left

/-- So do the steps before the first byte. -/
theorem Stage.remaining_lt (hG : Going s) (h : Stage s) (ht : Timely s a)
    (h_step : Step s a s') : s'.remaining < s.remaining := by
  cases h with
  | starting _ h_phase =>
    obtain rfl := hG.starting_step h_phase h_step
    refine hG.remaining_lt rfl ?_
    simp [State.left, h_phase]
  | sb _ h_phase h_start =>
    obtain rfl := hG.sb_step h_phase h_start h_step
    refine hG.remaining_lt rfl ?_
    simp [State.left, State.onSb, h_phase]
  | address h h_phase =>
    obtain rfl := hG.address_step h_phase h.start h_step
    refine hG.remaining_lt rfl ?_
    simp [State.left, h_phase]
  | addr h h_phase =>
    -- what the handler does with the address depends on the kind of transfer, the count does not
    obtain rfl := h.addr_step hG h_phase h_step
    obtain ⟨h_call, h_data⟩ : s.onAddr.call = s.call ∧ s.onAddr.phase = .data := by
      unfold State.onAddr
      split_ifs <;> exact ⟨rfl, rfl⟩
    have h_count : s.onAddr.count = s.count := by
      unfold State.onAddr
      split_ifs <;> rfl
    have h_left : s.left = 2 * s.count + 2 := by rw [State.left, h_phase]
    refine hG.remaining_lt h_call ?_
    rw [left_data h_data, h_count, h_left]
    omega
  -- from here on every byte is a step nearer
  | writing hw => exact hG.data_lt (.writing hw) hw.phase hw.start ht h_step
  | readTwo hr => exact hG.data_lt (.readTwo hr) hr.phase hr.start ht h_step
  | readMany hr => exact hG.data_lt (.readMany hr) hr.phase hr.start ht h_step
  | readLast hr => exact hG.data_lt (.readLast hr) hr.phase hr.start ht h_step

/-- Every step of the machine brings the return of a call nearer. -/
theorem Inv.remaining_lt (h : Inv s) (h_wait : s.pc = .wait) (ht : Timely s a)
    (hn : machine.next s a = some s') : s'.remaining < s.remaining := by
  have h_step := step_of_next hn
  cases h with
  | returned h_pc => exact absurd (h_wait.symm.trans h_pc) (by simp)
  | done h_pc h_sem hQ =>
    obtain ⟨_, _, _, hp, -⟩ | ⟨-, -, rfl⟩ := hQ.step h_step
    · exact absurd (h_wait.symm.trans hp) (by simp)
    · rw [remaining_done h_pc h_sem]
      exact Nat.one_pos
  | going hG h_stage => exact h_stage.remaining_lt hG ht h_step

/-- While a call waits, the machine has a step to take. -/
theorem Inv.progress (h : Inv s) (h_wait : s.pc = .wait) :
    ∃ a, Timely s a ∧ (machine.next s a).isSome = true := by
  by_cases h_pending : s.pending = true
  · exact ⟨.event false, trivial, by simp [machine, State.next, h_pending]⟩
  rw [Bool.not_eq_true] at h_pending
  cases h with
  | returned h_pc => exact absurd (h_wait.symm.trans h_pc) (by simp)
  | done h_pc h_sem => exact ⟨.ret, trivial, by simp [machine, State.next, h_pc, h_sem]⟩
  | going hG h_stage =>
    cases h_stage with
    | starting h h_phase h_start =>
      exact ⟨.started, trivial, by simp [machine, State.next, h_phase, h_start]⟩
    | address h h_phase => exact ⟨.addressed, trivial, by simp [machine, State.next, h_phase]⟩
    | sb h h_phase | addr h h_phase =>
      simp [State.pending, hG.itevten, h_phase] at h_pending
    | writing h =>
      refine ⟨.sent, h_pending, ?_⟩
      cases h_shift : s.shift with
      | some b => simp [machine, State.next, h.phase, h.reads, h_shift]
      | none =>
        -- the bus rests only before the first byte and after the last one
        have h_dr := h.dr h_shift
        have h_count := hG.count
        have h_wire : s.wire = [] := by
          by_contra h_ne
          simp [State.pending, State.btf, hG.itevten, h.phase, h.reads, h_dr, h_shift, h_ne]
            at h_pending
        have h_index : ¬ s.index < s.count := by
          intro h_index
          simp [State.pending, State.txe, hG.itevten, h.phase, h.reads, h_dr, h.itbufen, h_index]
            at h_pending
        have h_bytes := congrArg List.length h.bytes
        simp [h_wire, h_shift, h_dr, hG.length] at h_bytes
        omega
    | readTwo h =>
      rw [h.pending hG] at h_pending
      refine ⟨.recv 0, (h.pending hG).trans h_pending, ?_⟩
      obtain ⟨-, h_shift, -, -, h_ended⟩ | ⟨_, -, h_shift, -, -, h_ended⟩ |
        ⟨_, _, h_dr, h_shift, -⟩ := h.bytes
      · simp [machine, State.next, h.phase, h.reads, h_shift, h_ended]
      · simp [machine, State.next, h.phase, h.reads, h_shift, h_ended]
      · simp [State.btf, h.phase, h.reads, h_dr, h_shift] at h_pending
    | readMany h =>
      refine ⟨.recv 0, h_pending, ?_⟩
      have h_shift : s.shift = none := by
        by_contra h_full
        have h_dr : s.dr ≠ none := fun h_none => h_full (h.dr h_none)
        simp [State.pending, State.btf, hG.itevten, h.phase, h.reads,
          Option.isSome_iff_ne_none.mpr h_dr, Option.isSome_iff_ne_none.mpr h_full] at h_pending
      simp [machine, State.next, h.phase, h.reads, h_shift, h.ended]
    | readLast h =>
      refine ⟨.recv 0, h_pending, ?_⟩
      obtain ⟨-, h_ended, -⟩ | ⟨b, h_dr, -⟩ := h.bytes
      · simp [machine, State.next, h.phase, h.reads, h.shift, h_ended]
      · simp [State.pending, State.rxne, hG.itevten, h.itbufen, h.phase, h.reads, h_dr] at h_pending

end Step

/-- A read of three bytes. -/
def readThree : List Action :=
  [.transact 0xA1 [0, 0, 0], .started, .event false, .addressed, .event false, .recv 7, .recv 8,
    .event false, .recv 9, .event false, .ret]

end I2c

end Laureline
