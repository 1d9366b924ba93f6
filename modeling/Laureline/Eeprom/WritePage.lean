import Laureline.Lib.Machine
import Laureline.Lib.CInt

/-!
# Writing a page of the EEPROM

`eeprom_write_page` of `eeprom.c` with `eeprom_do`, cut at every `i2c_transact` and at every
look at the tick count. How a transaction ends is left open, and so is what the EEPROM does
with the bytes it is sent: it may change the page that the first byte names, and nothing
else. A read stores bytes even if it fails later on.

The buffer `tmp` holds what is sent and is read back into. `eeprom_write_page_sends` says
under which condition on the bytes read back (`Harmless`) a further attempt still sends the
page, and `resend_wrong` that the condition is needed.
-/

namespace Laureline

namespace Eeprom

/-! ### Transactions -/

/-- The codes that the interrupt handlers record for a transaction. -/
inductive I2cError
  | ok
  | timeout
  | fault
  | nack
  | again
deriving DecidableEq, Repr

/-- `EERR_…`. -/
def I2cError.code : I2cError → ℤ
  | .ok => 0
  | .timeout => -1
  | .fault => -2
  | .nack => -4
  | .again => -6

/-- What `i2c_transact` returns. The member `error` of `i2c_t` is a `uint8_t`. -/
def i2cTransact (e : I2cError) : ℤ := e.code % 2 ^ 8

/-- `EEPROM_PAGE_SIZE`. -/
def pageSize : ℕ := 8

/-- `EEPROM_SIZE`. -/
def size : ℕ := 128

/-- The page of an address byte. The device ignores the bits above its size. -/
def page (addr : UInt8) : ℕ := addr.toNat % size / pageSize

/-- `pdMS_TO_TICKS(250)`. -/
def deadline : ℕ := 25

/-! ### `eeprom_write_page` -/

/-- The arguments of `eeprom_write_page`. -/
structure Request where
  addr : UInt8
  buf : List UInt8
  length_buf : buf.length = pageSize

/-- The bytes of a data transaction: the address and the page. -/
def Request.data (r : Request) : List UInt8 := r.addr :: r.buf

/-- Where a call of `eeprom_write_page` is. -/
inductive Pc
  /-- The transaction that sends `tmp`. -/
  | write
  /-- The head of the loop around the read-back. -/
  | poll
  /-- The transaction that sends the address of the read-back. -/
  | readAddr
  /-- The transaction that reads into `tmp`. -/
  | readData
  | returned (status : ℤ)
deriving DecidableEq, Repr

/-- The variables of the call, the clock and the EEPROM. -/
structure State where
  pc : Pc
  /-- The attempts left, the present one included. -/
  i : ℕ
  tmp : List UInt8
  start : ℕ
  /-- `retries` of the `eeprom_do` in progress. -/
  retries : ℕ
  /-- The tick count. -/
  tick : ℕ
  /-- The cells of the EEPROM. -/
  mem : ℕ → UInt8
  -- history variables
  /-- The transactions that sent more than an address. -/
  sent : List (List UInt8)
  /-- The bytes of the last successful read. -/
  readBack : List UInt8

/-- A tick, or the next step of the call. -/
inductive Action
  | tick
  /-- The check of the tick count. -/
  | poll
  /-- A transaction to the EEPROM ends, and `cells` are in the page it was for. -/
  | transmit (e : I2cError) (cells : ℕ → UInt8)
  /-- A transaction from the EEPROM ends, with these bytes read. -/
  | receive (e : I2cError) (bytes : List UInt8)

namespace State

variable (s : State)

/-- After a failed transaction of `eeprom_do`: the `continue` that uses up a retry, or the
return of the status. `again` is where the loop continues. -/
def retry (again : Pc) (done : State → State) : State :=
  if s.retries = 1 then done { s with retries := 0 }
  else { s with retries := s.retries - 1, pc := again }

/-- The end of the `eeprom_do` that writes. -/
def written (status : ℤ) : State :=
  if status ≠ I2cError.ok.code then { s with pc := .returned status }
  else { s with start := s.tick, pc := .poll }

/-- The end of the `eeprom_do` that reads back, and of an attempt. -/
def readDone (r : Request) (status : ℤ) : State :=
  if status = I2cError.ok.code then
    if s.tmp.take pageSize = r.buf then { s with pc := .returned I2cError.ok.code }
    else if s.i = 1 then { s with i := 0, pc := .returned I2cError.fault.code }
    else { s with i := s.i - 1, retries := 5, pc := .write }
  else if status ≠ I2cError.nack.code then { s with pc := .returned status }
  else { s with pc := .poll }

/-- A page of the EEPROM changes. -/
def change (addr : UInt8) (cells : ℕ → UInt8) : State :=
  { s with mem := fun x => if x / pageSize = page addr then cells x else s.mem x }

/-- The successor under an action. -/
def next (r : Request) (s : State) : Action → Option State
  | .tick => some { s with tick := u32 (s.tick + 1) }
  | .poll =>
    match s.pc with
    | .poll =>
      if u32 (s.tick - s.start) > deadline then
        some { s with pc := .returned I2cError.timeout.code }
      else some { s with retries := 5, pc := .readAddr }
    | _ => none
  | .transmit e cells =>
    let status := i2cTransact e
    match s.pc with
    | .write =>
      let s' := { s.change (s.tmp.headD 0) cells with sent := s.sent ++ [s.tmp] }
      if status = I2cError.again.code then some s'
      else if status ≠ I2cError.ok.code then some (s'.retry .write (·.written status))
      else some (s'.written status)
    | .readAddr =>
      if status = I2cError.again.code then some s
      else if status ≠ I2cError.ok.code then some (s.retry .readAddr (·.readDone r status))
      else some { s with pc := .readData }
    | _ => none
  | .receive e bytes =>
    let status := i2cTransact e
    match s.pc with
    | .readData =>
      if bytes.length > pageSize ∨ (e = .ok ∧ bytes.length ≠ pageSize) then none
      else
        let s' := { s with tmp := bytes ++ s.tmp.drop bytes.length }
        if status ≠ I2cError.ok.code then some (s'.retry .readAddr (·.readDone r status))
        else some ({ s' with readBack := bytes }.readDone r status)
    | _ => none

end State

/-- The call begins, with the tick count and the cells of the EEPROM as they are. -/
def start (r : Request) (tick : ℕ) (mem : ℕ → UInt8) : State where
  pc := .write
  i := 3
  tmp := r.data
  start := 0
  retries := 5
  tick := tick
  mem := mem
  sent := []
  readBack := []

/-- `eeprom_write_page` with a bus and an EEPROM. -/
def machine (r : Request) (tick : ℕ) (mem : ℕ → UInt8) : Machine State Action :=
  { init := start r tick mem, next := State.next r }

/-! ### Steps -/

/-- The transaction that sends `tmp`. -/
def State.sends (s : State) (cells : ℕ → UInt8) : State :=
  { s.change (s.tmp.headD 0) cells with sent := s.sent ++ [s.tmp] }

/-- The transaction that reads into `tmp`. -/
def State.reads (s : State) (bytes : List UInt8) : State :=
  { s with tmp := bytes ++ s.tmp.drop bytes.length }

/-- What an action does at each place. -/
inductive Step (r : Request) (s : State) : Action → State → Prop
  | tick : Step r s .tick { s with tick := u32 (s.tick + 1) }
  | late (hpc : s.pc = .poll) (h_late : deadline < u32 (s.tick - s.start)) :
      Step r s .poll { s with pc := .returned I2cError.timeout.code }
  | ask (hpc : s.pc = .poll) (h_time : u32 (s.tick - s.start) ≤ deadline) :
      Step r s .poll { s with retries := 5, pc := .readAddr }
  -- the page is sent
  | pageAgain {e : I2cError} {cells : ℕ → UInt8} (hpc : s.pc = .write)
      (h_again : i2cTransact e = I2cError.again.code) : Step r s (.transmit e cells) (s.sends cells)
  | pageFailed {e : I2cError} {cells : ℕ → UInt8} (hpc : s.pc = .write) (h_fail : e ≠ .ok)
      (h_counts : i2cTransact e ≠ I2cError.again.code) :
      Step r s (.transmit e cells) ((s.sends cells).retry .write (·.written (i2cTransact e)))
  | page {cells : ℕ → UInt8} (hpc : s.pc = .write) :
      Step r s (.transmit .ok cells) ((s.sends cells).written (i2cTransact .ok))
  -- the address of the read-back is sent
  | addrAgain {e : I2cError} {cells : ℕ → UInt8} (hpc : s.pc = .readAddr)
      (h_again : i2cTransact e = I2cError.again.code) : Step r s (.transmit e cells) s
  | addrFailed {e : I2cError} {cells : ℕ → UInt8} (hpc : s.pc = .readAddr) (h_fail : e ≠ .ok)
      (h_counts : i2cTransact e ≠ I2cError.again.code) :
      Step r s (.transmit e cells) (s.retry .readAddr (·.readDone r (i2cTransact e)))
  | addr {cells : ℕ → UInt8} (hpc : s.pc = .readAddr) :
      Step r s (.transmit .ok cells) { s with pc := .readData }
  -- the page is read back
  | dataFailed {e : I2cError} {bytes : List UInt8} (hpc : s.pc = .readData)
      (h_len : bytes.length ≤ pageSize) (h_fail : e ≠ .ok) :
      Step r s (.receive e bytes) ((s.reads bytes).retry .readAddr (·.readDone r (i2cTransact e)))
  | data {bytes : List UInt8} (hpc : s.pc = .readData) (h_len : bytes.length = pageSize) :
      Step r s (.receive .ok bytes)
        ({ s.reads bytes with readBack := bytes }.readDone r (i2cTransact .ok))

theorem i2cTransact_eq_ok {e : I2cError} : i2cTransact e = I2cError.ok.code ↔ e = .ok := by
  cases e <;> decide

/-- `next` does nothing else. -/
theorem step_of_next {r : Request} {s s' : State} {a : Action} (hn : s.next r a = some s') :
    Step r s a s' := by
  cases a with
  | tick =>
    obtain rfl := Option.some.inj hn
    exact .tick
  | poll =>
    cases hpc : s.pc <;> simp only [State.next, hpc, reduceCtorEq] at hn
    -- the deadline is looked at before the EEPROM is asked again
    split_ifs at hn with h_late <;> obtain rfl := Option.some.inj hn
    · exact .late hpc h_late
    · exact .ask hpc (Nat.le_of_not_gt h_late)
  | transmit e cells =>
    cases hpc : s.pc <;> simp only [State.next, hpc, reduceCtorEq] at hn
    case write =>
      -- `eeprom_do` has three ways out: again, an error, success
      split_ifs at hn with h_again h_fail <;> obtain rfl := Option.some.inj hn
      · exact .pageAgain hpc h_again
      · exact .pageFailed hpc (fun h_ok => h_fail (i2cTransact_eq_ok.mpr h_ok)) h_again
      · obtain rfl := i2cTransact_eq_ok.mp (not_not.mp h_fail)
        exact .page hpc
    case readAddr =>
      split_ifs at hn with h_again h_fail <;> obtain rfl := Option.some.inj hn
      · exact .addrAgain hpc h_again
      · exact .addrFailed hpc (fun h_ok => h_fail (i2cTransact_eq_ok.mpr h_ok)) h_again
      · obtain rfl := i2cTransact_eq_ok.mp (not_not.mp h_fail)
        exact .addr hpc
  | receive e bytes =>
    simp only [State.next] at hn
    split at hn
    · next hpc =>
      -- a read that succeeds has read the whole page
      split_ifs at hn with h_len h_fail <;> obtain rfl := Option.some.inj hn
      · exact .dataFailed hpc (Nat.le_of_not_gt fun h_long => h_len (.inl h_long))
          fun h_ok => h_fail (i2cTransact_eq_ok.mpr h_ok)
      · obtain rfl := i2cTransact_eq_ok.mp (not_not.mp h_fail)
        exact .data hpc (by_contra fun h_ne => h_len (.inr ⟨rfl, h_ne⟩))
    · exact absurd hn (by simp)

/-! ### What is sent -/

/-- The page that is being written is all that is sent and all that changes, and success
means that it was read back. -/
structure Intact (r : Request) (mem : ℕ → UInt8) (s : State) : Prop where
  sent : ∀ t ∈ s.sent, t = r.data
  frame : ∀ x, x / pageSize ≠ page r.addr → s.mem x = mem x
  readBack : s.pc = .returned I2cError.ok.code → s.readBack = r.buf

/-- Bytes that differ from the page and are followed by another attempt are the address and
the first seven bytes of the page. -/
def Harmless (r : Request) (s : State) : Action → Prop
  | .receive e bytes => e = .ok → bytes ≠ r.buf → s.i ≠ 1 → bytes = r.data.take pageSize
  | _ => True

instance (r : Request) (s : State) : ∀ a, Decidable (Harmless r s a)
  | .receive e bytes =>
    inferInstanceAs (Decidable (e = .ok → bytes ≠ r.buf → s.i ≠ 1 → bytes = r.data.take pageSize))
  | .tick | .poll | .transmit _ _ => isTrue trivial

/-- What holds at every access. The ninth byte of `tmp` is never read into. -/
structure Inv (r : Request) (mem : ℕ → UInt8) (s : State) : Prop extends Intact r mem s where
  length_tmp : s.tmp.length = pageSize + 1
  ninth : s.tmp.drop pageSize = r.data.drop pageSize
  write : s.pc = .write → s.tmp = r.data

section Step

variable {r : Request} {mem : ℕ → UInt8} {s s' : State} {a : Action}

theorem length_data (r : Request) : r.data.length = pageSize + 1 := by
  rw [Request.data, List.length_cons, r.length_buf]

/-- A step that only moves on. -/
theorem Inv.goto (h : Inv r mem s) (pc : Pc) (h_write : pc = .write → s.tmp = r.data)
    (h_ok : pc ≠ .returned I2cError.ok.code) : Inv r mem { s with pc := pc } :=
  { h with readBack := fun h_pc => absurd h_pc h_ok, write := h_write }

theorem Inv.written (h : Inv r mem s) (status : ℤ) : Inv r mem (s.written status) := by
  unfold State.written
  split_ifs with h_status
  · exact h.goto _ (fun h_pc => absurd h_pc (by simp)) (by simpa using h_status)
  · exact { h with
      readBack := fun h_pc => absurd h_pc (by simp), write := fun h_pc => absurd h_pc (by simp) }

/-- The end of a read-back. Another attempt sends what `tmp` holds. -/
theorem Inv.readDone (h : Inv r mem s) (status : ℤ)
    (h_ok : status = I2cError.ok.code → s.tmp.take pageSize = s.readBack)
    (h_again : status = I2cError.ok.code → s.tmp.take pageSize ≠ r.buf → s.i ≠ 1 →
      s.tmp = r.data) : Inv r mem (s.readDone r status) := by
  unfold State.readDone
  -- the page is as wanted, the attempts are used up, one more, still busy, failed
  split_ifs with h_status h_eq h_last h_nack
  · exact { h with
      readBack := fun _ => (h_ok h_status).symm.trans h_eq
      write := fun h_pc => absurd h_pc (by simp) }
  · exact { h with
      readBack := fun h_pc => absurd h_pc (by simp [I2cError.code])
      write := fun h_pc => absurd h_pc (by simp) }
  · exact { h with
      readBack := fun h_pc => absurd h_pc (by simp)
      write := fun _ => h_again h_status h_eq h_last }
  · exact h.goto _ (fun h_pc => absurd h_pc (by simp)) (by simpa using h_status)
  · exact h.goto _ (fun h_pc => absurd h_pc (by simp)) (by simp)

/-- A failed transaction, whatever the end of the `eeprom_do` does. -/
theorem Inv.retry (h : Inv r mem s) {again : Pc} {done : State → State}
    (h_again : again = .write → s.tmp = r.data) (h_ok : again ≠ .returned I2cError.ok.code)
    (h_done : Inv r mem { s with retries := 0 } → Inv r mem (done { s with retries := 0 })) :
    Inv r mem (s.retry again done) := by
  unfold State.retry
  split_ifs
  · exact h_done { h with }
  · exact { h with readBack := fun h_pc => absurd h_pc h_ok, write := h_again }

/-- A transaction that sends the page changes no other page. -/
theorem Inv.transmit (h : Inv r mem s) (hpc : s.pc = .write) (cells : ℕ → UInt8) :
    Inv r mem (s.sends cells) := by
  have h_tmp := h.write hpc
  refine { h with sent := ?_, frame := ?_ }
  · intro t ht
    rcases List.mem_append.mp ht with ht | ht
    · exact h.sent t ht
    · rw [List.mem_singleton.mp ht, h_tmp]
  · intro x hx
    show (if x / pageSize = page (s.tmp.headD 0) then cells x else s.mem x) = mem x
    rw [h_tmp]
    exact (if_neg hx).trans (h.frame x hx)

/-- Bytes read into `tmp`. -/
theorem Inv.receive (h : Inv r mem s) (hpc : s.pc = .readData) {bytes : List UInt8}
    (h_len : bytes.length ≤ pageSize) :
    Inv r mem (s.reads bytes) := by
  refine { h with length_tmp := ?_, ninth := ?_, write := fun h_pc => ?_ }
  · show (bytes ++ s.tmp.drop bytes.length).length = _
    rw [List.length_append, List.length_drop, h.length_tmp]
    omega
  · show (bytes ++ s.tmp.drop bytes.length).drop pageSize = _
    rw [List.drop_append, List.drop_eq_nil_of_le h_len, List.nil_append, List.drop_drop,
      Nat.add_sub_of_le h_len, h.ninth]
  · exact absurd (hpc.symm.trans h_pc) (by simp)

/-- **One step.** -/
theorem Inv.step (h : Inv r mem s) (hG : Harmless r s a) (hn : s.next r a = some s') :
    Inv r mem s' := by
  cases step_of_next hn with
  | tick => exact { h with }
  | late => exact h.goto _ (fun h_pc => absurd h_pc (by simp)) (by simp [I2cError.code])
  | ask =>
    exact { h with
      readBack := fun h_pc => absurd h_pc (by simp), write := fun h_pc => absurd h_pc (by simp) }
  | pageAgain hpc => exact h.transmit hpc _
  | pageFailed hpc =>
    exact (h.transmit hpc _).retry (fun _ => h.write hpc) (by simp) fun h_done => h_done.written _
  | page hpc => exact (h.transmit hpc _).written _
  | addrAgain => exact h
  | addrFailed _ h_fail =>
    have h_ne {P : Prop} (h_ok : i2cTransact _ = I2cError.ok.code) : P :=
      absurd (i2cTransact_eq_ok.mp h_ok) h_fail
    refine h.retry (fun h_pc => absurd h_pc (by simp)) (by simp) fun h_done => ?_
    exact h_done.readDone _ h_ne h_ne
  | addr => exact h.goto _ (fun h_pc => absurd h_pc (by simp)) (by simp)
  | dataFailed hpc h_len h_fail =>
    have h_ne {P : Prop} (h_ok : i2cTransact _ = I2cError.ok.code) : P :=
      absurd (i2cTransact_eq_ok.mp h_ok) h_fail
    refine (h.receive hpc h_len).retry (fun h_pc => absurd h_pc (by simp)) (by simp) ?_
    exact fun h_done => h_done.readDone _ h_ne h_ne
  | @data bytes hpc h_len =>
    have h_read := h.receive hpc h_len.le
    have h_take : (bytes ++ s.tmp.drop bytes.length).take pageSize = bytes := by
      rw [← h_len, List.take_left]
    have h_back : Inv r mem { s.reads bytes with readBack := bytes } :=
      { h_read with readBack := fun h_pc => absurd (hpc.symm.trans h_pc) (by simp) }
    refine h_back.readDone _ (fun _ => h_take) fun _ h_differs h_left => ?_
    -- the address and seven bytes in front of the byte that is left
    have h_bytes : bytes = r.data.take pageSize :=
      hG rfl (fun h_eq => h_differs (h_take.trans h_eq)) h_left
    show bytes ++ s.tmp.drop bytes.length = r.data
    rw [h_len, h.ninth]
    nth_rewrite 1 [h_bytes]
    exact List.take_append_drop _ _

end Step

/-! ### Runs -/

section Run

variable {r : Request} {tick : ℕ} {mem : ℕ → UInt8} {s s' : State}

theorem inv_start (r : Request) (tick : ℕ) (mem : ℕ → UInt8) : Inv r mem (start r tick mem) :=
  { sent := fun _ ht => absurd ht List.not_mem_nil
    frame := fun _ _ => rfl
    readBack := fun h_pc => absurd h_pc (by simp [start])
    length_tmp := length_data r
    ninth := rfl
    write := fun _ => rfl }

/-- **What `eeprom_write_page` sends.** In every run, whatever the bus and the EEPROM do, in
which the bytes read back before a further attempt are harmless, every data transaction is
the address followed by the page, no other page changes, and success means that the page was
read back. -/
theorem eeprom_write_page_sends (h : (machine r tick mem).Reach (Harmless r) s) :
    Intact r mem s :=
  (h.invariant (I := Inv r mem) (inv_start r tick mem) fun _ _ _ hI hG hn => hI.step hG hn).toIntact

theorem State.readDone_resends {status : ℤ} (h_ok : status = I2cError.ok.code)
    (h_differs : s.tmp.take pageSize ≠ r.buf) (h_left : s.i ≠ 1) :
    s.readDone r status = { s with i := s.i - 1, retries := 5, pc := .write } := by
  rw [readDone, if_pos h_ok, if_neg h_differs, if_neg h_left]

/-- The condition is needed: after other bytes the next transaction is not the page. -/
theorem resend_wrong {bytes : List UInt8}
    (hn : s.next r (.receive .ok bytes) = some s') (h_differs : bytes ≠ r.buf)
    (h_left : s.i ≠ 1) (h_wrong : bytes ≠ r.data.take pageSize) :
    s'.pc = .write ∧ s'.tmp ≠ r.data := by
  cases step_of_next hn with
  | dataFailed _ _ h_fail => exact absurd rfl h_fail
  | data _ h_len =>
    have h_take : (bytes ++ s.tmp.drop bytes.length).take pageSize = bytes := by
      rw [← h_len, List.take_left]
    have h_ne : (bytes ++ s.tmp.drop bytes.length).take pageSize ≠ r.buf := by rwa [h_take]
    have h_done := State.readDone_resends (s := { s.reads bytes with readBack := bytes })
      (i2cTransact_eq_ok.mpr rfl) h_ne h_left
    rw [h_done]
    refine ⟨rfl, fun h_eq => h_wrong ?_⟩
    rw [← h_take]
    exact congrArg (List.take pageSize) h_eq

end Run

/-! ### A cell that does not keep its value -/

/-- The second page of the EEPROM. -/
def secondPage : Request := ⟨8, [1, 2, 3, 4, 5, 6, 7, 8], rfl⟩

/-- An attempt in which every byte is acknowledged and `bytes` are read back. -/
def attempt (bytes : List UInt8) : List Action :=
  [.transmit .ok fun _ => 0, .poll, .transmit .ok fun _ => 0, .receive .ok bytes]

theorem eeprom_write_page_resends :
    ¬ ∀ s, (machine secondPage 0 fun _ => 0).Reach (fun _ _ => True) s →
      Intact secondPage (fun _ => 0) s := by
  intro h
  -- the first cell reads back as 16
  have h_exec : ((machine secondPage 0 fun _ => 0).exec (fun _ _ => True)
      (start secondPage 0 fun _ => 0)
      (attempt [16, 2, 3, 4, 5, 6, 7, 8] ++ [Action.transmit .ok fun _ => 0])).map State.sent =
        some [secondPage.data, [16, 2, 3, 4, 5, 6, 7, 8, 8]] := by
    decide
  obtain ⟨s, h_exec, h_sent⟩ := Option.map_eq_some_iff.mp h_exec
  have h_all := (h s (Machine.reach_of_exec _ _ h_exec)).sent
  rw [h_sent] at h_all
  exact absurd (h_all [16, 2, 3, 4, 5, 6, 7, 8, 8] (by simp)) (by decide)

/-- The address and the first seven bytes of the page are read back at first, and the page at the
second attempt. -/
theorem eeprom_write_page_sends_twice :
    ∃ s, s.pc = .returned I2cError.ok.code ∧ s.sent = [secondPage.data, secondPage.data] ∧
      Intact secondPage (fun _ => 0) s := by
  have h_exec : ((machine secondPage 0 fun _ => 0).exec (Harmless secondPage)
      (start secondPage 0 fun _ => 0)
      (attempt [8, 1, 2, 3, 4, 5, 6, 7] ++ attempt secondPage.buf)).map
        (fun s => (s.pc, s.sent)) =
        some (.returned I2cError.ok.code, [secondPage.data, secondPage.data]) := by
    decide
  obtain ⟨s, h_exec, h_end⟩ := Option.map_eq_some_iff.mp h_exec
  obtain ⟨h_pc, h_sent⟩ := Prod.mk.inj h_end
  exact ⟨s, h_pc, h_sent, eeprom_write_page_sends (Machine.reach_of_exec _ _ h_exec)⟩

end Eeprom

end Laureline
