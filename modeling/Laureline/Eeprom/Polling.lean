import Laureline.Eeprom.WritePage

/-!
# Waiting for the EEPROM

While it writes a page, the EEPROM does not acknowledge its address. `eeprom_write_page` should
go on asking until a deadline, and `eeprom_do` should repeat a transaction that lost the
arbitration without counting it. Both look at codes that the interrupt handlers have stored in
an unsigned byte, so none of the codes is ever equal to the one it is compared with.

* `i2cTransact_eq_code` — which codes arrive as they were recorded;
* `Polling.step` — the attempts on an EEPROM that is busy;
* `eeprom_polling_iff` — how often it may be asked while it is busy.
-/

namespace Laureline

namespace Eeprom

/-! ### The codes -/

/-- `I2C_SR1_BERR`. -/
def i2cSr1Berr : BitVec 16 := 0x0100

/-- `I2C_SR1_ARLO`. -/
def i2cSr1Arlo : BitVec 16 := 0x0200

/-- `I2C_SR1_AF`. -/
def i2cSr1Af : BitVec 16 := 0x0400

/-- `I2C_SR1_OVR`. -/
def i2cSr1Ovr : BitVec 16 := 0x0800

/-- What `handle_i2c_error` records for the flags. -/
def handleI2cError (sr1 : BitVec 16) : Option I2cError :=
  if sr1 &&& i2cSr1Ovr ≠ 0 then some .fault
  else if sr1 &&& i2cSr1Arlo ≠ 0 then some .again
  else if sr1 &&& (i2cSr1Af ||| i2cSr1Berr) ≠ 0 then
    if sr1 &&& i2cSr1Af ≠ 0 then some .nack else some .fault
  else none

/-- Only success arrives as it was recorded. -/
theorem i2cTransact_eq_code {e : I2cError} : i2cTransact e = e.code ↔ e = .ok := by
  cases e <;> decide

theorem handleI2cError_ne_ok {sr1 : BitVec 16} {e : I2cError} (h : handleI2cError sr1 = some e) :
    e ≠ .ok := by
  unfold handleI2cError at h
  split_ifs at h <;> obtain rfl := Option.some.inj h <;> exact I2cError.noConfusion

/-- No code is one that the thread compares with, success apart. -/
theorem i2cTransact_ne (e e' : I2cError) (h : e' ≠ .ok) : i2cTransact e ≠ e'.code := by
  cases e <;> cases e' <;> first | exact absurd rfl h | decide

/-! ### An EEPROM that is busy for a while -/

/-- It takes the page, refuses its address for less than the deadline, and then reads back the
page. -/
def BusyThenGood (r : Request) (s : State) : Action → Prop
  | .tick | .poll => True
  | .transmit e _ => e = .ok ∨ e = .nack ∧ s.pc = .readAddr ∧ u32 (s.tick - s.start) < deadline
  | .receive e bytes => e = .ok ∧ bytes = r.buf

/-- The deadline has not passed when the tick count is looked at. -/
def OnTime (s : State) : Action → Prop
  | .poll => u32 (s.tick - s.start) ≤ deadline
  | _ => True

instance (r : Request) (s : State) : ∀ a, Decidable (BusyThenGood r s a)
  | .tick | .poll => isTrue trivial
  | .transmit _ _ => inferInstanceAs (Decidable (_ ∨ _))
  | .receive _ _ => inferInstanceAs (Decidable (_ ∧ _))

instance (s : State) : ∀ a, Decidable (OnTime s a)
  | .poll => inferInstanceAs (Decidable (_ ≤ _))
  | .tick | .transmit _ _ | .receive _ _ => isTrue trivial

/-- The address is refused. -/
def isNack : Action → Bool
  | .transmit .nack _ => true
  | _ => false

/-- A step of the thread. -/
def isStep : Action → Bool
  | .tick => false
  | _ => true

/-- A transaction loses the arbitration. -/
def LosesArbitration : Action → Prop
  | .transmit e _ => e = .again
  | .receive e _ => e = .again
  | _ => False

/-- Where the thread is after its steps, of which `nacks` were refused. -/
def Polling (nacks steps : ℕ) (s : State) : Prop :=
  match s.pc with
  | .write => nacks = 0 ∧ steps = 0
  | .poll => nacks = 0 ∧ steps = 1
  | .readAddr => nacks + s.retries = 5 ∧ 0 < s.retries ∧ steps = nacks + 2
  | .readData => nacks ≤ 4 ∧ steps = nacks + 3
  | .returned status => steps ≤ 8 ∧ nacks ≤ 5 ∧
      (status = I2cError.ok.code ↔ nacks ≤ 4 ∧ status ≠ I2cError.timeout.code)

section Step

variable {r : Request} {tick : ℕ} {mem : ℕ → UInt8} {s s' : State} {a : Action}
  {nacks steps : ℕ}

/-- A refused attempt uses up one of the five, and the last one ends the call. -/
theorem Polling.refused (h : Polling nacks steps s) (h_pc : s.pc = .readAddr) :
    Polling (nacks + 1) (steps + 1)
      (s.retry .readAddr (·.readDone r (i2cTransact .nack))) := by
  simp only [Polling, h_pc] at h
  obtain ⟨h_five, h_pos, h_steps⟩ := h
  unfold State.retry
  split_ifs with h_last
  · have h_ok : ¬ i2cTransact .nack = I2cError.ok.code := by decide
    have h_nack : i2cTransact .nack ≠ I2cError.nack.code := by decide
    simp only [State.readDone, if_neg h_ok, if_pos h_nack]
    refine ⟨by omega, by omega, iff_of_false h_ok fun h => ?_⟩
    omega
  · simp only [Polling]
    omega

/-- **One step.** -/
theorem Polling.step (h : Polling nacks steps s) (hG : BusyThenGood r s a)
    (hn : s.next r a = some s') :
    Polling (nacks + (isNack a).toNat) (steps + (isStep a).toNat) s' := by
  have h_zero : i2cTransact .ok = I2cError.ok.code := rfl
  cases step_of_next hn with
  | tick => exact h
  | late hpc =>
    simp only [Polling, hpc] at h
    obtain ⟨rfl, rfl⟩ := h
    exact ⟨by decide, by decide, by decide⟩
  | ask hpc =>
    simp only [Polling, hpc] at h
    obtain ⟨rfl, rfl⟩ := h
    exact ⟨rfl, Nat.succ_pos 4, rfl⟩
  | pageAgain _ h_again => exact absurd h_again (i2cTransact_ne _ _ I2cError.noConfusion)
  | pageFailed hpc h_fail =>
    -- the EEPROM is busy only after the write
    obtain ⟨-, h_read, -⟩ := hG.resolve_left h_fail
    exact absurd (hpc.symm.trans h_read) (by simp)
  | page hpc =>
    simp only [Polling, hpc] at h
    obtain ⟨rfl, rfl⟩ := h
    simp only [State.written, h_zero, ne_eq, not_true_eq_false, if_false]
    exact ⟨rfl, rfl⟩
  | addrAgain _ h_again => exact absurd h_again (i2cTransact_ne _ _ I2cError.noConfusion)
  | addrFailed hpc h_fail =>
    -- the code 252 is neither EERR_AGAIN nor success
    obtain ⟨rfl, -, -⟩ := hG.resolve_left h_fail
    exact h.refused hpc
  | addr hpc =>
    simp only [Polling, hpc] at h
    exact ⟨(by omega : nacks ≤ 4), (by omega : steps + 1 = nacks + 3)⟩
  | dataFailed _ _ h_fail => exact absurd hG.1 h_fail
  | @data bytes hpc =>
    obtain ⟨-, rfl⟩ := hG
    simp only [Polling, hpc] at h
    -- what is read back is what was written
    have h_take : (r.buf ++ s.tmp.drop r.buf.length).take pageSize = r.buf := by
      rw [← r.length_buf, List.take_left]
    simp only [State.readDone, State.reads, h_zero, h_take, if_true]
    exact ⟨(by omega : steps + 1 ≤ 8), (by omega : nacks ≤ 5),
      iff_of_true rfl ⟨h.1, by decide⟩⟩

theorem State.written_ne_timeout (s : State) (e : I2cError) :
    (s.written (i2cTransact e)).pc ≠ .returned I2cError.timeout.code := by
  unfold State.written
  split_ifs
  · exact fun h => i2cTransact_ne e .timeout I2cError.noConfusion (Pc.returned.inj h)
  · exact Pc.noConfusion

theorem State.readDone_ne_timeout (s : State) (r : Request) (e : I2cError) :
    (s.readDone r (i2cTransact e)).pc ≠ .returned I2cError.timeout.code := by
  unfold State.readDone
  split_ifs
  · exact fun h => absurd (Pc.returned.inj h) (by decide)
  · exact fun h => absurd (Pc.returned.inj h) (by decide)
  · exact Pc.noConfusion
  · exact fun h => i2cTransact_ne e .timeout I2cError.noConfusion (Pc.returned.inj h)
  · exact Pc.noConfusion

theorem State.retry_pc {again pc : Pc} {done : State → State} (h_again : again ≠ pc)
    (h_done : ∀ s, (done s).pc ≠ pc) : (s.retry again done).pc ≠ pc := by
  unfold State.retry
  split_ifs
  · exact h_done _
  · exact h_again

/-- Only a look at the tick count that is late ends the call with a timeout. -/
theorem OnTime.step (h : s.pc ≠ .returned I2cError.timeout.code) (h_time : OnTime s a)
    (hn : s.next r a = some s') : s'.pc ≠ .returned I2cError.timeout.code := by
  cases step_of_next hn with
  | tick => exact h
  | late _ h_late => exact absurd h_late (Nat.not_lt.mpr h_time)
  | ask | addr => exact Pc.noConfusion
  | pageAgain | addrAgain => exact h
  | pageFailed => exact State.retry_pc Pc.noConfusion fun s => s.written_ne_timeout _
  | page => exact State.written_ne_timeout _ .ok
  | addrFailed | dataFailed =>
    exact State.retry_pc Pc.noConfusion fun s => s.readDone_ne_timeout r _
  | data => exact State.readDone_ne_timeout _ r .ok

/-- The EEPROM and the deadline do not keep the thread waiting. -/
theorem BusyThenGood.progress (h : ∀ status, s.pc ≠ .returned status) :
    ∃ a s', isStep a = true ∧ BusyThenGood r s a ∧ s.next r a = some s' := by
  cases h_pc : s.pc with
  | write =>
    exact ⟨.transmit .ok s.mem, _, rfl, Or.inl rfl, by simp only [State.next, h_pc]; rfl⟩
  | poll =>
    by_cases h_late : u32 (s.tick - s.start) > deadline
    · exact ⟨.poll, _, rfl, trivial, by simp only [State.next, h_pc]; exact if_pos h_late⟩
    · exact ⟨.poll, _, rfl, trivial, by simp only [State.next, h_pc]; exact if_neg h_late⟩
  | readAddr =>
    exact ⟨.transmit .ok s.mem, _, rfl, Or.inl rfl, by simp only [State.next, h_pc]; rfl⟩
  | readData =>
    exact ⟨.receive .ok r.buf, _, rfl, ⟨rfl, rfl⟩, by
      simp only [State.next, h_pc]; rw [if_neg (by simp [r.length_buf])]; rfl⟩
  | returned status => exact absurd h_pc (h status)

theorem State.retry_retries (h_pos : 0 < s.retries) {again : Pc} {done : State → State}
    (h_done : (done { s with retries := 0 }).retries = 0) :
    (s.retry again done).retries + 1 = s.retries := by
  unfold State.retry
  split_ifs with h_last
  · rw [h_done, h_last]
  · exact Nat.sub_add_cancel h_pos

/-- A transaction belongs to an `eeprom_do`. -/
theorem LosesArbitration.pc (h : LosesArbitration a) (hn : s.next r a = some s') :
    s.pc = .write ∨ s.pc = .readAddr ∨ s.pc = .readData := by
  cases step_of_next hn with
  | tick | late | ask => exact absurd h id
  | pageAgain hpc | pageFailed hpc | page hpc => exact Or.inl hpc
  | addrAgain hpc | addrFailed hpc | addr hpc => exact Or.inr (Or.inl hpc)
  | dataFailed hpc | data hpc => exact Or.inr (Or.inr hpc)

/-- A transaction that loses the arbitration uses up a retry. -/
theorem LosesArbitration.retries (h : LosesArbitration a) (h_pos : 0 < s.retries)
    (hn : s.next r a = some s') : s'.retries + 1 = s.retries := by
  have h_ok : i2cTransact .again ≠ I2cError.ok.code := by decide
  have h_nack : i2cTransact .again ≠ I2cError.nack.code := by decide
  cases step_of_next hn with
  | tick | late | ask => exact absurd h id
  | pageAgain _ h_again | addrAgain _ h_again =>
    -- the branch for EERR_AGAIN is not taken
    exact absurd h_again (i2cTransact_ne _ _ I2cError.noConfusion)
  | @pageFailed e cells =>
    obtain rfl : e = .again := h
    exact State.retry_retries (s := s.sends cells) h_pos (by simp only [State.written, if_pos h_ok])
  | @addrFailed e =>
    obtain rfl : e = .again := h
    exact State.retry_retries h_pos (by simp only [State.readDone, if_neg h_ok, if_pos h_nack])
  | @dataFailed e bytes =>
    obtain rfl : e = .again := h
    exact State.retry_retries (s := s.reads bytes) h_pos
      (by simp only [State.readDone, if_neg h_ok, if_pos h_nack])
  | page | addr | data => exact absurd h I2cError.noConfusion

end Step

/-! ### Runs -/

section Run

variable {r : Request} {tick : ℕ} {mem : ℕ → UInt8} {s s' : State} {a : Action}
  {acts : List Action}

theorem polling_run (h : (machine r tick mem).Path (BusyThenGood r) (start r tick mem) acts s) :
    Polling (acts.countP isNack) (acts.countP isStep) s := by
  refine h.history (I := fun acts s => Polling (acts.countP isNack) (acts.countP isStep) s)
    (fun bs s a s' hI hG hn => ?_) ⟨rfl, rfl⟩
  have h_next := hI.step hG hn
  cases a with
  | tick | poll | receive _ _ => simpa [isNack, isStep] using h_next
  | transmit e _ => cases e <;> simpa [isNack, isStep] using h_next

/-- A run in which no look at the tick count was late, unless it ended the call. -/
theorem onTime_run (h : (machine r tick mem).Path (BusyThenGood r) (start r tick mem) acts s)
    (h_pc : s.pc ≠ .returned I2cError.timeout.code) :
    (machine r tick mem).Path OnTime (start r tick mem) acts s := by
  refine (h.history (I := fun acts s => (machine r tick mem).Path OnTime (start r tick mem) acts s ∨
    s.pc = .returned I2cError.timeout.code) (fun bs s a s' hI hG hn => ?_)
    (Or.inl (.nil _))).resolve_right h_pc
  rcases hI with h_path | h_end
  · by_cases h_time : OnTime s a
    · exact Or.inl (h_path.append (.cons h_time hn (.nil s')))
    · cases a with
      | poll =>
        change s.next r .poll = some s' at hn
        cases h_pc : s.pc <;> simp only [State.next, h_pc, reduceCtorEq] at hn
        rw [if_pos (Nat.lt_of_not_le h_time)] at hn
        obtain rfl := Option.some.inj hn
        exact Or.inr rfl
      | tick | transmit _ _ | receive _ _ => exact absurd trivial h_time
  · -- after the call only time passes
    cases a with
    | tick =>
      obtain rfl := Option.some.inj hn
      exact Or.inr h_end
    | poll | transmit _ _ | receive _ _ =>
      simp only [machine, State.next, h_end, reduceCtorEq] at hn

/-- Inside an `eeprom_do` there is a retry left. -/
def Counting (s : State) : Prop :=
  s.pc = .write ∨ s.pc = .readAddr ∨ s.pc = .readData → 0 < s.retries

theorem Counting.of_pos (h : 0 < s.retries) : Counting s := fun _ => h

theorem Counting.written (s : State) (status : ℤ) : Counting (s.written status) := by
  unfold State.written
  split_ifs <;> simp [Counting]

theorem Counting.readDone (s : State) (r : Request) (status : ℤ) :
    Counting (s.readDone r status) := by
  unfold State.readDone
  split_ifs <;> simp [Counting]

theorem Counting.retry (h : 0 < s.retries) (again : Pc) {done : State → State}
    (h_done : ∀ s, Counting (done s)) : Counting (s.retry again done) := by
  unfold State.retry
  split_ifs with h_last
  · exact h_done _
  · exact .of_pos (show 0 < s.retries - 1 by omega)

/-- **One step.** -/
theorem Counting.step (h : Counting s) (hn : s.next r a = some s') : Counting s' := by
  cases step_of_next hn with
  | tick => exact h
  | late => exact fun h => by simp at h
  -- a new `eeprom_do`, with five retries
  | ask => exact .of_pos (Nat.succ_pos 4)
  | pageAgain hpc => exact .of_pos (h (Or.inl hpc))
  | @pageFailed e cells hpc =>
    have h_pos : 0 < (s.sends cells).retries := h (Or.inl hpc)
    exact .retry h_pos _ fun s => .written s _
  | page => exact .written _ _
  | addrAgain => exact h
  | addrFailed hpc => exact .retry (h (Or.inr (Or.inl hpc))) _ fun s => .readDone s r _
  | addr hpc => exact .of_pos (h (Or.inr (Or.inl hpc)))
  | @dataFailed e bytes hpc =>
    have h_pos : 0 < (s.reads bytes).retries := h (Or.inr (Or.inr hpc))
    exact .retry h_pos _ fun s => .readDone s r _
  | data => exact .readDone _ r _

/-- **A busy EEPROM.** The page is written just if the EEPROM is asked at most four times while
it is busy, and the deadline has not passed when the tick count is looked at. In every such run
the call ends. Every arbitration that is lost is counted, and success is the only code that
arrives as it was recorded. -/
theorem eeprom_polling_iff (r : Request) (tick : ℕ) (mem : ℕ → UInt8) :
    (∀ acts s, (machine r tick mem).Path (BusyThenGood r) (start r tick mem) acts s →
      (∀ status, s.pc = .returned status →
        (status = I2cError.ok.code ↔ acts.countP isNack ≤ 4 ∧
          (machine r tick mem).Path OnTime (start r tick mem) acts s)) ∧
      acts.countP isStep ≤ 8 ∧
      ((∀ status, s.pc ≠ .returned status) →
        ∃ a s', isStep a = true ∧ BusyThenGood r s a ∧ s.next r a = some s')) ∧
    (∀ s a s', (machine r tick mem).Reach (fun _ _ => True) s → LosesArbitration a →
      s.next r a = some s' → s'.retries + 1 = s.retries) ∧
    ∀ sr1 e, handleI2cError sr1 = some e → i2cTransact e ≠ e.code := by
  refine ⟨fun acts s h => ⟨fun status h_pc => ?_, ?_, BusyThenGood.progress⟩,
    fun s a s' h h_lost hn => ?_, fun sr1 e h => ?_⟩
  · have h_polling := polling_run h
    simp only [Polling, h_pc] at h_polling
    rw [h_polling.2.2]
    refine and_congr_right fun _ => ⟨fun h_ne => ?_, fun h_time => ?_⟩
    · exact onTime_run h fun h_end => h_ne (Pc.returned.inj (h_pc.symm.trans h_end))
    · -- no step of the run ended the call with a timeout
      have h_ne := h_time.invariant (I := fun s => s.pc ≠ .returned I2cError.timeout.code)
        (fun _ _ _ hI hG hn => hG.step hI hn) Pc.noConfusion
      exact fun h_status => h_ne (by rw [h_pc, h_status])
  · have h_polling := polling_run h
    unfold Polling at h_polling
    split at h_polling <;> omega
  · have h_counting := h.invariant (I := Counting) (.of_pos (Nat.succ_pos 4))
      fun _ _ _ hI _ hn => hI.step hn
    exact h_lost.retries (h_counting (h_lost.pc hn)) hn
  · exact fun h_eq => handleI2cError_ne_ok h (i2cTransact_eq_code.mp h_eq)

end Run

/-- The page is taken, and the address refused so many times. -/
def refusals (n : ℕ) : List Action :=
  [.transmit .ok fun _ => 0, .poll] ++ List.replicate n (.transmit .nack fun _ => 0)

/-- An EEPROM that is asked four times while it is busy. -/
theorem eeprom_polling_four :
    ∃ s status, (machine secondPage 0 fun _ => 0).Reach (BusyThenGood secondPage) s ∧
      s.pc = .returned status ∧ status = I2cError.ok.code := by
  have h_exec : ((machine secondPage 0 fun _ => 0).exec
      (fun s a => BusyThenGood secondPage s a ∧ OnTime s a) (start secondPage 0 fun _ => 0)
      (refusals 4 ++ [.transmit .ok fun _ => 0, .receive .ok secondPage.buf])).map State.pc =
        some (.returned 0) := by
    decide
  obtain ⟨s, h_exec, h_pc⟩ := Option.map_eq_some_iff.mp h_exec
  have h_path := Machine.path_of_exec _ _ h_exec
  have h_busy := h_path.mono fun _ _ hG => hG.1
  have h_status := ((eeprom_polling_iff secondPage 0 fun _ => 0).1 _ s h_busy).1 0 h_pc
  exact ⟨s, 0, h_busy.reach .init, h_pc,
    h_status.mpr ⟨by decide, h_path.mono fun _ _ hG => hG.2⟩⟩

/-- An EEPROM that is asked five times while it is busy, and a write that loses the
arbitration. -/
theorem eeprom_polling_five :
    (¬ ∀ s, (machine secondPage 0 fun _ => 0).Reach (BusyThenGood secondPage) s →
      ∀ status, s.pc = .returned status → status = I2cError.ok.code) ∧
    ∃ s', (start secondPage 0 fun _ => 0).next secondPage (.transmit .again fun _ => 0) = some s' ∧
      s'.retries = 4 := by
  refine ⟨fun h => ?_, _, rfl, rfl⟩
  have h_exec : ((machine secondPage 0 fun _ => 0).exec (BusyThenGood secondPage)
      (start secondPage 0 fun _ => 0) (refusals 5)).map State.pc = some (.returned 252) := by
    decide
  obtain ⟨s, h_exec, h_pc⟩ := Option.map_eq_some_iff.mp h_exec
  exact absurd (h s (Machine.reach_of_exec _ _ h_exec) 252 h_pc) (by decide)

end Eeprom

end Laureline
