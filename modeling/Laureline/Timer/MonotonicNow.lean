import Laureline.Timer.Rollover

/-!
# What `monotonic_now` returns

`monotonic_now` reads the counter, the epoch and the counter again with
interrupts masked, and takes a second reading below the first as the sign of a
rollover. The sign is missed when the rollover came before the first read: the
update flag is then pending, the epoch is one period short, and both reads see
the new period.

* `NowAt` is what holds at each point of the loop. Its core is `Sampled`: the
  update flag at the second read is the flag at the first read, or the rollover
  between the two.
* `NowCall.Sampled.quiet_iff` characterises one returned call: it is exact if and only if
  no update event was pending at the first `CNT` read of the pass that returned
  and less than one period went by until the second (`NowCall.Quiet`).
* `monotonicNow_exact` is the statement over every run, with the order of the
  returned values and the end of the loop; `monotonicNow_goes_back` is a run in
  which two successive calls return decreasing values.
-/

namespace Laureline
namespace Tim3

/-! ### The promises of the timer -/

/-- `CNT` advances between the two reads of a pass. -/
def CntAdvances (s : State) : Action → Prop
  | .cpu => match s.pc with
    | .nowCnt2 _ _ => s.hist.aFirst < s.regs.ticks
    | _ => True
  | _ => True

/-- The timer as `monotonic_now` may assume it. -/
def TimerOk (s : State) (a : Action) : Prop := OneRollover s a ∧ CntAdvances s a

instance (s : State) : (a : Action) → Decidable (OneRollover s a)
  | .advance _ => inferInstanceAs (Decidable (_ ≤ _))
  | .edge | .irq | .disable | .enable | .callNow | .cpu | .getCapture | .sleepUntil _
  | .semTake => isTrue trivial

instance (s : State) : (a : Action) → Decidable (CntAdvances s a)
  | .cpu => match h : s.pc with
    | .nowCnt2 _ _ => decidable_of_iff (s.hist.aFirst < s.regs.ticks) (by simp [CntAdvances, h])
    | .thread | .isr _ | .nowCnt1 | .nowEpoch _ | .nowTest _ _ _ | .nowHandler _ =>
      isTrue (by simp [CntAdvances, h])
  | .advance _ | .edge | .irq | .disable | .enable | .callNow | .getCapture | .sleepUntil _
  | .semTake => isTrue trivial

instance (s : State) (a : Action) : Decidable (TimerOk s a) :=
  inferInstanceAs (Decidable (_ ∧ _))

/-! ### One returned call -/

/-- No update event was pending at the first `CNT` read of the pass that
returned, and less than one period went by until the second. -/
def NowCall.Quiet (c : NowCall) : Prop :=
  c.pendFirst = false ∧ c.aSecond - c.aFirst < monoPeriod

instance (c : NowCall) : Decidable c.Quiet := inferInstanceAs (Decidable (_ ∧ _))

/-- The update flag at the second `CNT` read: it was set at the first, or the
counter rolled over in between. -/
def NowCall.pendSecond (c : NowCall) : Bool :=
  c.pendFirst || decide (c.aFirst / monoPeriod < c.aSecond / monoPeriod)

/-- What a returned call knows: the counter read larger the second time, and the
value is short by one period if the update flag was set. -/
structure NowCall.Sampled (c : NowCall) : Prop where
  less : c.aFirst % monoPeriod < c.aSecond % monoPeriod
  value_lt : c.value < 2 ^ 64
  value : c.value + c.pendSecond.toNat * monoPeriod ≡ monoPeriod + c.aSecond [MOD 2 ^ 64]
  one : c.aSecond / monoPeriod ≤ c.aFirst / monoPeriod + 1

/-- The update flag is clear at the second read exactly on a quiet pass: with a
rollover in between, less than a period later the counter reads lower. -/
theorem NowCall.Sampled.pendSecond_iff {c : NowCall} (h : c.Sampled) :
    c.pendSecond = false ↔ c.Quiet := by
  have h_less := h.less
  have h_one := h.one
  unfold pendSecond Quiet
  rw [Bool.or_eq_false_iff, decide_eq_false_iff_not]
  refine and_congr_right fun _ => ?_
  unfold monoPeriod at *
  omega

/-- **One call.** The value is exact if and only if the pass was quiet. -/
theorem NowCall.Sampled.quiet_iff {c : NowCall} (h : c.Sampled) :
    c.value = (monoPeriod + c.aSecond) % 2 ^ 64 ↔ c.Quiet := by
  rw [← h.pendSecond_iff]
  have h_value := h.value
  constructor
  · intro h_eq
    by_contra h_pend
    rw [Bool.not_eq_false] at h_pend
    rw [h_pend, Bool.toNat_true, Nat.one_mul] at h_value
    -- the value is exact and short by a period at once
    have h_mod : c.value ≡ monoPeriod + c.aSecond [MOD 2 ^ 64] := by
      rw [h_eq]; exact Nat.mod_modEq _ _
    have h_zero : monoPeriod ≡ 0 [MOD 2 ^ 64] :=
      Nat.ModEq.add_left_cancel' c.value (h_value.trans h_mod.symm)
    exact absurd h_zero (by decide)
  · -- nothing is owed, and the congruence is an equation below 2 ^ 64
    intro h_clear
    rw [h_clear, Bool.toNat_false, Nat.zero_mul, Nat.add_zero] at h_value
    rw [← Nat.mod_eq_of_lt h.value_lt]
    exact h_value

/-! ### The invariant of the loop -/

/-- Between the first `CNT` read of a pass and its second. -/
structure FirstRead (r : Regs) (h : Hist) (tmr1 : ℕ) : Prop where
  tmr1_eq : tmr1 = h.aFirst % monoPeriod
  le : h.aFirst ≤ r.ticks
  uif : r.sr.uif = (h.pendFirst || decide (h.aFirst / monoPeriod < r.ticks / monoPeriod))
  one : r.ticks / monoPeriod ≤ h.aFirst / monoPeriod + 1

/-- The call that the current pass returns if the second reading is larger. -/
def Hist.candidate (h : Hist) (ret tmr2 : ℕ) : NowCall :=
  ⟨(ret + tmr2) % 2 ^ 64, h.aFirst, h.pendFirst, h.aSecond⟩

/-- After the second `CNT` read of a pass. -/
structure PassDone (s : State) (tmr1 ret tmr2 : ℕ) : Prop where
  sampled : tmr1 < tmr2 → (s.hist.candidate ret tmr2).Sampled
  /-- A pass is repeated only if the counter rolled over between its reads. -/
  rolled : tmr2 ≤ tmr1 → s.hist.aFirst / monoPeriod < s.hist.aSecond / monoPeriod
  le : s.hist.aSecond ≤ s.regs.ticks
  past : ∀ c ∈ s.hist.calls, c.aSecond ≤ s.hist.aSecond

/-- What holds at each point of `monotonic_now`. -/
def NowAt (s : State) : Prop :=
  match s.pc with
  | .nowEpoch tmr1 => FirstRead s.regs s.hist tmr1
  | .nowCnt2 tmr1 ret => FirstRead s.regs s.hist tmr1 ∧ ret = s.vars.monoEpoch
  | .nowTest tmr1 ret tmr2 => PassDone s tmr1 ret tmr2
  | _ => True

/-- The invariant: the epoch, the point of the loop, and the calls returned so
far, which lie in the past and in order. -/
structure NowInv (s : State) : Prop where
  epoch : EpochInv s
  at_pc : NowAt s
  sampled : ∀ c ∈ s.hist.calls, c.Sampled
  past : ∀ c ∈ s.hist.calls, c.aSecond ≤ s.regs.ticks
  sorted : s.hist.calls.Pairwise fun later earlier => earlier.aSecond ≤ later.aSecond

theorem NowInv.initial : NowInv State.initial where
  epoch := EpochInv.initial
  at_pc := trivial
  sampled := by simp [State.initial]
  past := by simp [State.initial]
  sorted := List.Pairwise.nil

/-- Nothing is known of the loop while the handler runs. -/
theorem NowAt.of_handler {s : State} {h : HandlerPc} (hpc : s.pc.handler = some h) : NowAt s := by
  unfold NowAt
  cases h' : s.pc <;> simp_all [Pc.handler]

/-- Nothing is known at the head of the loop and outside it. -/
theorem NowAt.of_entry {s : State} (hpc : s.pc = .thread ∨ s.pc = .nowCnt1) : NowAt s := by
  unfold NowAt
  rcases hpc with hpc | hpc <;> rw [hpc] <;> trivial

/-! ### Preservation -/

/-- Passing ticks keep what is known between the two reads. -/
theorem FirstRead.advance {s : State} {tmr1 n : ℕ} (h : FirstRead s.regs s.hist tmr1)
    (hg : OneRollover s (.advance n)) :
    FirstRead (s.regs.advance n) (s.hist.advance s.regs) tmr1 := by
  have h_le := h.le
  have h_uif := h.uif
  have h_one := h.one
  simp only [OneRollover] at hg
  refine ⟨by simpa using h.tmr1_eq, by simp; omega, ?_, ?_⟩
  · simp only [Hist.advance_aFirst, Hist.advance_pendFirst, Regs.advance, h_uif]
    cases s.hist.pendFirst with
    | true => simp
    | false =>
      -- the flag is set by the first multiple after the first read
      rw [Bool.eq_iff_iff]
      simp only [Bool.false_or, Bool.or_eq_true, decide_eq_true_eq]
      unfold monoPeriod at *
      omega
  · simp only [Hist.advance_aFirst, Regs.advance_ticks]
    cases hu : s.regs.sr.uif with
    | true =>
      -- one rollover is unserviced already
      rw [hu] at hg
      simp only [Bool.not_true, Bool.toNat_false] at hg
      omega
    | false =>
      -- none was passed since the first read, and one may be
      rw [hu] at hg h_uif
      simp only [Bool.not_false, Bool.toNat_true] at hg
      have h_eq : ¬ s.hist.aFirst / monoPeriod < s.regs.ticks / monoPeriod := by
        have := h_uif.symm
        rw [Bool.or_eq_false_iff, decide_eq_false_iff_not] at this
        exact this.2
      omega

/-- A pulse edge keeps it as well. -/
theorem FirstRead.edge {r : Regs} {h : Hist} {tmr1 : ℕ} (hF : FirstRead r h tmr1)
    (gpsext : Bool) : FirstRead (r.edge gpsext) (h.edge r) tmr1 where
  tmr1_eq := hF.tmr1_eq
  le := by rw [Regs.edge_ticks]; exact hF.le
  uif := by rw [Regs.edge_ticks, Regs.edge_uif]; exact hF.uif
  one := by rw [Regs.edge_ticks]; exact hF.one

/-- The second `CNT` read completes the sample: the epoch that was read is short
by the update flag of this very moment. -/
theorem FirstRead.sampled {s : State} {tmr1 : ℕ} (h : FirstRead s.regs s.hist tmr1)
    (hI : EpochInv s) (hpc : s.pc.handler = none) (hlt : tmr1 < s.regs.cnt) :
    NowCall.Sampled ⟨(s.vars.monoEpoch + s.regs.cnt) % 2 ^ 64, s.hist.aFirst, s.hist.pendFirst,
      s.regs.ticks⟩ where
  less := by rw [← h.tmr1_eq]; exact hlt
  value_lt := Nat.mod_lt _ (by decide)
  value := by
    have h_epoch := (EpochOk.epoch hI).add_right s.regs.cnt
    -- outside the handler the update flag is all that is owed
    rw [hpc] at h_epoch
    simp only [owed, inFlight, Nat.add_zero, h.uif] at h_epoch
    refine ((Nat.mod_modEq _ _).add_right _).trans ?_
    convert h_epoch using 1
    · unfold NowCall.pendSecond; ring
    · simp only [Regs.cnt, monoPeriod]; omega
  one := h.one

/-- A step of the handler keeps the invariant: it returns to the head of the loop
or to a thread. -/
theorem NowInv.handler {s s' : State} {h : HandlerPc} (hI : NowInv s) (hE : EpochInv s')
    (hs : HandlerStep s s' h) : NowInv s' := by
  have h_calls : s'.hist.calls = s.hist.calls := by rw [hs.hist, handlerStep_calls]
  have h_ticks : s'.regs.ticks = s.regs.ticks := by rw [hs.regs, handlerStep_ticks]
  refine ⟨hE, ?_, by rw [h_calls]; exact hI.sampled, by rw [h_calls, h_ticks]; exact hI.past,
    by rw [h_calls]; exact hI.sorted⟩
  cases h' : (handlerStep s h).2 with
  | none => exact .of_entry (hs.back h')
  | some k => exact .of_handler (h' ▸ hs.pc')

/-- A step of the loop keeps the invariant. -/
theorem NowInv.now {s s' : State} (hI : NowInv s) (hE : EpochInv s')
    (hC : ∀ {tmr1 ret}, s.pc = .nowCnt2 tmr1 ret → s.hist.aFirst < s.regs.ticks)
    (hs : NowStep s s') : NowInv s' := by
  have h_at := hI.at_pc
  unfold NowAt at h_at
  cases hs with
  | cnt1 hpc =>
    refine ⟨hE, ?_, hI.sampled, hI.past, hI.sorted⟩
    exact ⟨rfl, Nat.le_refl _, by simp, by simp⟩
  | epoch tmr1 hpc =>
    rw [hpc] at h_at
    exact ⟨hE, ⟨⟨h_at.tmr1_eq, h_at.le, h_at.uif, h_at.one⟩, rfl⟩, hI.sampled, hI.past, hI.sorted⟩
  | cnt2 tmr1 ret hpc =>
    rw [hpc] at h_at
    obtain ⟨h_first, rfl⟩ := h_at
    refine ⟨hE, ⟨fun hlt => ?_, fun hge => ?_, Nat.le_refl _, hI.past⟩, hI.sampled, hI.past,
      hI.sorted⟩
    · exact h_first.sampled hI.epoch (by rw [hpc]; rfl) hlt
    · -- a later tick with a count that is not larger is in a later period
      have h_adv := hC hpc
      have h_eq := h_first.tmr1_eq
      simp only [Regs.cnt, monoPeriod] at *
      omega
  | ret tmr1 ret tmr2 hpc hlt =>
    rw [hpc] at h_at
    -- the new call is the newest: its second read came after those of the others
    refine ⟨hE, .of_entry (Or.inl rfl), ?_, ?_, List.pairwise_cons.mpr ⟨h_at.past, hI.sorted⟩⟩
    · rintro c (_ | ⟨_, hc⟩)
      · exact h_at.sampled hlt
      · exact hI.sampled c hc
    · rintro c (_ | ⟨_, hc⟩)
      · exact h_at.le
      · exact hI.past c hc
  | again tmr1 ret tmr2 hpc hge =>
    exact ⟨hE, .of_handler rfl, hI.sampled, hI.past, hI.sorted⟩

/-- **Preservation.** Every step under the promises keeps the invariant. -/
theorem NowInv.step {gpsext : Bool} {s s' : State} {a : Action} (hI : NowInv s)
    (hg : TimerOk s a) (hn : next gpsext s a = some s') : NowInv s' := by
  have hE : EpochInv s' := hI.epoch.step hg.1 hn
  have h_at := hI.at_pc
  rcases next_cases hn with ⟨n, rfl, rfl⟩ | ⟨rfl, -, rfl⟩ | ⟨rfl, hc⟩ | ht
  · -- ticks pass
    refine ⟨hE, ?_, by simpa using hI.sampled, fun c hc => ?_, by simpa using hI.sorted⟩
    · unfold NowAt at h_at ⊢
      simp only
      cases hpc : s.pc with
      | nowEpoch tmr1 => rw [hpc] at h_at; exact h_at.advance hg.1
      | nowCnt2 tmr1 ret => rw [hpc] at h_at; exact ⟨h_at.1.advance hg.1, h_at.2⟩
      | nowTest tmr1 ret tmr2 =>
        rw [hpc] at h_at
        have h_le := h_at.le
        refine ⟨?_, by simpa using h_at.rolled, by simp; omega, by simpa using h_at.past⟩
        simpa only [Hist.candidate, Hist.advance_aFirst, Hist.advance_pendFirst,
          Hist.advance_aSecond] using h_at.sampled
      | _ => trivial
    · have := hI.past c (by simpa using hc)
      simp; omega
  · -- an edge leaves the count, the update flag and the reads of the pass alone
    refine ⟨hE, ?_, hI.sampled, by simpa [Hist.edge] using hI.past, hI.sorted⟩
    unfold NowAt at h_at ⊢
    simp only
    cases hpc : s.pc with
    | nowEpoch tmr1 => rw [hpc] at h_at; exact h_at.edge gpsext
    | nowCnt2 tmr1 ret => rw [hpc] at h_at; exact ⟨h_at.1.edge gpsext, h_at.2⟩
    | nowTest tmr1 ret tmr2 =>
      rw [hpc] at h_at
      exact ⟨h_at.sampled, h_at.rolled, by rw [Regs.edge_ticks]; exact h_at.le, h_at.past⟩
    | _ => trivial
  -- the handler, or the loop of `monotonic_now`
  · rcases cpuStep_cases hc with ⟨h, hs⟩ | hs
    · exact hI.handler hE hs
    · refine hI.now hE (fun {tmr1 ret} hpc => ?_) hs
      simpa only [CntAdvances, hpc] using hg.2
  · -- a thread stays outside, or enters the handler or the loop
    refine ⟨hE, ?_, by rw [ht.calls]; exact hI.sampled, by rw [ht.calls, ht.regs]; exact hI.past,
      by rw [ht.calls]; exact hI.sorted⟩
    rcases ht.pc' with hpc | hpc | hpc
    · exact .of_entry (Or.inl hpc)
    · exact .of_handler (h := .readSr) (by rw [hpc]; rfl)
    · exact .of_entry (Or.inr hpc)

theorem NowInv.of_reach {gpsext : Bool} {s : State} (h : (timerMachine gpsext).Reach TimerOk s) :
    NowInv s :=
  h.invariant NowInv.initial fun _ _ _ hI hg hn => hI.step hg hn

/-! ### The statement over every run -/

/-- A pass whose reads are `n` ticks apart and see no rollover returns. -/
theorem now_pass {gpsext : Bool} {s : State} {n : ℕ} (hpc : s.pc = .nowCnt1) (hn : 0 < n)
    (h_room : s.regs.cnt + n < monoPeriod) :
    ∃ t, (timerMachine gpsext).Path TimerOk s [.cpu, .cpu, .advance n, .cpu, .cpu] t ∧
      t.pc = .thread ∧ t.hist.calls =
        ⟨(s.vars.monoEpoch + (s.regs.cnt + n)) % 2 ^ 64, s.regs.ticks, s.regs.sr.uif,
          s.regs.ticks + n⟩ :: s.hist.calls := by
  -- there is room in the period for the ticks between the reads
  have h_cnt : (s.regs.advance n).cnt = s.regs.cnt + n := by
    simp only [Regs.cnt, Regs.advance_ticks, monoPeriod] at *
    omega
  have h_div : (s.regs.ticks + n) / monoPeriod = s.regs.ticks / monoPeriod := by
    simp only [Regs.cnt, monoPeriod] at *
    omega
  have h_lt : (s.regs.advance n).cnt > s.regs.cnt := by omega
  obtain ⟨regs, vars, nest, pc, hist⟩ := s
  obtain rfl : pc = .nowCnt1 := hpc
  have h_roll : OneRollover ⟨regs, vars, nest, .nowCnt2 regs.cnt vars.monoEpoch,
      { hist with aFirst := regs.ticks, pendFirst := regs.sr.uif }⟩ (.advance n) :=
    h_div.le.trans (Nat.le_add_right _ _)
  -- of the five actions, only the ticks and the second read have a promise to keep
  refine ⟨_, .cons ⟨trivial, trivial⟩ rfl (.cons ⟨trivial, trivial⟩ rfl
    (.cons ⟨h_roll, trivial⟩ rfl (.cons ⟨trivial, ?_⟩ rfl
      (.cons ⟨trivial, trivial⟩ (if_pos h_lt) (.nil _))))), rfl, ?_⟩
  · simp only [CntAdvances, Hist.advance_aFirst, Regs.advance_ticks]
    omega
  · simp [h_cnt]

/-- **`monotonic_now`.** In every run in which at most one rollover is unserviced
at a time and `CNT` advances between two reads, whatever the placement of the
rollovers:

* a returned call is exact if and only if its pass was quiet;
* if every call was, no call returned less than an earlier one;
* a pass is repeated only if the counter rolled over between its two reads, and
  the next one returns unless that happens again. -/
theorem monotonicNow_exact (gpsext : Bool) (s : State)
    (h : (timerMachine gpsext).Reach TimerOk s) :
    (∀ c ∈ s.hist.calls, c.value = (monoPeriod + c.aSecond) % 2 ^ 64 ↔ c.Quiet) ∧
    ((∀ c ∈ s.hist.calls, c.Quiet) → monoPeriod + s.regs.ticks < 2 ^ 64 →
      s.hist.calls.Pairwise fun later earlier => earlier.value ≤ later.value) ∧
    (∀ tmr1 ret tmr2, s.pc = .nowTest tmr1 ret tmr2 → tmr2 ≤ tmr1 →
      s.hist.aFirst / monoPeriod < s.hist.aSecond / monoPeriod) ∧
    (∀ n, s.pc = .nowCnt1 → 0 < n → s.regs.cnt + n < monoPeriod →
      ∃ t, (timerMachine gpsext).Path TimerOk s [.cpu, .cpu, .advance n, .cpu, .cpu] t ∧
        t.pc = .thread ∧ t.hist.calls =
          ⟨(s.vars.monoEpoch + (s.regs.cnt + n)) % 2 ^ 64, s.regs.ticks, s.regs.sr.uif,
            s.regs.ticks + n⟩ :: s.hist.calls) := by
  have hI := NowInv.of_reach h
  refine ⟨fun c hc => (hI.sampled c hc).quiet_iff, fun h_quiet h_small => ?_,
    fun tmr1 ret tmr2 hpc hge => ?_, fun n hpc hn h_room => now_pass hpc hn h_room⟩
  · -- exact values are in the order of the ticks at which they were read
    have h_exact : ∀ c ∈ s.hist.calls, c.value = monoPeriod + c.aSecond := by
      intro c hc
      have h_past := hI.past c hc
      rw [(hI.sampled c hc).quiet_iff.mpr (h_quiet c hc)]
      exact Nat.mod_eq_of_lt (by omega)
    refine hI.sorted.imp_of_mem fun {later earlier} hl he h_le => ?_
    rw [h_exact later hl, h_exact earlier he]
    omega
  · have h_at := hI.at_pc
    rw [NowAt, hpc] at h_at
    exact h_at.rolled hge

/-- The state after the actions `as`, from power-up. -/
abbrev after (as : List Action) : State := (timerMachine false).after TimerOk as

/-- A call just before a rollover, then the start of a second call. -/
def quietRun : List Action :=
  [.advance 65530, .callNow, .cpu, .cpu, .advance 1, .cpu, .cpu, .callNow]

/-- A second call whose first pass is repeated. -/
def repeatRun : List Action := quietRun ++ [.cpu, .cpu, .advance 10, .cpu]

/-- A second call that finds the rollover behind it and its update event pending:
interrupts are masked from `callNow` on, as they are throughout if the caller is
`vtimer_now`. -/
def backRun : List Action := quietRun ++ [.advance 10, .cpu, .cpu, .advance 1, .cpu, .cpu]

/-- The statement at the three runs: the call of `quietRun` is exact and its
second one can return, `repeatRun` repeats a pass on account of a rollover. -/
theorem monotonicNow_exact_runs :
    (∀ c ∈ (after quietRun).hist.calls, c.value = (monoPeriod + c.aSecond) % 2 ^ 64) ∧
    ((after quietRun).hist.calls.Pairwise fun later earlier => earlier.value ≤ later.value) ∧
    (after repeatRun).hist.aFirst / monoPeriod < (after repeatRun).hist.aSecond / monoPeriod ∧
    ∃ t, (timerMachine false).Path TimerOk (after quietRun)
      [.cpu, .cpu, .advance 1, .cpu, .cpu] t ∧ t.pc = .thread ∧ t.hist.calls =
        ⟨131068, 65531, false, 65532⟩ :: (after quietRun).hist.calls := by
  have h_quiet : ∀ c ∈ (after quietRun).hist.calls, c.Quiet := by decide +kernel
  obtain ⟨h_exact, h_sorted, -, h_pass⟩ :=
    monotonicNow_exact false (after quietRun) (Machine.reach_after _ _ (by decide +kernel))
  obtain ⟨-, -, h_rolled, -⟩ :=
    monotonicNow_exact false (after repeatRun) (Machine.reach_after _ _ (by decide +kernel))
  refine ⟨fun c hc => (h_exact c hc).mpr (h_quiet c hc), h_sorted h_quiet (by decide +kernel),
    h_rolled 65531 65536 5 rfl (by decide), h_pass 1 rfl (by decide) (by decide +kernel)⟩

/-- The second call of `backRun` is short by one period and returns less than the
first: neither is the value exact nor do values never decrease. -/
theorem monotonicNow_goes_back :
    ¬ ∀ s, (timerMachine false).Reach TimerOk s →
      (∀ c ∈ s.hist.calls, c.value = monoPeriod + c.aSecond) ∧
      s.hist.calls.Pairwise fun later earlier => earlier.value ≤ later.value := by
  intro h_all
  have h_calls : (after backRun).hist.calls =
      [⟨65542, 65541, true, 65542⟩, ⟨131067, 65530, false, 65531⟩] := by decide +kernel
  obtain ⟨-, h_sorted⟩ := h_all (after backRun) (Machine.reach_after _ _ (by decide +kernel))
  rw [h_calls] at h_sorted
  simp at h_sorted

end Tim3
end Laureline
