import Laureline.Mac.Transmit

/-!
# A transmission that is given up

`maczero_transmit` looks at the link and at the timeout in the loop over the segments, so it can
return `ERR_TIMEOUT` when it has moved `tx_ptr` and written to the descriptor already.

* `Waits` — the OWN test does not find a descriptor for the frame;
* `Kept` — the ring as before the call, but for what `maczero_housekeeping` and the DMA do;
* `kept_of_one_segment` — a chain of one segment;
* `maczero_transmit_kept_iff` — the ring is so exactly if the call has found no descriptor;
* `maczero_transmit_given_up` — a chain that is given up between its two segments.
-/

namespace Laureline

namespace Mac

/-- The OWN test does not find the descriptor of the call free. -/
def Waits (s : State) (a : Action) : Prop :=
  a = .driver → s.pc = .ownTest → s.ownClear s.call.tdes = false

instance (s : State) (a : Action) : Decidable (Waits s a) :=
  inferInstanceAs (Decidable (_ → _ → _))

/-- A descriptor is as it was, except that the DMA may have cleared its OWN bit. -/
structure Desc.SameAs (x y : Desc) : Prop where
  des0 : x.des0 = { y.des0 with own := x.des0.own }
  own : x.des0.own = true → y.des0.own = true
  des1 : x.des1 = y.des1
  desBuf : x.desBuf = y.desBuf
  pbuf : x.pbuf = y.pbuf

/-- The ring as it was in `s₀`. -/
structure Kept (s₀ s : State) : Prop where
  txPtr : s.txPtr = s₀.txPtr
  desc : ∀ d, (s.desc d).SameAs (s₀.desc d)
  given : s.call.given = []
  taken : s.taken = s₀.taken
  overwritten : s.overwritten = s₀.overwritten

/-- A call that has not found a descriptor. -/
structure Untouched (s₀ s : State) : Prop where
  kept : Kept s₀ s
  stage : s.pc.stage = 0
  first : ∀ v, s.pc ≠ .setOwn v

section
variable {s₀ s₁ s s' : State} {a : Action} {as : List Action} {p : Seg} {rest : List Seg}

theorem Desc.SameAs.refl (x : Desc) : x.SameAs x := ⟨rfl, id, rfl, rfl, rfl⟩

theorem Untouched.transmit : Untouched s (s.transmit p rest) :=
  ⟨⟨rfl, fun d => .refl _, rfl, rfl, rfl⟩, rfl, fun _ h => by simp [State.transmit] at h⟩

/-- The DMA only clears OWN bits. -/
theorem Untouched.dmaDone (h : Untouched s₀ s) : Untouched s₀ s.dmaDone := by
  obtain ⟨⟨h_ptr, h_desc, h_given, h_taken, h_over⟩, h_stage, h_first⟩ := h
  refine ⟨⟨h_ptr, fun d => ?_, h_given, h_taken, h_over⟩, h_stage, h_first⟩
  obtain ⟨h_des0, h_own, h_des1, h_buf, h_pbuf⟩ := h_desc d
  rw [dmaDone_desc]
  refine ⟨?_, fun h_set => ?_, h_des1, h_buf, h_pbuf⟩
  · dsimp only
    rw [h_des0]
  · exact h_own (Bool.and_elim_left h_set)

/-- Housekeeping does not write to the descriptors. -/
theorem Untouched.pbufFree (h : Untouched s₀ s) (d : Pos) :
    Untouched s₀ { s.pbufFree d with pc := .activeNext d } := by
  obtain ⟨⟨h_ptr, h_desc, h_given, h_taken, h_over⟩, -, -⟩ := h
  refine ⟨⟨?_, fun e => ?_, ?_, ?_, ?_⟩, rfl, fun _ h => by simp at h⟩
  · exact (pbufFree_txPtr s d).trans h_ptr
  · obtain ⟨h_des0, h_own, h_des1, h_buf, h_pbuf⟩ := h_desc e
    show ((s.pbufFree d).desc e).SameAs (s₀.desc e)
    rw [pbufFree_desc]
    exact ⟨h_des0, h_own, h_des1, h_buf, h_pbuf⟩
  · show (s.pbufFree d).call.given = []
    rw [pbufFree_call, h_given]
  · exact (pbufFree_taken s d).trans h_taken
  · exact (pbufFree_eq s d).2.2.trans h_over

theorem Untouched.step (h : Untouched s₀ s) (ha : NoCall s a) (h_waits : Waits s a)
    (hn : s.next a = some s') : Untouched s₀ s' := by
  have h' := h
  obtain ⟨⟨h_ptr, h_desc, h_given, h_taken, h_over⟩, h_stage, h_first⟩ := h'
  cases a with
  | transmit p' rest' => exact ha.elim
  | giveUp =>
    obtain ⟨-, rfl⟩ := giveUp_inv hn
    exact ⟨⟨h_ptr, h_desc, h_given, h_taken, h_over⟩, rfl, fun _ h => by simp at h⟩
  | dma =>
    obtain ⟨-, rfl⟩ := dma_inv hn
    exact h.dmaDone
  | driver =>
    cases access_of_driver hn with
    | check | isFree | isDone | activeNext | own =>
      exact ⟨⟨h_ptr, h_desc, h_given, h_taken, h_over⟩, rfl, fun _ h => by simp at h⟩
    | pbufFree => exact h.pbufFree _
    | ownTest hpc ho => exact absurd ((h_waits rfl hpc).symm.trans ho) (by decide)
    -- the accesses behind the OWN test are not reached
    | setOwn hpc => exact absurd hpc (h_first _)
    | des1 hpc | desBuf hpc | des0 hpc | pbufNull hpc | first hpc | notFirst hpc | last hpc
    | notLast hpc | setLs hpc | handOver hpc | setFirst hpc | pbufRef hpc | setActive hpc =>
      exact absurd h_stage (by simp [hpc, Pc.stage])

/-- Only the OWN test moves `tx_ptr`. -/
theorem txPtr_step (ha : NoCall s a) (hn : s.next a = some s') :
    s'.txPtr = s.txPtr ∨ s'.txPtr = s.call.tdes + 1 := by
  cases a with
  | transmit p' rest' => exact ha.elim
  | giveUp =>
    obtain ⟨-, rfl⟩ := giveUp_inv hn
    exact Or.inl rfl
  | dma =>
    obtain ⟨-, rfl⟩ := dma_inv hn
    exact Or.inl rfl
  | driver =>
    cases access_of_driver hn with
    | ownTest => exact Or.inr rfl
    | pbufFree => exact Or.inl (pbufFree_txPtr s _)
    | _ => exact Or.inl rfl

/-- A step that does not wait. -/
theorem txPtr_of_not_waits (h_waits : ¬ Waits s a) (hn : s.next a = some s') :
    s'.txPtr = s.call.tdes + 1 := by
  simp only [Waits, Classical.not_imp] at h_waits
  obtain ⟨rfl, hpc, ho⟩ := h_waits
  cases access_of_driver hn with
  | ownTest => rfl
  | own _ ho' => exact absurd ho' ho
  | check hpc' | isFree hpc' | isDone hpc' | pbufFree hpc' | activeNext hpc' | des1 hpc'
  | desBuf hpc' | des0 hpc' | pbufNull hpc' | first hpc' | notFirst hpc' | setOwn hpc'
  | last hpc' | notLast hpc' | setLs hpc' | handOver hpc' | setFirst hpc' | pbufRef hpc'
  | setActive hpc' => exact absurd (hpc.symm.trans hpc') (by simp)

/-- An OWN test that finds the descriptor free. -/
theorem stage_of_found (hpc : s.pc = .ownTest) (ho : ¬ s.ownClear s.call.tdes = false)
    (hn : s.next .driver = some s') : s'.pc.stage = 1 := by
  have h_clear : s.ownClear s.call.tdes = true := Bool.not_eq_false _ ▸ ho
  simp only [State.next, State.driver, hpc, h_clear, if_true] at hn
  obtain rfl := Option.some.inj hn
  rfl

/-- Behind the OWN test of the last segment. -/
theorem stage_step (h_todo : s.call.todo = []) (ha : NoCall s a) (h_stage : 1 ≤ s.pc.stage)
    (hn : s.next a = some s') : 1 ≤ s'.pc.stage := by
  cases a with
  | transmit p' rest' => exact ha.elim
  | giveUp =>
    obtain ⟨hpc, -⟩ := giveUp_inv hn
    exact absurd h_stage (by simp [hpc, Pc.stage])
  | dma =>
    obtain ⟨-, rfl⟩ := dma_inv hn
    exact h_stage
  | driver =>
    cases access_of_driver hn with
    | check hpc | isFree hpc | isDone hpc | pbufFree hpc | activeNext hpc | own hpc =>
      -- before the hand-over the stage is 0
      exact absurd h_stage (by simp [hpc, Pc.stage])
    -- there is no further segment
    | notLast _ h_next => exact absurd (h_todo.symm.trans h_next) (by simp)
    | _ => exact Nat.le_of_ble_eq_true rfl

/-- The accesses of a call either all wait, or have moved `tx_ptr`. -/
theorem waits_or_moved (h : machine.Path NoCall (s₀.transmit p rest) as s) :
    machine.Path (fun s a => NoCall s a ∧ Waits s a) (s₀.transmit p rest) as s ∨
      s.txPtr = s₀.txPtr + 1 := by
  -- `tdes` is not advanced, so `tx_ptr` stays behind it once it has moved
  have h_both := h.history
    (I := fun as s => CallInv s₀.txPtr p rest s ∧
      (machine.Path (fun s a => NoCall s a ∧ Waits s a) (s₀.transmit p rest) as s ∨
        s.txPtr = s₀.txPtr + 1))
    (fun bs s a s' hI ha hn => ?_) ⟨.transmit, Or.inl (.nil _)⟩
  · exact h_both.2
  · obtain ⟨h_call, h_or⟩ := hI
    refine ⟨h_call.step ha hn, ?_⟩
    rcases h_or with h_path | h_moved
    · by_cases h_waits : Waits s a
      · exact Or.inl (h_path.append (.cons ⟨ha, h_waits⟩ hn (.nil _)))
      · refine Or.inr ?_
        rw [txPtr_of_not_waits h_waits hn, h_call.tdes_eq]
    · refine Or.inr ?_
      rcases txPtr_step ha hn with h_same | h_next
      · exact h_same.trans h_moved
      · rw [h_next, h_call.tdes_eq]

/-- Accesses that all wait. -/
theorem kept_of_waits
    (h : machine.Path (fun s a => NoCall s a ∧ Waits s a) (s₀.transmit p rest) as s) : Kept s₀ s :=
  (h.invariant (I := Untouched s₀) (fun _ _ _ hI hG hn => hI.step hG.1 hG.2 hn) .transmit).kept

/-- **One segment.** A chain of one segment is given up before it has a descriptor, or not at
all. -/
theorem kept_of_one_segment (h : machine.Path NoCall (s₀.transmit p []) as s)
    (h_timeout : s.pc = .returned (some .timeout)) : Kept s₀ s := by
  have h_all := h.history
    (I := fun as s => (CallInv s₀.txPtr p [] s ∧ SingleInv s₀.txPtr p s) ∧
      (machine.Path (fun s a => NoCall s a ∧ Waits s a) (s₀.transmit p []) as s ∨
        1 ≤ s.pc.stage))
    (fun bs s a s' hI ha hn => ?_) ⟨⟨.transmit, .transmit⟩, Or.inl (.nil _)⟩
  · refine kept_of_waits (h_all.2.resolve_right fun h_stage => ?_)
    rw [h_timeout] at h_stage
    exact absurd h_stage (by decide)
  · obtain ⟨⟨h_call, h_single⟩, h_or⟩ := hI
    refine ⟨⟨h_call.step ha hn, h_single.step h_call ha hn⟩, ?_⟩
    rcases h_or with h_path | h_stage
    · by_cases h_waits : Waits s a
      · exact Or.inl (h_path.append (.cons ⟨ha, h_waits⟩ hn (.nil _)))
      · -- the OWN test has found its descriptor free
        refine Or.inr ?_
        simp only [Waits, Classical.not_imp] at h_waits
        obtain ⟨rfl, hpc, ho⟩ := h_waits
        rw [stage_of_found hpc ho hn]
    · -- behind the OWN test the call goes on to its end
      exact Or.inr (stage_step h_single.todo_eq ha h_stage hn)

/-- **A call that is given up.** After any history, for any chain and at any moment of a call, so
also when it returns `ERR_TIMEOUT`: the ring is as it was before the call if and only if no OWN test
of the call has found its descriptor free. -/
theorem maczero_transmit_kept_iff (h_call : s₀.next (.transmit p rest) = some s₁)
    (h_run : machine.Path NoCall s₁ as s) : Kept s₀ s ↔ machine.Path Waits s₁ as s := by
  obtain ⟨-, rfl⟩ := transmit_inv h_call
  constructor
  · intro h_kept
    rcases waits_or_moved h_run with h_path | h_moved
    · exact h_path.mono fun _ _ h => h.2
    · have h_eq : s₀.txPtr + 1 = s₀.txPtr := h_moved.symm.trans h_kept.txPtr
      exact absurd (add_eq_left.mp h_eq) (by decide)
  · exact fun h_waits => kept_of_waits (h_run.both h_waits)

end

/-- A chain of one segment is given up at once. -/
theorem maczero_transmit_kept_at_once :
    Kept start (machine.after (fun _ _ => True) [.transmit ⟨100, 1000, 90⟩ [], .giveUp]) := by
  have h_waits : machine.Path Waits (start.transmit ⟨100, 1000, 90⟩ []) [.giveUp]
      (machine.after (fun _ _ => True) [.transmit ⟨100, 1000, 90⟩ [], .giveUp]) :=
    machine.path_of_exec _ rfl
  exact (maczero_transmit_kept_iff rfl (machine.path_of_exec NoCall rfl)).mpr h_waits

/-- The first segment is in its descriptor, and the link goes down before the second. -/
def goesDown : List Action :=
  .transmit ⟨100, 1000, 54⟩ [⟨200, 2000, 48⟩] :: List.replicate 9 .driver ++ [.giveUp]

/-- `tx_ptr` has moved on, and the DMA waits at the descriptor that was left behind. -/
theorem maczero_transmit_given_up :
    ¬ ∀ (s₀ s₁ : State) (p : Seg) (rest : List Seg) (as : List Action) (s : State),
      machine.Reach (fun _ _ => True) s₀ → s₀.next (.transmit p rest) = some s₁ →
        machine.Path NoCall s₁ as s → s.pc = .returned (some .timeout) → Kept s₀ s := by
  intro h
  have h_run : machine.Path NoCall (start.transmit ⟨100, 1000, 54⟩ [⟨200, 2000, 48⟩])
      (List.replicate 9 .driver ++ [.giveUp]) (machine.after (fun _ _ => True) goesDown) :=
    machine.path_of_exec _ rfl
  have h_kept := h start _ _ _ _ _ .init rfl h_run rfl
  exact absurd h_kept.txPtr (by decide)

end Mac

end Laureline
