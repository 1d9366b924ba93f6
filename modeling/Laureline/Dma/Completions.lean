import Laureline.Dma.Streams

/-!
# Completions

Each flag that a transfer raises should be passed to the callback of its own stream. The handlers of
DMA2 give `dma_service_irq` the registers of DMA1: they pass on, and acknowledge, the flags of
another stream.

* `Proper` — the steps of a handler as they should be;
* `OwnFlags` — the condition under which they are so (`proper_iff`);
* `completions_kept` — in every run whose steps meet it, no completion is lost;
* `completion_lost` — a completion on each controller at the same time.
-/

namespace Laureline

namespace Dma

open Nibble

/-- A flag is in the register, or in the hands of a handler of its stream. -/
def Kept (s : State) (c : Stream) (n : ℕ) : Prop :=
  (s.flagsOf c).getLsbD n ∨
    ∃ f ∈ s.stack, f.vector = c ∧ f.pc ≠ .read ∧ f.flags.getLsbD n

/-- No completion is lost. -/
def NoneLost (s : State) : Prop := ∀ c n, (s.owed c).getLsbD n → Kept s c n

/-- A handler takes the flags of its own stream, acknowledges these and no others, and passes them
to the callback of its stream. -/
def Proper (s : State) : Action → State → Prop
  | .step, s' =>
    match s.stack with
    | ⟨v, .read, _⟩ :: _ => s'.stack.head?.map Frame.flags = some (s.flagsOf v)
    | ⟨v, .clear, flags⟩ :: _ =>
      ∀ c, s'.flagsOf c = if c = v then s.flagsOf v &&& ~~~flags else s.flagsOf c
    | ⟨v, .call, flags⟩ :: _ =>
      s'.calls = s.calls ++ (s.isrFuncs v).toList.map fun func => (func, s.isrParams v, flags)
    | [] => True
  | _, _ => True

/-- The registers that the handler is given show the flags of its own stream when it reads them.
When it clears them they show no flag that it has not read, if they are those of its stream, and
otherwise none at all, its own being no longer up. -/
def Frame.Own (s : State) : Frame → Prop
  | ⟨v, .read, _⟩ =>
    (vectors.get v).dma = (dmaStreams.get v).ctrl ∨
      nibble (s.isr (vectors.get v).dma) (dmaStreams.get v).ishift = s.flagsOf v
  | ⟨v, .clear, flags⟩ =>
    if (vectors.get v).dma = (dmaStreams.get v).ctrl then s.flagsOf v &&& ~~~flags = 0
    else
      nibble (s.isr (vectors.get v).dma) (dmaStreams.get v).ishift = 0 ∧ s.flagsOf v &&& flags = 0
  | ⟨_, .call, _⟩ => True

instance (s : State) : (f : Frame) → Decidable (f.Own s)
  | ⟨_, .read, _⟩ => inferInstanceAs (Decidable (_ ∨ _))
  | ⟨v, .clear, flags⟩ =>
    inferInstanceAs (Decidable (if (vectors.get v).dma = (dmaStreams.get v).ctrl then
      s.flagsOf v &&& ~~~flags = 0
      else
        nibble (s.isr (vectors.get v).dma) (dmaStreams.get v).ishift = 0 ∧
          s.flagsOf v &&& flags = 0))
  | ⟨_, .call, _⟩ => inferInstanceAs (Decidable True)

/-- The same for the next access of the innermost handler. -/
def OwnFlags (s : State) : Action → Prop
  | .step => ∀ f ∈ s.stack.head?, f.Own s
  | _ => True

instance (s : State) : (a : Action) → Decidable (OwnFlags s a)
  | .step => inferInstanceAs (Decidable (∀ f ∈ s.stack.head?, f.Own s))
  | .allocate .. | .release _ | .enable _ | .disable _ | .complete .. | .irq _ =>
    inferInstanceAs (Decidable True)

section
variable {s s' : State} {c d : Stream} {n : ℕ}

/-! ### Writes to the registers -/

/-- A write to `IFCR` at the place of a stream clears the stream there. -/
theorem flagsOf_writeIfcr (s : State) (dma : Ctrl) (d c : Stream) :
    (s.writeIfcr dma (dmaStreams.get d).ishift).flagsOf c =
      if (dmaStreams.get c).ctrl = dma ∧ (dmaStreams.get c).ishift = (dmaStreams.get d).ishift then
        0
      else s.flagsOf c := by
  unfold State.flagsOf State.writeIfcr
  -- the write reaches one of the two controllers
  by_cases h_ctrl : (dmaStreams.get c).ctrl = dma
  · subst h_ctrl
    dsimp only
    rw [Function.update_self]
    -- two streams have the same flags or none in common
    rcases ishift_eq_or_apart d c with h_eq | h_apart
    · rw [if_pos ⟨rfl, h_eq.symm⟩, h_eq, nibble_clearNibble_self]
    · have h_ne : (dmaStreams.get c).ishift ≠ (dmaStreams.get d).ishift := by
        unfold Apart at h_apart
        omega
      rw [if_neg fun h => h_ne h.2, nibble_clearNibble_of_apart h_apart]
  · dsimp only
    rw [Function.update_of_ne h_ctrl, if_neg fun h => h_ctrl h.1]

/-- A write at the place of a stream on its own controller. -/
theorem flagsOf_writeIfcr_own (s : State) (d c : Stream) :
    (s.writeIfcr (dmaStreams.get d).ctrl (dmaStreams.get d).ishift).flagsOf c =
      if c = d then 0 else s.flagsOf c := by
  rw [flagsOf_writeIfcr]
  by_cases h : c = d
  · rw [if_pos ⟨by rw [h], by rw [h]⟩, if_pos h]
  · rw [if_neg fun h' => h (stream_ext h'.1 h'.2), if_neg h]

/-- A transfer raises flags of its stream only. -/
theorem flagsOf_complete (s : State) (c d : Stream) (flags : BitVec 4) :
    (s.complete c flags).flagsOf d =
      if d = c then s.flagsOf c ||| flags.setWidth 32 else s.flagsOf d := by
  unfold State.flagsOf State.complete
  dsimp only
  by_cases h : d = c
  · subst h
    rw [Function.update_self, nibble_orNibble_self (ishift_add_le d), if_pos rfl]
  · rw [if_neg h]
    by_cases h_ctrl : (dmaStreams.get d).ctrl = (dmaStreams.get c).ctrl
    · have h_apart : Apart (dmaStreams.get c).ishift (dmaStreams.get d).ishift :=
        (ishift_eq_or_apart c d).resolve_left fun h_eq => h (stream_ext h_ctrl h_eq.symm)
      rw [h_ctrl, Function.update_self, nibble_orNibble_of_apart h_apart]
    · rw [Function.update_of_ne h_ctrl]

/-! ### The condition -/

/-- A field without a flag of another. -/
theorem and_not_eq_self_iff {x y : BitVec 32} : x = x &&& ~~~y ↔ x &&& y = 0 := by
  constructor
  · intro h
    rw [h, BitVec.and_assoc]
    simp
  · intro h
    refine BitVec.eq_of_getLsbD_eq fun n hn => ?_
    have h_bit : (x &&& y).getLsbD n = false := by rw [h]; simp
    rw [BitVec.getLsbD_and] at h_bit ⊢
    rw [BitVec.getLsbD_not]
    grind

/-- What the handler clears, with its own registers. -/
theorem clear_own_iff {v : Stream} {flags : BitVec 32}
    (h_own : (vectors.get v).dma = (dmaStreams.get v).ctrl) :
    (∀ c, (s.writeIfcr (vectors.get v).dma (dmaStreams.get v).ishift).flagsOf c =
        if c = v then s.flagsOf v &&& ~~~flags else s.flagsOf c) ↔
      s.flagsOf v &&& ~~~flags = 0 := by
  rw [h_own]
  constructor
  · intro h
    have h_v := h v
    rw [flagsOf_writeIfcr_own, if_pos rfl, if_pos rfl] at h_v
    exact h_v.symm
  · intro h c
    rw [flagsOf_writeIfcr_own, h]

/-- What the handler clears, with the registers of the other controller. -/
theorem clear_other_iff {v : Stream} {flags : BitVec 32}
    (h_other : (vectors.get v).dma ≠ (dmaStreams.get v).ctrl) :
    (∀ c, (s.writeIfcr (vectors.get v).dma (dmaStreams.get v).ishift).flagsOf c =
        if c = v then s.flagsOf v &&& ~~~flags else s.flagsOf c) ↔
      nibble (s.isr (vectors.get v).dma) (dmaStreams.get v).ishift = 0 ∧
        s.flagsOf v &&& flags = 0 := by
  obtain ⟨d, h_ne, h_ctrl, h_ishift⟩ := exists_twin h_other
  have h_twin : nibble (s.isr (vectors.get v).dma) (dmaStreams.get v).ishift = s.flagsOf d := by
    rw [State.flagsOf, h_ctrl, h_ishift]
  rw [h_twin]
  constructor
  · intro h
    -- the twin loses its flags, and the stream itself keeps what was read
    have h_d := h d
    have h_v := h v
    rw [flagsOf_writeIfcr, if_pos ⟨h_ctrl, h_ishift⟩, if_neg h_ne] at h_d
    rw [flagsOf_writeIfcr, if_neg fun h' => h_other h'.1.symm, if_pos rfl] at h_v
    exact ⟨h_d.symm, and_not_eq_self_iff.mp h_v⟩
  · rintro ⟨h_d, h_v⟩ c
    rw [flagsOf_writeIfcr]
    by_cases h_c : (dmaStreams.get c).ctrl = (vectors.get v).dma ∧
        (dmaStreams.get c).ishift = (dmaStreams.get v).ishift
    · have h_eq : c = d :=
        stream_ext (h_c.1.trans h_ctrl.symm) (h_c.2.trans h_ishift.symm)
      rw [if_pos h_c, h_eq, if_neg h_ne, h_d]
    · rw [if_neg h_c]
      split
      · next h_eq =>
        rw [h_eq]
        exact and_not_eq_self_iff.mpr h_v
      · rfl

/-- **The condition** is exact for every step. -/
theorem proper_iff {a : Action} (hn : s.next a = some s') : Proper s a s' ↔ OwnFlags s a := by
  -- only the accesses of a handler are restricted
  cases a with
  | step =>
    simp only [State.next] at hn
    cases h_stack : s.stack with
    | nil => simp [h_stack] at hn
    | cons f rest =>
      obtain ⟨v, pc, flags⟩ := f
      simp only [h_stack] at hn
      obtain rfl := Option.some.inj hn
      cases pc with
      | read =>
        -- the flags of its stream, where the handler reads the register that has them
        simp only [Proper, OwnFlags, h_stack, State.serviceIrq, List.head?_cons, Option.map_some,
          Option.some.injEq, vectors_ch, Option.mem_def, forall_eq', Frame.Own]
        refine ⟨Or.inr, fun h => ?_⟩
        rcases h with h | h
        · rw [h, State.flagsOf]
        · exact h
      | clear =>
        -- written to the other controller, the ones clear the flags of the twin stream
        simp only [Proper, OwnFlags, h_stack, State.serviceIrq, List.head?_cons,
          Option.some.injEq, vectors_ch, Option.mem_def, forall_eq', Frame.Own]
        split
        · next h_own => exact clear_own_iff h_own
        · next h_other => exact clear_other_iff h_other
      | call =>
        simp only [Proper, OwnFlags, h_stack, State.serviceIrq, List.head?_cons,
          Option.some.injEq, vectors_ch, dmaStreams_index, Option.mem_def, forall_eq', Frame.Own]
  | _ => exact Iff.rfl

/-! ### The run -/

theorem NoneLost.disable (h : NoneLost s) (c : Stream) : NoneLost (s.dmaDisable c) := by
  intro d n h_owed
  have h_flags : (s.dmaDisable c).flagsOf d = if d = c then 0 else s.flagsOf d :=
    flagsOf_writeIfcr_own s c d
  -- what the stream owed is dropped with its flags
  have h_ne : d ≠ c := by
    rintro rfl
    have h_zero : (s.dmaDisable d).owed d = 0 := Function.update_self ..
    rw [h_zero] at h_owed
    simp at h_owed
  have h_old : (s.dmaDisable c).owed d = s.owed d := Function.update_of_ne h_ne ..
  rw [h_old] at h_owed
  rcases h d n h_owed with h_up | h_held
  · refine Or.inl ?_
    rw [h_flags, if_neg h_ne]
    exact h_up
  · exact Or.inr h_held

theorem NoneLost.complete (h : NoneLost s) (c : Stream) (flags : BitVec 4) :
    NoneLost (s.complete c flags) := by
  intro d n h_owed
  by_cases h_eq : d = c
  · subst h_eq
    have h_owed_eq : (s.complete d flags).owed d = s.owed d ||| flags.setWidth 32 :=
      Function.update_self ..
    rw [h_owed_eq, BitVec.getLsbD_or, Bool.or_eq_true] at h_owed
    have h_flags := flagsOf_complete s d d flags
    rw [if_pos rfl] at h_flags
    -- what is owed was owed before, or has just been raised
    rcases h_owed with h_old | h_new
    · rcases h d n h_old with h_up | h_held
      · refine Or.inl ?_
        rw [h_flags, BitVec.getLsbD_or, h_up, Bool.true_or]
      · exact Or.inr h_held
    · refine Or.inl ?_
      rw [h_flags, BitVec.getLsbD_or, h_new, Bool.or_true]
  -- the other streams keep their flags
  · have h_old : (s.complete c flags).owed d = s.owed d := Function.update_of_ne h_eq ..
    rw [h_old] at h_owed
    rcases h d n h_owed with h_up | h_held
    · refine Or.inl ?_
      rw [flagsOf_complete, if_neg h_eq]
      exact h_up
    · exact Or.inr h_held

/-- A handler has read the flags. -/
theorem NoneLost.read (h : NoneLost s) {v : Stream} {old flags : BitVec 32} {rest : List Frame}
    (h_stack : s.stack = ⟨v, .read, old⟩ :: rest) :
    NoneLost { s with stack := ⟨v, .clear, flags⟩ :: rest } := by
  intro d n h_owed
  rcases h d n h_owed with h_up | ⟨f, h_mem, h_held⟩
  · exact Or.inl h_up
  · rw [h_stack] at h_mem
    rcases List.mem_cons.mp h_mem with rfl | h_mem
    · -- a handler that has not read has no flag in its hands
      exact absurd rfl h_held.2.1
    · exact Or.inr ⟨f, List.mem_cons_of_mem _ h_mem, h_held⟩

/-- A handler clears what it has read: these flags are in its hands. -/
theorem NoneLost.clear (h : NoneLost s) {v : Stream} {flags : BitVec 32} {rest : List Frame}
    (h_stack : s.stack = ⟨v, .clear, flags⟩ :: rest) (h_owed_eq : s'.owed = s.owed)
    (h_stack' : s'.stack = ⟨v, .call, flags⟩ :: rest)
    (h_proper : ∀ c, s'.flagsOf c = if c = v then s.flagsOf v &&& ~~~flags else s.flagsOf c) :
    NoneLost s' := by
  intro d n h_owed
  rw [h_owed_eq] at h_owed
  rcases h d n h_owed with h_up | ⟨f, h_mem, h_held⟩
  · by_cases h_eq : d = v
    · subst h_eq
      by_cases h_flag : flags.getLsbD n
      · exact Or.inr ⟨_, h_stack' ▸ List.mem_cons_self, rfl, by simp, h_flag⟩
      · -- raised after the read, and not acknowledged
        refine Or.inl ?_
        have h_lt := BitVec.lt_of_getLsbD h_up
        rw [Bool.not_eq_true] at h_flag
        rw [h_proper, if_pos rfl, BitVec.getLsbD_and, BitVec.getLsbD_not, h_up, h_flag]
        simp [h_lt]
    · refine Or.inl ?_
      rw [h_proper, if_neg h_eq]
      exact h_up
  · rw [h_stack] at h_mem
    rcases List.mem_cons.mp h_mem with rfl | h_mem
    · exact Or.inr ⟨⟨v, .call, flags⟩, h_stack' ▸ List.mem_cons_self, h_held.1, by simp,
        h_held.2.2⟩
    · exact Or.inr ⟨f, h_stack' ▸ List.mem_cons_of_mem _ h_mem, h_held⟩

/-- A handler passes the flags on. -/
theorem NoneLost.call (h : NoneLost s) {v : Stream} {flags : BitVec 32} {rest : List Frame}
    (h_stack : s.stack = ⟨v, .call, flags⟩ :: rest) (h_isr : s'.isr = s.isr)
    (h_stack' : s'.stack = rest)
    (h_owed_eq : s'.owed =
      Function.update s.owed v (s.owed v &&& (~~~flags ||| s.flagsOf v))) : NoneLost s' := by
  intro d n h_owed
  have h_up_iff (c : Stream) : s'.flagsOf c = s.flagsOf c := by
    rw [State.flagsOf, h_isr, State.flagsOf]
  have h_before : (s.owed d).getLsbD n ∧
      (d = v → flags.getLsbD n = false ∨ (s.flagsOf d).getLsbD n = true) := by
    rw [h_owed_eq] at h_owed
    by_cases h_eq : d = v
    · subst h_eq
      rw [Function.update_self, BitVec.getLsbD_and, BitVec.getLsbD_or, BitVec.getLsbD_not]
        at h_owed
      grind
    · rw [Function.update_of_ne h_eq] at h_owed
      exact ⟨h_owed, fun h => absurd h h_eq⟩
  rcases h d n h_before.1 with h_up | ⟨f, h_mem, h_vector, h_pc, h_flag⟩
  · refine Or.inl ?_
    rw [h_up_iff]
    exact h_up
  · rw [h_stack] at h_mem
    rcases List.mem_cons.mp h_mem with rfl | h_mem
    · -- the flags of the handler are no longer owed, unless they are up again
      rcases h_before.2 h_vector.symm with h_not | h_up
      · exact absurd (h_flag.symm.trans h_not) (by decide)
      · refine Or.inl ?_
        rw [h_up_iff]
        exact h_up
    · exact Or.inr ⟨f, h_stack' ▸ h_mem, h_vector, h_pc, h_flag⟩

theorem NoneLost.step (h : NoneLost s) {a : Action} (hn : s.next a = some s')
    (h_proper : Proper s a s') : NoneLost s' := by
  cases a with
  | allocate c func param =>
    obtain rfl := Option.some.inj hn
    exact h.disable c
  | release c =>
    obtain rfl := Option.some.inj hn
    exact h.disable c
  | enable c =>
    -- no flag moves
    obtain rfl := Option.some.inj hn
    exact h
  | disable c =>
    obtain rfl := Option.some.inj hn
    exact h.disable c
  | complete c flags =>
    simp only [State.next] at hn
    split_ifs at hn
    obtain rfl := Option.some.inj hn
    exact h.complete c flags
  | irq c =>
    -- a handler that enters has read nothing yet
    simp only [State.next] at hn
    split_ifs at hn
    obtain rfl := Option.some.inj hn
    intro d n h_owed
    rcases h d n h_owed with h_up | ⟨f, h_mem, h_held⟩
    · exact Or.inl h_up
    · exact Or.inr ⟨f, List.mem_cons_of_mem _ h_mem, h_held⟩
  | step =>
    simp only [State.next] at hn
    cases h_stack : s.stack with
    | nil => simp [h_stack] at hn
    | cons f rest =>
      obtain ⟨v, pc, flags⟩ := f
      simp only [h_stack] at hn
      obtain rfl := Option.some.inj hn
      cases pc with
      | read => exact h.read h_stack
      | clear =>
        simp only [Proper, h_stack] at h_proper
        exact h.clear h_stack rfl rfl h_proper
      | call =>
        refine h.call h_stack rfl rfl ?_
        simp only [State.serviceIrq, vectors_ch, dmaStreams_index]

/-- **Completions.** In every run whose steps all meet the condition no completion is lost; and a
step treats the flags as it should exactly where it meets the condition. -/
theorem completions_kept (h : machine.Reach OwnFlags s) :
    NoneLost s ∧ ∀ a s', s.next a = some s' → (Proper s a s' ↔ OwnFlags s a) := by
  refine ⟨h.invariant (I := NoneLost) (fun c n h_owed => ?_) fun s a s' hI hG hn => ?_,
    fun a s' hn => proper_iff hn⟩
  · have h_zero : machine.init.owed c = 0 := rfl
    rw [h_zero] at h_owed
    simp at h_owed
  · exact hI.step hn ((proper_iff hn).mpr hG)

end

/-- Two streams in the same field of the two controllers, with a completion on each. -/
def bothComplete (c d : Stream) : List Action :=
  [.allocate c (some 100) 0, .allocate d (some 101) 0, .enable c, .enable d, .complete c 2,
    .complete d 2]

/-- The handler of DMA1 runs. -/
theorem completions_kept_dma1 :
    NoneLost (machine.after OwnFlags (bothComplete 0 7 ++ [.irq 0, .step, .step, .step])) :=
  (completions_kept (machine.reach_after _ (by decide))).1

/-- The handler of DMA2 runs first: the flag of the stream on DMA1 is cleared. -/
theorem completion_lost : ¬ ∀ s, machine.Reach (fun _ _ => True) s → NoneLost s := by
  intro h
  have h_reach : machine.Reach (fun _ _ => True)
      (machine.after (fun _ _ => True) (bothComplete 0 7 ++ [.irq 7, .step, .step])) :=
    machine.reach_after _ (by decide)
  rcases h _ h_reach 0 1 (by decide) with h_up | ⟨f, h_mem, h_vector, -⟩
  · exact absurd h_up (by decide)
  · have h_stack : (machine.after (fun _ _ => True)
        (bothComplete 0 7 ++ [.irq 7, .step, .step])).stack = [⟨7, .call, 2⟩] := rfl
    rw [h_stack] at h_mem
    rw [List.mem_singleton.mp h_mem] at h_vector
    exact absurd h_vector (by decide)

end Dma

end Laureline
