import Laureline.Serial.Port

/-!
# What a port receives

`serial_get` returns bytes that came, in their order and each of them once (`serial_input`). A
byte is lost if the one before it is still in the data register, if it finds no place in `rx_q`,
or if it comes between the two reads of an interrupt: `usart_irq` reads the data register even
if it has not seen `RXNE`, and this read clears the flag.
-/

namespace Laureline

namespace Serial

variable {T : Type} {txDma : Bool}

/-- The line is no faster than the interrupts and the tasks are. -/
def Timely (s : State T) : Action T → Prop
  | .arrive _ => s.rdr = none ∧ s.isr = none
  | .irqDr => s.rdr ≠ none → s.rxQ.length < serialRxSize
  | _ => True

instance (s : State T) : ∀ a, Decidable (Timely s a)
  | .arrive _ => inferInstanceAs (Decidable (s.rdr = none ∧ s.isr = none))
  | .irqDr => inferInstanceAs (Decidable (s.rdr ≠ none → s.rxQ.length < serialRxSize))
  | .write _ _ | .task _ | .shift | .dmaMove | .usartTcie | .irq | .get => isTrue trivial

/-- The bytes that were not lost. -/
def State.kept (s : State T) : List UInt8 := s.got ++ s.rxQ ++ s.rdr.toList

/-- What was kept came in this order, and nothing else came if the line is slow enough. -/
structure Receiving (G : State T → Action T → Prop) (s : State T) : Prop where
  kept : s.kept.Sublist s.arrived
  size : s.rxQ.length ≤ serialRxSize
  all : (∀ s a, G s a → Timely s a) → s.kept = s.arrived
  /-- The flag is still as `usart_irq` has read it. -/
  isr : (∀ s a, G s a → Timely s a) → ∀ rxne txe, s.isr = some (rxne, txe) → s.rdr.isSome = rxne

namespace Receiving

variable {G : State T → Action T → Prop} {s s' : State T} {rxne txe : Bool}

theorem start : Receiving G (start T) where
  kept := List.Sublist.refl []
  size := Nat.zero_le _
  all _ := rfl
  isr _ _ _ h := absurd h (by simp [Serial.start])

/-- Only these members matter here. -/
theorem congr (h : Receiving G s) (h_rdr : s'.rdr = s.rdr) (h_rxQ : s'.rxQ = s.rxQ)
    (h_isr : s'.isr = s.isr) (h_arrived : s'.arrived = s.arrived) (h_got : s'.got = s.got) :
    Receiving G s' := by
  -- the bytes that are kept: returned, queued or in the data register
  have h_kept : s'.kept = s.kept := by rw [State.kept, State.kept, h_got, h_rxQ, h_rdr]
  constructor
  case kept =>
    rw [h_kept, h_arrived]
    exact h.kept
  case size =>
    rw [h_rxQ]
    exact h.size
  case all =>
    rw [h_kept, h_arrived]
    exact h.all
  case isr =>
    rw [h_isr, h_rdr]
    exact h.isr

theorem arrive (h : Receiving G s) (b : UInt8) (hg : G s (.arrive b)) :
    Receiving G { s with arrived := s.arrived ++ [b], rdr := s.rdr <|> some b } := by
  constructor
  case kept =>
    cases h_rdr : s.rdr with
    | none =>
      have h_kept := h.kept
      simp only [State.kept, h_rdr, Option.toList_none, List.append_nil] at h_kept
      exact h_kept.append (List.Sublist.refl [b])
    | some c =>
      -- an overrun
      have h_kept := h.kept
      simp only [State.kept, h_rdr] at h_kept
      exact h_kept.trans (List.sublist_append_left s.arrived [b])
  case size => exact h.size
  case all =>
    intro h_timely
    obtain ⟨h_rdr, -⟩ := h_timely _ _ hg
    have h_all := h.all h_timely
    simp only [State.kept, h_rdr, Option.toList_none, List.append_nil] at h_all
    show s.got ++ s.rxQ ++ (s.rdr <|> some b).toList = s.arrived ++ [b]
    rw [h_rdr, ← h_all]
    rfl
  case isr =>
    intro h_timely rxne txe h_isr
    obtain ⟨-, h_none⟩ := h_timely _ _ hg
    exact absurd (h_none.symm.trans h_isr) (by simp)

/-- What `usart_irq` does with a received byte. -/
theorem received (h : Receiving G s) (hi : s.isr = some (rxne, txe)) (hg : G s .irqDr) :
    Receiving G { s.received rxne with isr := none } := by
  have h_kept := h.kept
  unfold State.kept at h_kept
  unfold State.received
  split_ifs with h_room
  · -- the byte goes to the queue
    constructor
    case kept =>
      show (s.got ++ (s.rxQ ++ s.rdr.toList) ++ []).Sublist s.arrived
      rw [List.append_nil, ← List.append_assoc]
      exact h_kept
    case size =>
      show (s.rxQ ++ s.rdr.toList).length ≤ serialRxSize
      rw [List.length_append]
      have h_one : s.rdr.toList.length ≤ 1 := by cases s.rdr <;> simp
      have h_lt := h_room.2
      omega
    case all =>
      intro h_timely
      show s.got ++ (s.rxQ ++ s.rdr.toList) ++ [] = s.arrived
      rw [List.append_nil, ← List.append_assoc]
      exact h.all h_timely
    case isr => exact fun _ _ _ h_isr => absurd h_isr (by simp)
  · constructor
    case kept =>
      show (s.got ++ s.rxQ ++ []).Sublist s.arrived
      rw [List.append_nil]
      exact (List.sublist_append_left _ _).trans h_kept
    case size => exact h.size
    case all =>
      intro h_timely
      -- there was no byte, since there would have been a place for it
      have h_none : s.rdr = none := by
        by_contra h_some
        have h_lt := h_timely _ _ hg h_some
        have h_read := h.isr h_timely rxne txe hi
        rw [Option.isSome_iff_ne_none.mpr h_some] at h_read
        exact h_room ⟨h_read.symm, h_lt⟩
      have h_all := h.all h_timely
      rw [State.kept, h_none] at h_all
      exact h_all
    case isr => exact fun _ _ _ h_isr => absurd h_isr (by simp)

variable [DecidableEq T]

theorem step {a : Action T} (h : Receiving G s) (hg : G s a)
    (hn : (machine T txDma).next s a = some s') : Receiving G s' := by
  obtain ⟨t, -, -, h_access⟩ | h_event := cases_of_next hn
  · cases h_access <;> exact h.congr rfl rfl rfl rfl rfl
  · cases h_event with
    | write hpc => exact h.congr rfl rfl rfl rfl rfl
    | shift hb => exact h.congr rfl rfl rfl rfl rfl
    | dmaMove hd hb => exact h.congr rfl rfl rfl rfl rfl
    | usartTcie hi hc => exact h.congr rfl rfl rfl rfl rfl
    | irq hi =>
      refine ⟨h.kept, h.size, h.all, fun _ rxne txe h_isr => ?_⟩
      exact congrArg Prod.fst (Option.some.inj h_isr)
    | irqRx hi => exact h.received hi hg
    | @irqTx rxne hi =>
      have h_received := h.received hi hg
      -- the other half of the interrupt is about what is sent
      unfold State.refill
      split_ifs
      · exact h_received.congr rfl rfl rfl rfl rfl
      · split <;> exact h_received.congr rfl rfl rfl rfl rfl
    | arrive b => exact h.arrive b hg
    | @get b rxQ hi hq =>
      have h_kept : State.kept { s with rxQ, got := s.got ++ [b] } = s.kept := by
        simp [State.kept, hq]
      constructor
      case kept =>
        rw [h_kept]
        exact h.kept
      case size =>
        have h_size := h.size
        rw [hq] at h_size
        exact Nat.le_of_succ_le h_size
      case all =>
        rw [h_kept]
        exact h.all
      case isr => exact h.isr

end Receiving

/-- **What comes to the tasks.** In every run the bytes that `serial_get` returned, those in the
queue and the one in the data register are bytes that came, in their order and each of them once.
They are all that came if no byte comes while another one is in the data register or an interrupt
is being served, and the queue has a place for every byte. -/
theorem serial_input [DecidableEq T] {G : State T → Action T → Prop} {s : State T}
    (h : (machine T txDma).Reach G s) :
    (s.got ++ s.rxQ ++ s.rdr.toList).Sublist s.arrived ∧ s.rxQ.length ≤ serialRxSize ∧
      ((∀ s a, G s a → Timely s a) → s.got ++ s.rxQ ++ s.rdr.toList = s.arrived) := by
  have h_receiving : Receiving G s := h.invariant .start fun _ _ _ hr hg hn => hr.step hg hn
  exact ⟨h_receiving.kept, h_receiving.size, h_receiving.all⟩

/-- Two bytes come one after the other. -/
def twoBytes : List (Action Unit) :=
  [.arrive 1, .irq, .irqDr, .arrive 2, .irq, .irqDr, .get]

theorem serial_input_two :
    let s := (machine Unit false).after Timely twoBytes
    s.got ++ s.rxQ ++ s.rdr.toList = s.arrived ∧ s.got = [1] ∧ s.rxQ = [2] := by
  intro s
  have h_reach : (machine Unit false).Reach Timely s :=
    (machine Unit false).reach_after _ (by decide)
  exact ⟨(serial_input h_reach).2.2 fun _ _ h => h, by decide, by decide⟩

end Serial

end Laureline
