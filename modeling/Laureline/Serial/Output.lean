import Laureline.Serial.Port

/-!
# What a port sends

The messages leave the port whole and one after the other, in the order in which their tasks got
the mutex (`serial_output`). A port with a DMA stream is otherwise stuck for good after a message
of no bytes: the stream has nothing to do and does not interrupt (`serial_write_nothing`).

* `State.current` is what the task with the mutex is about to do.
* `Sending` says where the bytes of the messages are; it depends on `current` only.
* `Kept` says besides that only the task with the mutex is between taking and giving it.
-/

namespace Laureline

namespace Serial

variable {T : Type} {txDma : Bool}

/-- The next access of the task with the mutex. -/
def State.current (s : State T) : Pc :=
  match s.mutex with
  | none => .idle
  | some t => s.pc t

/-- A port that sends from its queue. -/
structure ByQueue (p : Pc) (s : State T) : Prop where
  dma : s.dma = none
  tcif : s.tcif = false
  tcieSem : s.tcieSem = false
  size : s.txQ.length ≤ serialTxSize
  /-- The interrupt is enabled, or is going to be. -/
  txeie : s.txQ ≠ [] → s.txeie = true ∨ ∃ value, p = .setTxeie value
  pc : p = .idle ∨ p = .mutexGive ∨ ∃ value, p = .queueSend value ∨ p = .setTxeie value

/-- A port that sends with its stream. -/
structure ByStream (p : Pc) (s : State T) : Prop where
  txQ : s.txQ = []
  /-- The stream is enabled until it is done and its interrupt was served. -/
  waits : p = .tcieTake →
    (s.tcieSem = false ∧ ∃ bs, s.dma = some bs ∧ (s.tcif = true → bs = [])) ∨
      (s.tcieSem = true ∧ s.dma = none ∧ s.tcif = false)
  quiet : p ≠ .tcieTake → s.dma = none ∧ s.tcif = false ∧ s.tcieSem = false
  pc : p = .idle ∨ p = .mutexGive ∨ p = .tcieTake ∨
    ∃ value, p = .dmaSetup value ∨ p = .dmaEnable value

/-- The bytes of the messages are on the line, in the data register, in the queue, or still with
the last message. -/
structure Sending (txDma : Bool) (p : Pc) (s : State T) : Prop where
  flow : s.wire ++ s.tdr.toList ++ s.txQ ++ (s.dma.getD [] ++ p.left) = s.begun.flatten
  last : (s.dma.getD [] ++ p.left) <:+ s.begun.getLastD []
  /-- Nobody else fills the data register while `usart_irq` runs. -/
  isr : txDma = false → ∀ rxne, s.isr = some (rxne, true) → s.tdr = none
  byQueue : txDma = false → ByQueue p s
  byStream : txDma = true → ByStream p s

/-- The task with the mutex is the one between taking and giving it. -/
structure Kept (txDma : Bool) (s : State T) : Prop where
  mutex : ∀ t, (s.pc t).inside = true ↔ s.mutex = some t
  sending : Sending txDma s.current s

namespace Kept

variable {s s' : State T}

theorem current_eq {t : T} (h : Kept txDma s) (ht : (s.pc t).inside = true) :
    s.current = s.pc t := by
  have h_mutex := (h.mutex t).mp ht
  simp only [State.current, h_mutex]

theorem start : Kept txDma (start T) where
  mutex t := by simp [Serial.start, Pc.inside]
  sending := {
    flow := rfl
    last := List.nil_suffix
    isr := fun _ _ _ => rfl
    byQueue := fun _ => ⟨rfl, rfl, rfl, Nat.zero_le _, fun h => absurd rfl h, .inl rfl⟩
    byStream := fun _ => ⟨rfl, fun h => absurd h (by simp [State.current, Serial.start]),
      fun _ => ⟨rfl, rfl, rfl⟩, .inl rfl⟩ }

/-- The task with the mutex goes on and keeps it. -/
theorem goto [DecidableEq T] {t : T} {p : Pc} (h : Kept txDma s) (ht : (s.pc t).inside = true)
    (hp : p.inside = true) (h_pc : s'.pc = (s.goto t p).pc) (h_mutex : s'.mutex = s.mutex)
    (h_sending : Sending txDma p s') : Kept txDma s' := by
  have h_t := (h.mutex t).mp ht
  constructor
  -- the thread keeps the mutex, and no other one has it
  · intro u
    rw [h_pc, h_mutex]
    by_cases hu : u = t
    · rw [hu, goto_self]
      exact ⟨fun _ => h_t, fun _ => hp⟩
    · rw [goto_of_ne hu]
      exact h.mutex u
  · have h_current : s'.current = p := by
      simp only [State.current, h_mutex, h_t, h_pc, goto_self]
    rw [h_current]
    exact h_sending

/-- What is no access of a task. -/
theorem event (h : Kept txDma s) (h_pc : s'.pc = s.pc) (h_mutex : s'.mutex = s.mutex)
    (h_sending : Sending txDma s.current s') : Kept txDma s' := by
  constructor
  · intro u
    rw [h_pc, h_mutex]
    exact h.mutex u
  · have h_current : s'.current = s.current := by simp only [State.current, h_mutex, h_pc]
    rw [h_current]
    exact h_sending

end Kept

/-! ### The accesses of the task with the mutex -/

namespace Sending

variable {s : State T} {p : Pc} {t : T} {value : List UInt8}

/-- The stream is enabled only while its task waits. -/
theorem dma_eq (h : Sending txDma p s) (hp : p ≠ .tcieTake) : s.dma = none := by
  cases txDma with
  | true => exact ((h.byStream rfl).quiet hp).1
  | false => exact (h.byQueue rfl).dma

variable [DecidableEq T]

/-- A message begins. -/
theorem mutexTake (h : Sending txDma .idle s) :
    Sending txDma (if txDma then .dmaSetup value else .queueSend value)
      { s.goto t (if txDma then .dmaSetup value else .queueSend value) with
        mutex := some t, begun := s.begun ++ [value] } := by
  -- the task before has left no stream running
  have h_dma := h.dma_eq (by simp)
  have h_left : (if txDma then Pc.dmaSetup value else .queueSend value).left = value := by
    cases txDma <;> rfl
  have h_flow := h.flow
  rw [h_dma] at h_flow
  constructor
  case flow =>
    -- the new message is what is left to send, and nothing of it is on its way
    show s.wire ++ s.tdr.toList ++ s.txQ ++ (s.dma.getD [] ++ _) = (s.begun ++ [value]).flatten
    rw [h_left, h_dma, List.flatten_append, ← h_flow]
    simp [Pc.left]
  case last =>
    show s.dma.getD [] ++ _ <:+ (s.begun ++ [value]).getLastD []
    rw [h_left, h_dma, List.getLastD_concat]
    exact List.suffix_rfl
  case isr => exact h.isr
  case byQueue =>
    -- the queue may still hold bytes of the message before
    rintro rfl
    obtain ⟨h1, h2, h3, h4, h5, -⟩ := h.byQueue rfl
    exact ⟨h1, h2, h3, h4, fun hq => .inl ((h5 hq).resolve_right (by simp)),
      .inr (.inr ⟨value, .inl rfl⟩)⟩
  case byStream =>
    -- the semaphore of the stream is down until the transfer ends
    rintro rfl
    obtain ⟨h1, -, h3, -⟩ := h.byStream rfl
    exact ⟨h1, fun hp => absurd hp (by simp), fun _ => h3 (by simp),
      .inr (.inr (.inr ⟨value, .inl rfl⟩))⟩

theorem dmaSetup (h : Sending txDma (.dmaSetup value) s) :
    Sending txDma (.dmaEnable value)
      { s.goto t (.dmaEnable value) with dma := none, tcif := false } := by
  have h_dma := h.dma_eq (by simp)
  have h_flow := h.flow
  have h_last := h.last
  rw [h_dma] at h_flow h_last
  refine ⟨h_flow, h_last, h.isr, fun h_queue => ?_, fun h_stream => ?_⟩
  · exact absurd (h.byQueue h_queue).pc (by simp)
  · obtain ⟨h1, -, h3, -⟩ := h.byStream h_stream
    have h_quiet := h3 (by simp)
    exact ⟨h1, fun hp => absurd hp (by simp), fun _ => ⟨rfl, rfl, h_quiet.2.2⟩,
      .inr (.inr (.inr ⟨value, .inr rfl⟩))⟩

/-- The rest of the message is handed to the stream. -/
theorem dmaEnable (h : Sending txDma (.dmaEnable value) s) :
    Sending txDma .tcieTake { s.goto t .tcieTake with dma := some value } := by
  have h_dma := h.dma_eq (by simp)
  have h_flow := h.flow
  have h_last := h.last
  rw [h_dma] at h_flow h_last
  refine ⟨?_, ?_, h.isr, fun h_queue => ?_, fun h_stream => ?_⟩
  · show s.wire ++ s.tdr.toList ++ s.txQ ++ (value ++ []) = s.begun.flatten
    rw [List.append_nil]
    exact h_flow
  · show value ++ [] <:+ s.begun.getLastD []
    rw [List.append_nil]
    exact h_last
  · exact absurd (h.byQueue h_queue).pc (by simp)
  -- the flag and the semaphore are down, so the task waits for this transfer
  · obtain ⟨h1, -, h3, -⟩ := h.byStream h_stream
    obtain ⟨-, h_tcif, h_sem⟩ := h3 (by simp)
    exact ⟨h1,
      fun _ => .inl ⟨h_sem, value, rfl, fun h_c => absurd (h_tcif.symm.trans h_c) (by simp)⟩,
      fun hp => absurd rfl hp, .inr (.inr (.inl rfl))⟩

/-- The stream is done. -/
theorem tcieTake (h : Sending txDma .tcieTake s) (hs : s.tcieSem = true) :
    Sending txDma .mutexGive { s.goto t .mutexGive with tcieSem := false } := by
  refine ⟨h.flow, h.last, h.isr, fun h_queue => ?_, fun h_stream => ?_⟩
  · exact absurd (h.byQueue h_queue).pc (by simp)
  · obtain ⟨h1, h2, -, -⟩ := h.byStream h_stream
    -- the semaphore is up only after the end of the transfer
    obtain ⟨h_sem, -⟩ | ⟨-, h_dma, h_tcif⟩ := h2 rfl
    · exact absurd (h_sem.symm.trans hs) (by simp)
    · exact ⟨h1, fun hp => absurd hp (by simp), fun _ => ⟨h_dma, h_tcif, rfl⟩, .inr (.inl rfl)⟩

theorem sent (h : Sending txDma (.queueSend []) s) :
    Sending txDma .mutexGive (s.goto t .mutexGive) := by
  refine ⟨h.flow, h.last, h.isr, fun h_queue => ?_, fun h_stream => ?_⟩
  · obtain ⟨h1, h2, h3, h4, h5, -⟩ := h.byQueue h_queue
    exact ⟨h1, h2, h3, h4, fun hq => .inl ((h5 hq).resolve_right (by simp)), .inr (.inl rfl)⟩
  · exact absurd (h.byStream h_stream).pc (by simp)

/-- A byte goes to the queue. -/
theorem queueSend {b : UInt8} (h : Sending txDma (.queueSend (b :: value)) s)
    (hq : s.txQ.length < serialTxSize) :
    Sending txDma (.setTxeie value)
      { s.goto t (.setTxeie value) with txQ := s.txQ ++ [b] } := by
  have h_dma := h.dma_eq (by simp)
  have h_flow := h.flow
  have h_last := h.last
  rw [h_dma] at h_flow h_last
  refine ⟨?_, ?_, h.isr, fun h_queue => ?_, fun h_stream => ?_⟩
  · show s.wire ++ s.tdr.toList ++ (s.txQ ++ [b]) ++ (s.dma.getD [] ++ value) = s.begun.flatten
    rw [← h_flow, h_dma]
    simp [Pc.left]
  · show s.dma.getD [] ++ value <:+ s.begun.getLastD []
    rw [h_dma]
    exact (List.suffix_cons b value).trans h_last
  -- the queue is not empty, and TXEIE is set next
  · obtain ⟨h1, h2, h3, -, -, -⟩ := h.byQueue h_queue
    refine ⟨h1, h2, h3, ?_, fun _ => .inr ⟨value, rfl⟩, .inr (.inr ⟨value, .inr rfl⟩)⟩
    show (s.txQ ++ [b]).length ≤ serialTxSize
    rw [List.length_append]
    exact hq
  · exact absurd (h.byStream h_stream).pc (by simp)

theorem setTxeie (h : Sending txDma (.setTxeie value) s) :
    Sending txDma (.queueSend value) { s.goto t (.queueSend value) with txeie := true } := by
  refine ⟨h.flow, h.last, h.isr, fun h_queue => ?_, fun h_stream => ?_⟩
  · obtain ⟨h1, h2, h3, h4, -, -⟩ := h.byQueue h_queue
    exact ⟨h1, h2, h3, h4, fun _ => .inl rfl, .inr (.inr ⟨value, .inl rfl⟩)⟩
  · exact absurd (h.byStream h_stream).pc (by simp)

theorem mutexGive (h : Sending txDma .mutexGive s) :
    Sending txDma .idle { s.goto t .idle with mutex := none } := by
  refine ⟨h.flow, h.last, h.isr, fun h_queue => ?_, fun h_stream => ?_⟩
  · obtain ⟨h1, h2, h3, h4, h5, -⟩ := h.byQueue h_queue
    exact ⟨h1, h2, h3, h4, fun hq => .inl ((h5 hq).resolve_right (by simp)), .inl rfl⟩
  · obtain ⟨h1, -, h3, -⟩ := h.byStream h_stream
    exact ⟨h1, fun hp => absurd hp (by simp), fun _ => h3 (by simp), .inl rfl⟩

/-! ### The interrupts and the hardware -/

omit [DecidableEq T]

theorem shift {b : UInt8} (h : Sending txDma p s) (hb : s.tdr = some b) :
    Sending txDma p { s with tdr := none, wire := s.wire ++ [b] } := by
  have h_flow := h.flow
  rw [hb] at h_flow
  refine ⟨?_, h.last, fun _ _ _ => rfl, fun h_queue => ?_, fun h_stream => ?_⟩
  · rw [← h_flow]
    simp
  · obtain ⟨h1, h2, h3, h4, h5, h6⟩ := h.byQueue h_queue
    exact ⟨h1, h2, h3, h4, h5, h6⟩
  · obtain ⟨h1, h2, h3, h4⟩ := h.byStream h_stream
    exact ⟨h1, h2, h3, h4⟩

theorem dmaMove {b : UInt8} {bs : List UInt8} (h : Sending txDma p s)
    (hd : s.dma = some (b :: bs)) (hb : s.tdr = none) :
    Sending txDma p { s with tdr := some b, dma := some bs, tcif := bs.isEmpty } := by
  -- only a port with a stream gets here, and its queue is empty
  have h_stream : txDma = true := by
    cases txDma with
    | true => rfl
    | false => exact absurd ((h.byQueue rfl).dma.symm.trans hd) (by simp)
  have h_wait : p = .tcieTake := by
    by_contra hp
    exact absurd ((h.dma_eq hp).symm.trans hd) (by simp)
  obtain ⟨h1, h2, -, h4⟩ := h.byStream h_stream
  have h_flow := h.flow
  have h_last := h.last
  rw [hd] at h_flow h_last
  rw [hb, h1] at h_flow
  refine ⟨?_, ?_, fun h_queue => absurd (h_stream.symm.trans h_queue) (by simp),
    fun h_queue => absurd (h_stream.symm.trans h_queue) (by simp), fun _ => ⟨h1, fun hp => ?_,
      fun hp => absurd h_wait hp, h4⟩⟩
  · show s.wire ++ [b] ++ s.txQ ++ (bs ++ p.left) = s.begun.flatten
    rw [← h_flow, h1]
    simp
  · exact (List.suffix_cons b (bs ++ p.left)).trans h_last
  · obtain ⟨h_sem, -⟩ | ⟨-, h_dma, -⟩ := h2 hp
    · exact .inl ⟨h_sem, bs, rfl, List.isEmpty_iff.mp⟩
    · exact absurd (h_dma.symm.trans hd) (by simp)

theorem usartTcie (h : Sending txDma p s) (hc : s.tcif = true) :
    Sending txDma p { s with tcif := false, dma := none, tcieSem := true } := by
  have h_stream : txDma = true := by
    cases txDma with
    | true => rfl
    | false => exact absurd ((h.byQueue rfl).tcif.symm.trans hc) (by simp)
  obtain ⟨h1, h2, h3, h4⟩ := h.byStream h_stream
  have h_wait : p = .tcieTake := by
    by_contra hp
    exact absurd ((h3 hp).2.1.symm.trans hc) (by simp)
  obtain ⟨-, bs, h_dma, h_done⟩ | ⟨-, -, h_tcif⟩ := h2 h_wait
  · -- the stream has sent everything
    have h_flow := h.flow
    have h_last := h.last
    rw [h_dma, h_done hc] at h_flow h_last
    exact ⟨h_flow, h_last, h.isr,
      fun h_queue => absurd (h_stream.symm.trans h_queue) (by simp),
      fun _ => ⟨h1, fun _ => .inr ⟨rfl, rfl, rfl⟩, fun hp => absurd h_wait hp, h4⟩⟩
  · exact absurd (h_tcif.symm.trans hc) (by simp)

/-- Only these members matter here. -/
theorem congr {s' : State T} (h : Sending txDma p s) (h_wire : s'.wire = s.wire)
    (h_tdr : s'.tdr = s.tdr) (h_txQ : s'.txQ = s.txQ) (h_dma : s'.dma = s.dma)
    (h_begun : s'.begun = s.begun) (h_isr : s'.isr = s.isr) (h_tcif : s'.tcif = s.tcif)
    (h_sem : s'.tcieSem = s.tcieSem) (h_txeie : s'.txeie = s.txeie) : Sending txDma p s' := by
  obtain ⟨h1, h2, h3, h4, h5⟩ := h
  refine ⟨?_, ?_, ?_, fun h_queue => ?_, fun h_stream => ?_⟩
  · rwa [h_wire, h_tdr, h_txQ, h_dma, h_begun]
  · rwa [h_dma, h_begun]
  · rwa [h_isr, h_tdr]
  · obtain ⟨q1, q2, q3, q4, q5, q6⟩ := h4 h_queue
    exact ⟨h_dma ▸ q1, h_tcif ▸ q2, h_sem ▸ q3, h_txQ ▸ q4, h_txQ ▸ h_txeie ▸ q5, q6⟩
  · obtain ⟨q1, q2, q3, q4⟩ := h5 h_stream
    exact ⟨h_txQ ▸ q1, h_dma ▸ h_tcif ▸ h_sem ▸ q2, h_dma ▸ h_tcif ▸ h_sem ▸ q3, q4⟩

theorem received (h : Sending txDma p s) (rxne : Bool) : Sending txDma p (s.received rxne) := by
  unfold State.received
  split_ifs <;> exact h.congr rfl rfl rfl rfl rfl rfl rfl rfl rfl

/-- `usart_irq` changes nothing else of what is sent. -/
theorem isr_of {i : Option (Bool × Bool)} (h : Sending txDma p s)
    (hi : ∀ rxne, i = some (rxne, true) → s.tdr = none) :
    Sending txDma p { s with isr := i } := by
  refine ⟨h.flow, h.last, fun _ => hi, fun h_queue => ?_, fun h_stream => ?_⟩
  · obtain ⟨h1, h2, h3, h4, h5, h6⟩ := h.byQueue h_queue
    exact ⟨h1, h2, h3, h4, h5, h6⟩
  · obtain ⟨h1, h2, h3, h4⟩ := h.byStream h_stream
    exact ⟨h1, h2, h3, h4⟩

theorem refill {rxne : Bool} (h : Sending txDma p s) (hi : s.isr = some (rxne, true)) :
    Sending txDma p { s.refill txDma with isr := none } := by
  cases txDma with
  | true =>
    -- with a stream the interrupt sends nothing
    obtain ⟨h1, h2, h3, h4⟩ := h.byStream rfl
    exact ⟨h.flow, h.last, fun h_queue => absurd h_queue (by simp),
      fun h_queue => absurd h_queue (by simp), fun _ => ⟨h1, h2, h3, h4⟩⟩
  | false =>
    -- TXE was read as set, and nothing has filled the data register since
    have h_tdr := h.isr rfl rxne hi
    have h_flow := h.flow
    rw [h_tdr] at h_flow
    obtain ⟨h1, h2, h3, h4, h5, h6⟩ := h.byQueue rfl
    cases hq : s.txQ with
    | nil =>
      -- an empty queue: the interrupt turns itself off, and no byte waits
      have h_refill : s.refill false = { s with txeie := false } := by simp [State.refill, hq]
      rw [h_refill]
      refine ⟨h.flow, h.last, fun _ _ h_isr => absurd h_isr (by simp), fun _ => ?_,
        fun h_stream => absurd h_stream (by simp)⟩
      exact ⟨h1, h2, h3, h4, fun h_ne => absurd hq h_ne, h6⟩
    | cons b txQ =>
      -- the oldest byte of the queue moves to the data register
      have h_refill : s.refill false = { s with tdr := some b, txQ } := by simp [State.refill, hq]
      rw [h_refill]
      rw [hq] at h_flow h4 h5
      refine ⟨?_, h.last, fun _ _ h_isr => absurd h_isr (by simp), fun _ => ?_,
        fun h_stream => absurd h_stream (by simp)⟩
      · show s.wire ++ [b] ++ txQ ++ _ = s.begun.flatten
        rw [← h_flow]
        simp
      · exact ⟨h1, h2, h3, Nat.le_trans (Nat.le_succ _) h4, fun _ => h5 (by simp), h6⟩

end Sending

/-! ### Runs -/

section Runs

variable [DecidableEq T] {s s' : State T} {a : Action T}

theorem Kept.access {t : T} (h : Kept txDma s) (h_access : Access txDma t s s') :
    Kept txDma s' := by
  have h_sending := h.sending
  cases h_access with
  | @mutexTake value hpc hm =>
    -- the mutex is free, so the port is where the last message has left it
    have h_current : s.current = .idle := by simp only [State.current, hm]
    rw [h_current] at h_sending
    have h_inside : (if txDma then Pc.dmaSetup value else .queueSend value).inside = true := by
      cases txDma <;> rfl
    -- the task is now the only one inside
    constructor
    · intro u
      by_cases hu : u = t
      · rw [hu]
        show ((s.goto t _).pc t).inside = true ↔ some t = some t
        rw [goto_self]
        exact ⟨fun _ => rfl, fun _ => h_inside⟩
      · show ((s.goto t _).pc u).inside = true ↔ some t = some u
        rw [goto_of_ne hu, h.mutex u, hm]
        simpa using Ne.symm hu
    · show Sending txDma ((s.goto t _).pc t) _
      rw [goto_self]
      exact h_sending.mutexTake
  | mutexGive hpc =>
    have h_inside : (s.pc t).inside = true := by rw [hpc]; rfl
    -- the task holds the mutex, so what is sent is what it has left
    have h_t := (h.mutex t).mp h_inside
    rw [h.current_eq h_inside, hpc] at h_sending
    -- no task is inside any more
    constructor
    · intro u
      show ((s.goto t _).pc u).inside = true ↔ none = some u
      by_cases hu : u = t
      · rw [hu, goto_self]
        simp [Pc.inside]
      · rw [goto_of_ne hu, h.mutex u, h_t]
        simpa using Ne.symm hu
    · exact h_sending.mutexGive
  | dmaSetup hpc =>
    -- from here on the holder goes on within its call: no other task moves
    have h_inside : (s.pc t).inside = true := by rw [hpc]; rfl
    rw [h.current_eq h_inside, hpc] at h_sending
    exact h.goto h_inside rfl rfl rfl h_sending.dmaSetup
  | dmaEnable hpc =>
    have h_inside : (s.pc t).inside = true := by rw [hpc]; rfl
    rw [h.current_eq h_inside, hpc] at h_sending
    exact h.goto h_inside rfl rfl rfl h_sending.dmaEnable
  | tcieTake hpc hs =>
    have h_inside : (s.pc t).inside = true := by rw [hpc]; rfl
    rw [h.current_eq h_inside, hpc] at h_sending
    exact h.goto h_inside rfl rfl rfl (h_sending.tcieTake hs)
  | sent hpc =>
    have h_inside : (s.pc t).inside = true := by rw [hpc]; rfl
    rw [h.current_eq h_inside, hpc] at h_sending
    exact h.goto h_inside rfl rfl rfl h_sending.sent
  | queueSend hpc hq =>
    have h_inside : (s.pc t).inside = true := by rw [hpc]; rfl
    rw [h.current_eq h_inside, hpc] at h_sending
    exact h.goto h_inside rfl rfl rfl (h_sending.queueSend hq)
  | setTxeie hpc =>
    have h_inside : (s.pc t).inside = true := by rw [hpc]; rfl
    rw [h.current_eq h_inside, hpc] at h_sending
    exact h.goto h_inside rfl rfl rfl h_sending.setTxeie

theorem Kept.call {t : T} {value : List UInt8} (h : Kept txDma s) (hpc : s.pc t = .idle) :
    Kept txDma (s.goto t (.mutexTake value)) := by
  -- a task that is outside does not hold the mutex
  have h_t : s.mutex ≠ some t := fun h_t => by
    have h_inside := (h.mutex t).mpr h_t
    rw [hpc] at h_inside
    exact absurd h_inside (by simp [Pc.inside])
  constructor
  · intro u
    by_cases hu : u = t
    · rw [hu, goto_self]
      exact ⟨fun h_in => absurd h_in (by simp [Pc.inside]), fun h_mutex => absurd h_mutex h_t⟩
    · rw [goto_of_ne hu]
      exact h.mutex u
  -- so what is sent is left to the holder
  · have h_current : (s.goto t (.mutexTake value)).current = s.current := by
      cases hm : s.mutex with
      | none => simp only [State.current, State.goto, hm]
      | some u =>
        have hu : u ≠ t := fun hu => h_t (by rw [hm, hu])
        show State.current _ = _
        simp only [State.current, State.goto, hm, Function.update_of_ne hu]
    rw [h_current]
    exact h.sending.congr rfl rfl rfl rfl rfl rfl rfl rfl rfl

theorem Kept.step (h : Kept txDma s) (hn : (machine T txDma).next s a = some s') :
    Kept txDma s' := by
  obtain ⟨t, -, -, h_access⟩ | h_event := cases_of_next hn
  · exact h.access h_access
  -- what happens besides the tasks moves bytes on, and changes neither mutex nor places
  · cases h_event with
    | write hpc => exact h.call hpc
    | shift hb => exact h.event rfl rfl (h.sending.shift hb)
    | dmaMove hd hb => exact h.event rfl rfl (h.sending.dmaMove hd hb)
    | usartTcie hi hc => exact h.event rfl rfl (h.sending.usartTcie hc)
    | irq hi =>
      refine h.event rfl rfl (h.sending.isr_of fun rxne h_read => ?_)
      exact Option.isNone_iff_eq_none.mp (congrArg Prod.snd (Option.some.inj h_read))
    | @irqRx rxne hi =>
      obtain ⟨h_pc, h_mutex, -⟩ := received_tasks s rxne
      refine h.event h_pc h_mutex ((h.sending.received rxne).isr_of fun _ h_none => ?_)
      exact absurd h_none (by simp)
    | @irqTx rxne hi =>
      obtain ⟨h_pc, h_mutex, h_isr⟩ := received_tasks s rxne
      obtain ⟨h_pc', h_mutex'⟩ := refill_tasks (s.received rxne) txDma
      exact h.event (h_pc'.trans h_pc) (h_mutex'.trans h_mutex)
        ((h.sending.received rxne).refill (h_isr.trans hi))
    | arrive b => exact h.event rfl rfl (h.sending.congr rfl rfl rfl rfl rfl rfl rfl rfl rfl)
    | get hi hq => exact h.event rfl rfl (h.sending.congr rfl rfl rfl rfl rfl rfl rfl rfl rfl)

theorem Kept.of_reach {G : State T → Action T → Prop} (h : (machine T txDma).Reach G s) :
    Kept txDma s :=
  h.invariant .start fun _ _ _ hk _ hn => hk.step hn

/-- **What leaves a port.** Whatever the tasks, the interrupts and the hardware do in between,
the bytes that were sent, and those that are in the data register and in the queue, are those of
the messages in the order in which the mutex was taken, none left out and none twice; only the end
of the last message may be missing, and only while its task has the mutex. What is in the queue
goes on: the interrupt is enabled, or the task that has the mutex is about to enable it. -/
theorem serial_output {G : State T → Action T → Prop} (h : (machine T txDma).Reach G s) :
    (∃ left, s.wire ++ s.tdr.toList ++ s.txQ ++ left = s.begun.flatten ∧
      left <:+ s.begun.getLastD [] ∧ (s.mutex = none → left = [])) ∧
    (∀ t, (s.pc t).inside = true ↔ s.mutex = some t) ∧
    (txDma = true → s.txQ = []) ∧ s.txQ.length ≤ serialTxSize ∧
    (s.txQ ≠ [] → s.txeie = true ∨ ∃ t value, s.mutex = some t ∧ s.pc t = .setTxeie value) := by
  have h_kept := Kept.of_reach h
  obtain ⟨h_flow, h_last, -, h_queue, h_stream⟩ := h_kept.sending
  refine ⟨⟨_, h_flow, h_last, fun h_free => ?_⟩, h_kept.mutex, fun h_dma => (h_stream h_dma).txQ,
    ?_, fun h_ne => ?_⟩
  · have h_current : s.current = .idle := by simp only [State.current, h_free]
    have h_dma := h_kept.sending.dma_eq (by rw [h_current]; simp)
    rw [h_dma, h_current]
    rfl
  · cases txDma with
    | true =>
      rw [(h_stream rfl).txQ]
      exact Nat.zero_le _
    | false => exact (h_queue rfl).size
  · cases txDma with
    | true => exact absurd (h_stream rfl).txQ h_ne
    | false =>
      refine ((h_queue rfl).txeie h_ne).imp_right fun ⟨value, h_pc⟩ => ?_
      -- the port is not free, since a free port is about to do nothing
      cases h_mutex : s.mutex with
      | none => exact absurd h_pc (by simp [State.current, h_mutex])
      | some t => exact ⟨t, value, rfl, by simpa only [State.current, h_mutex] using h_pc⟩

/-! ### A message of no bytes -/

/-- The task waits for a stream that has nothing to do, or is about to. -/
structure Stuck (t : T) (s : State T) : Prop where
  mutex : s.mutex = some t
  pc : s.pc t = .dmaSetup [] ∨ s.pc t = .dmaEnable [] ∨ s.pc t = .tcieTake
  dma : s.dma.getD [] = []
  tcif : s.tcif = false
  tcieSem : s.tcieSem = false

theorem Stuck.step {t : T} (h : Stuck t s) (h_kept : Kept true s)
    (hn : (machine T true).next s a = some s') : Stuck t s' ∧ s'.begun = s.begun := by
  obtain ⟨h_mutex, h_pc, h_dma, h_tcif, h_sem⟩ := h
  obtain ⟨u, -, -, h_access⟩ | h_event := cases_of_next hn
  · by_cases hu : u = t
    · -- its own task goes on until it waits
      rw [hu] at h_access
      cases h_access with
      | dmaSetup hpc =>
        obtain rfl : _ = [] := by simpa [hpc] using h_pc
        exact ⟨⟨h_mutex, .inr (.inl (goto_self ..)), rfl, rfl, h_sem⟩, rfl⟩
      | dmaEnable hpc =>
        obtain rfl : _ = [] := by simpa [hpc] using h_pc
        exact ⟨⟨h_mutex, .inr (.inr (goto_self ..)), rfl, h_tcif, h_sem⟩, rfl⟩
      | tcieTake hpc hs => exact absurd (h_sem.symm.trans hs) (by simp)
      | mutexTake hpc hm => exact absurd (h_mutex.symm.trans hm) (by simp)
      | sent hpc | queueSend hpc | setTxeie hpc | mutexGive hpc => simp [hpc] at h_pc
    · -- another task has no access without the mutex
      have h_outside : (s.pc u).inside = false := by
        rw [Bool.eq_false_iff]
        intro h_inside
        rw [h_kept.mutex u, h_mutex] at h_inside
        exact hu (Option.some.inj h_inside).symm
      cases h_access with
      | mutexTake hpc hm => exact absurd (h_mutex.symm.trans hm) (by simp)
      | dmaSetup hpc | dmaEnable hpc | tcieTake hpc | sent hpc | queueSend hpc | setTxeie hpc
      | mutexGive hpc => simp [hpc, Pc.inside] at h_outside
  · cases h_event with
    | @write u value hpc =>
      have hu : t ≠ u := by
        rintro rfl
        simp [hpc] at h_pc
      refine ⟨⟨h_mutex, ?_, h_dma, h_tcif, h_sem⟩, rfl⟩
      rwa [goto_of_ne hu]
    | shift hb => exact ⟨⟨h_mutex, h_pc, h_dma, h_tcif, h_sem⟩, rfl⟩
    | dmaMove hd hb => exact absurd h_dma (by simp [hd])
    | usartTcie hi hc => exact absurd (h_tcif.symm.trans hc) (by simp)
    | irq hi => exact ⟨⟨h_mutex, h_pc, h_dma, h_tcif, h_sem⟩, rfl⟩
    | @irqRx rxne hi =>
      unfold State.received
      split_ifs <;> exact ⟨⟨h_mutex, h_pc, h_dma, h_tcif, h_sem⟩, rfl⟩
    | @irqTx rxne hi =>
      unfold State.received
      split_ifs <;> exact ⟨⟨h_mutex, h_pc, h_dma, h_tcif, h_sem⟩, rfl⟩
    | arrive b => exact ⟨⟨h_mutex, h_pc, h_dma, h_tcif, h_sem⟩, rfl⟩
    | get hi hq => exact ⟨⟨h_mutex, h_pc, h_dma, h_tcif, h_sem⟩, rfl⟩

/-- **Messages of no bytes** on a port with a stream. From the moment that such a call has the
mutex, it never returns, and no message of another call begins. -/
theorem serial_write_nothing {G : State T → Action T → Prop} {t : T} {s₁ : State T}
    {as : List (Action T)} (h : (machine T true).Reach G s) (ht : s.pc t = .mutexTake [])
    (hn : (machine T true).next s (.task t) = some s₁)
    (h_path : (machine T true).Path G s₁ as s') :
    s'.mutex = some t ∧ (s'.pc t).inside = true ∧ s'.begun = s.begun ++ [[]] := by
  have h_kept := Kept.of_reach h
  have h_stuck : Stuck t s₁ ∧ s₁.begun = s.begun ++ [[]] := by
    obtain ⟨u, hu, -, h_access⟩ | h_event := cases_of_next hn
    · obtain rfl := (Action.task.inj hu).symm
      cases h_access with
      | @mutexTake value hpc hm =>
        obtain rfl : [] = value := Pc.mutexTake.inj (ht.symm.trans hpc)
        -- nothing is under way while the port is free
        have h_current : s.current = .idle := by simp only [State.current, hm]
        have h_sending := h_kept.sending
        rw [h_current] at h_sending
        obtain ⟨h_dma, h_tcif, h_sem⟩ := (h_sending.byStream rfl).quiet (by simp)
        exact ⟨⟨rfl, .inl (goto_self ..), congrArg (Option.getD · []) h_dma, h_tcif, h_sem⟩, rfl⟩
      | dmaSetup hpc | dmaEnable hpc | tcieTake hpc | sent hpc | queueSend hpc | setTxeie hpc
      | mutexGive hpc => exact absurd (ht.symm.trans hpc) (by simp)
    · cases h_event
  have h_kept₁ : Kept true s₁ := h_kept.step hn
  have h_run : Kept true s' ∧ Stuck t s' ∧ s'.begun = s.begun ++ [[]] :=
    h_path.invariant (I := fun s' => Kept true s' ∧ Stuck t s' ∧ s'.begun = s.begun ++ [[]])
      (fun _ _ _ ⟨hk, hs, hb⟩ _ hn => by
        obtain ⟨hs', hb'⟩ := hs.step hk hn
        exact ⟨hk.step hn, hs', hb'.trans hb⟩) ⟨h_kept₁, h_stuck⟩
  exact ⟨h_run.2.1.mutex, (h_run.1.mutex t).mpr h_run.2.1.mutex, h_run.2.2⟩

end Runs

/-! ### Two tasks -/

/-- Two tasks write at the same time, one of them the byte 1 and the other one 2 and 3. -/
def twoWrites : List (Action Bool) :=
  [.write true [1], .write false [2, 3]] ++ List.replicate 3 (.task false) ++
    [.irq, .irqDr, .shift] ++ List.replicate 4 (.task false) ++ List.replicate 2 (.task true) ++
    [.irq, .irqDr]

theorem serial_output_two :
    let s := (machine Bool false).after (fun _ _ => True) twoWrites
    (∃ left, s.wire ++ s.tdr.toList ++ s.txQ ++ left = s.begun.flatten ∧
      left <:+ s.begun.getLastD [] ∧ (s.mutex = none → left = [])) ∧
    s.begun = [[2, 3], [1]] ∧ s.txQ = [1] := by
  intro s
  have h_reach : (machine Bool false).Reach (fun _ _ => True) s :=
    (machine Bool false).reach_after _ (by decide)
  exact ⟨(serial_output h_reach).1, by decide, by decide⟩

theorem serial_write_nothing_bool :
    let s := (machine Bool true).after (fun _ _ => True) [.write true [], .write false [1]]
    ∀ s₁, (machine Bool true).next s (.task true) = some s₁ →
      ∀ as s', (machine Bool true).Path (fun _ _ => True) s₁ as s' → s'.mutex = some true := by
  intro s s₁ hn as s' h_path
  have h_reach : (machine Bool true).Reach (fun _ _ => True) s :=
    (machine Bool true).reach_after _ (by decide)
  exact (serial_write_nothing h_reach (by decide) hn h_path).1

end Serial

end Laureline
