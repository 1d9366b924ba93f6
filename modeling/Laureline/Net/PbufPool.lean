import Laureline.Mac.Transmit

/-!
# The pool of receive buffers

`ethernetif_input` of `tcpip.c` takes a buffer of the pool for a received frame. `ntp_recv` sends
its reply in the same buffer, so that a reference stays in the transmit ring until
`maczero_housekeeping` releases it, and this is called by the next transmission only.

The pool belongs to lwIP, of which only the documentation is at hand (`Pbufs`). Every other
receiver frees its buffer before it returns, and what else is sent is not in the pool; the
addresses below `PBUF_POOL_SIZE` stand for the pool's buffers.

* `never_blocked` — reception is never blocked, if some other buffer is in the pool whenever a
  reply gets a descriptor;
* `Blocked.stays` — once it is blocked, nothing but a transmission changes that.
-/

namespace Laureline

namespace Net

open Mac

/-- `PBUF_POOL_SIZE`. -/
def pbufPoolSize : ℕ := 4

/-- `PBUF_POOL_BUFSIZE`. -/
def pbufPoolBufsize : ℕ := 128 + 60 + (14 + 2)

/-- A buffer of the pool, by its address. -/
abbrev Buf := Fin pbufPoolSize

/-- The pool buffers of lwIP, with what is documented of them. -/
structure Pbufs where
  Pool : Type
  /-- After `lwip_init`. -/
  start : Pool
  /-- The buffer may be allocated. -/
  isFree : Pool → Buf → Bool
  ref : Pool → Buf → ℕ
  /-- `pbuf_alloc(PBUF_RAW, len, PBUF_POOL)`, with the first buffer of the chain. -/
  pbufAlloc : Pool → ℕ → Option (Buf × Pool)
  pbufRef : Pool → Buf → Pool
  /-- `pbuf_free`, which goes on with the rest of a chain. -/
  pbufFree : Pool → Buf → Pool
  /-- `pbuf_realloc` to a length that fits in the first buffer. -/
  pbufRealloc : Pool → Buf → Pool
  start_isFree : ∀ b, isFree start b = true
  ref_of_pbufAlloc : ∀ {m len b m'}, pbufAlloc m len = some (b, m') → ref m' b = 1
  /-- A frame that fits in one buffer gets one. -/
  pbufAlloc_isSome : ∀ {m len b}, len ≤ pbufPoolBufsize → isFree m b = true →
    (pbufAlloc m len).isSome = true
  isFree_pbufRef : ∀ {m b} r, isFree m b = true → isFree (pbufRef m r) b = true
  ref_pbufRef : ∀ {m b r}, b ≠ r → ref (pbufRef m r) b = ref m b
  isFree_pbufFree : ∀ {m b} r, isFree m b = true → isFree (pbufFree m r) b = true
  /-- The last reference is given up. -/
  pbufFree_last : ∀ {m b}, ref m b = 1 → isFree (pbufFree m b) b = true
  ref_pbufFree : ∀ {m b} r, ref m b = 1 →
    ref (pbufFree m r) b = 1 ∨ isFree (pbufFree m r) b = true
  isFree_pbufRealloc : ∀ {m b} r, isFree m b = true → isFree (pbufRealloc m r) b = true
  ref_pbufRealloc : ∀ {m b} r, ref m b = 1 →
    ref (pbufRealloc m r) b = 1 ∨ isFree (pbufRealloc m r) b = true

/-- The interface, with the thread that serves it. -/
structure Netif (P : Pbufs) where
  tx : State
  pool : P.Pool
  /-- The frame that `ethernetif_input` has given to the stack. -/
  hand : Option Buf
  /-- `udp_reply` was called for it. -/
  replying : Bool

/-- What the network thread, the driver and the DMA do. -/
inductive Event
  /-- `ethernetif_input` with a valid frame. -/
  | input (len : ℕ)
  /-- `ntp_recv` calls `udp_reply`. -/
  | reply (payload len : ℕ)
  /-- `pbuf_free(p)`, at the end of `ntp_recv` or of any other receiver. -/
  | free
  /-- Another frame is sent. -/
  | send (p : Seg) (rest : List Seg)
  | giveUp
  | driver
  | dma
deriving DecidableEq, Repr

/-- No call of `maczero_transmit` is in progress. -/
def isReturned : Pc → Bool
  | .returned _ => true
  | _ => false

namespace Netif

variable {P : Pbufs} (s : Netif P)

/-- The thread may call `ethernetif_input`. -/
def Idle : Prop := s.hand = none ∧ isReturned s.tx.pc = true

instance : Decidable s.Idle := inferInstanceAs (Decidable (_ ∧ _))

/-- An operation of lwIP on the pbuf at an address. -/
def onBuf (f : P.Pool → Buf → P.Pool) (addr : ℕ) : P.Pool :=
  if h : addr < pbufPoolSize then f s.pool ⟨addr, h⟩ else s.pool

/-- What the next access of the driver does to the pool. -/
def driverPool : P.Pool :=
  match s.tx.pc with
  | .pbufFree d =>
    match (s.tx.desc d).pbuf with
    | some r => s.onBuf P.pbufFree r
    | none => s.pool
  | .pbufRef _ => s.onBuf P.pbufRef s.tx.call.p.addr
  | _ => s.pool

/-- The successor under an event. -/
def next : Event → Option (Netif P)
  | .input len =>
    if s.Idle then
      match P.pbufAlloc s.pool len with
      | some (b, pool) => some { s with pool, hand := some b, replying := false }
      -- the frame is dropped
      | none => some s
    else none
  | .reply payload len =>
    match s.hand with
    | some b =>
      if s.replying = false ∧ isReturned s.tx.pc = true then
        -- the reply is no longer than 72 bytes, a request in several buffers is cut to it
        some { s with
          tx := s.tx.transmit ⟨b, payload, len⟩ []
          pool := P.pbufRealloc s.pool b
          replying := true }
      else none
    | none => none
  | .free =>
    match s.hand with
    | some b =>
      if isReturned s.tx.pc = true then
        some { s with pool := P.pbufFree s.pool b, hand := none, replying := false }
      else none
    | none => none
  | .send p rest =>
    if s.replying = false ∧ pbufPoolSize ≤ p.addr then
      (s.tx.next (.transmit p rest)).map fun tx => { s with tx }
    else none
  | .giveUp => (s.tx.next .giveUp).map fun tx => { s with tx }
  | .driver => s.tx.driver.map fun tx => { s with tx, pool := s.driverPool }
  | .dma => (s.tx.next .dma).map fun tx => { s with tx }

end Netif

/-- The receive and the transmit path, with the DMA. -/
def netif (P : Pbufs) : Machine (Netif P) Event where
  init :=
    { tx := start
      pool := P.start
      hand := none
      replying := false }
  next := Netif.next

variable {P : Pbufs} {s s' : Netif P}

/-- Reception is blocked: no frame gets a buffer, because descriptors hold them all that the DMA
is done with. -/
structure Blocked (s : Netif P) : Prop where
  idle : s.Idle
  released : ∀ d, (s.tx.desc d).des0.own = false
  starved : ∀ len, P.pbufAlloc s.pool len = none
  held : ∀ b : Buf, ∃ d, (s.tx.desc d).held = true ∧ (s.tx.desc d).pbuf = some b.val

/-- Some other buffer is in the pool when a reply gets a descriptor. -/
def Spare (s : Netif P) (e : Event) : Prop :=
  e = .driver → s.replying = true → s.tx.pc = .ownTest → s.tx.ownClear s.tx.call.tdes = true →
    ∃ b, s.hand ≠ some b ∧ P.isFree s.pool b = true

instance (s : Netif P) (e : Event) : Decidable (Spare s e) :=
  inferInstanceAs (Decidable (_ → _ → _ → _ → _))

/-! ### The events, one by one -/

/-- What an event does, with the condition under which it happens. -/
inductive Step (s : Netif P) : Event → Netif P → Prop
  | taken {len : ℕ} {b : Buf} {pool : P.Pool} (hi : s.Idle)
      (ha : P.pbufAlloc s.pool len = some (b, pool)) :
      Step s (.input len) { s with pool, hand := some b, replying := false }
  | dropped {len : ℕ} (ha : P.pbufAlloc s.pool len = none) : Step s (.input len) s
  | reply {b : Buf} {payload len : ℕ} (hh : s.hand = some b) :
      Step s (.reply payload len)
        { s with
          tx := s.tx.transmit ⟨b, payload, len⟩ []
          pool := P.pbufRealloc s.pool b
          replying := true }
  | free {b : Buf} (hh : s.hand = some b) (hpc : isReturned s.tx.pc = true) :
      Step s .free { s with pool := P.pbufFree s.pool b, hand := none, replying := false }
  | send {p : Seg} {rest : List Seg} (hr : s.replying = false) (hp : pbufPoolSize ≤ p.addr) :
      Step s (.send p rest) { s with tx := s.tx.transmit p rest }
  | giveUp (hpc : s.tx.pc = .check) :
      Step s .giveUp { s with tx := { s.tx with pc := .returned (some .timeout) } }
  | driver {t : State} (ha : Mac.Access s.tx t) :
      Step s .driver { s with tx := t, pool := s.driverPool }
  | dma (ho : (s.tx.desc s.tx.dma).des0.own = true) : Step s .dma { s with tx := s.tx.dmaDone }

/-- Nothing else happens. -/
theorem step_of_next {e : Event} (h : (netif P).next s e = some s') : Step s e s' := by
  cases e with
  | input len =>
    simp only [netif, Netif.next] at h
    -- the thread takes a frame only when the last one is off its hands
    split at h
    · next h_idle =>
      -- the pool may be empty, and then the frame is lost
      split at h
      · next b pool h_alloc =>
        obtain rfl := Option.some.inj h
        exact .taken h_idle h_alloc
      · next h_alloc =>
        obtain rfl := Option.some.inj h
        exact .dropped h_alloc
    · exact absurd h (by simp)
  | reply payload len =>
    simp only [netif, Netif.next] at h
    split at h
    · next b h_hand =>
      obtain ⟨-, h_eq⟩ := Option.ite_none_right_eq_some.mp h
      obtain rfl := Option.some.inj h_eq
      exact .reply h_hand
    · exact absurd h (by simp)
  | free =>
    simp only [netif, Netif.next] at h
    split at h
    · next b h_hand =>
      obtain ⟨h_pc, h_eq⟩ := Option.ite_none_right_eq_some.mp h
      obtain rfl := Option.some.inj h_eq
      exact .free h_hand h_pc
    · exact absurd h (by simp)
  | send p rest =>
    -- another sender uses buffers that the pool does not have
    obtain ⟨⟨h_reply, h_addr⟩, h_map⟩ := Option.ite_none_right_eq_some.mp h
    obtain ⟨tx, h_tx, rfl⟩ := Option.map_eq_some_iff.mp h_map
    obtain ⟨-, rfl⟩ := transmit_inv h_tx
    exact .send h_reply h_addr
  | giveUp =>
    obtain ⟨tx, h_tx, rfl⟩ := Option.map_eq_some_iff.mp h
    -- from here on it is the transmit ring that moves, and the pool that stays
    obtain ⟨h_pc, rfl⟩ := giveUp_inv h_tx
    exact .giveUp h_pc
  | driver =>
    obtain ⟨tx, h_tx, rfl⟩ := Option.map_eq_some_iff.mp h
    exact .driver (access_of_driver h_tx)
  | dma =>
    obtain ⟨tx, h_tx, rfl⟩ := Option.map_eq_some_iff.mp h
    obtain ⟨h_own, rfl⟩ := dma_inv h_tx
    exact .dma h_own

/-! ### A buffer for the next frame -/

/-- A buffer is in the pool, or `pbuf_free` will put the one of the current frame back. -/
def Supplied (s : Netif P) : Prop :=
  (∃ b, P.isFree s.pool b = true) ∨
  ∃ b, s.hand = some b ∧ P.ref s.pool b = 1 ∧ (s.replying = true → s.tx.pc.stage = 0)

/-- Where a frame is not a reply, it is not in the pool. -/
def Elsewhere (s : Netif P) : Prop :=
  s.replying = false → isReturned s.tx.pc = false → pbufPoolSize ≤ s.tx.call.p.addr

/-- What the driver does to the pool keeps a buffer in it. -/
theorem isFree_driverPool {b : Buf} (h : P.isFree s.pool b = true) :
    P.isFree s.driverPool b = true := by
  simp only [Netif.driverPool, Netif.onBuf]
  split
  · split
    · split
      · exact P.isFree_pbufFree _ h
      · exact h
    · exact h
  · split
    · exact P.isFree_pbufRef _ h
    · exact h
  · exact h

/-- The only reference to a buffer stays the only one, or the buffer goes back, as long as the
driver does not take another one. -/
theorem ref_driverPool {b : Buf} (h : P.ref s.pool b = 1)
    (h_ref : ∀ d, s.tx.pc = .pbufRef d → pbufPoolSize ≤ s.tx.call.p.addr) :
    P.ref s.driverPool b = 1 ∨ P.isFree s.driverPool b = true := by
  simp only [Netif.driverPool, Netif.onBuf]
  split
  · split
    · split
      · exact P.ref_pbufFree _ h
      · exact .inl h
    · exact .inl h
  · next d hpc =>
    rw [dif_neg (not_lt.mpr (h_ref d hpc))]
    exact .inl h
  · exact .inl h

/-- The OWN test ends the first stage of a call. -/
theorem stage_of_access {t t' : State} (h : Mac.Access t t') (h_stage : t.pc.stage = 0)
    (h_own : t.pc = .ownTest → t.ownClear t.call.tdes = false) : t'.pc.stage = 0 := by
  cases h with
  | check | isFree | isDone | pbufFree | activeNext | own => rfl
  | ownTest hpc ho => exact absurd (ho.symm.trans (h_own hpc)) (by decide)
  | des1 hpc | desBuf hpc | des0 hpc | pbufNull hpc | first hpc | notFirst hpc | setOwn hpc
  | last hpc | notLast hpc | setLs hpc | handOver hpc | setFirst hpc | pbufRef hpc
  | setActive hpc => exact absurd h_stage (by simp [hpc, Pc.stage])

/-- The chain is the same during a call. -/
theorem p_of_access {t t' : State} (h : Mac.Access t t') :
    isReturned t.pc = false ∧ t'.call.p = t.call.p := by
  cases h with
  | check hpc | isFree hpc | isDone hpc | activeNext hpc | own hpc | ownTest hpc | des1 hpc
  | desBuf hpc | des0 hpc | pbufNull hpc | first hpc | notFirst hpc | setOwn hpc | last hpc
  | notLast hpc | setLs hpc | handOver hpc | setFirst hpc | pbufRef hpc | setActive hpc =>
    exact ⟨by rw [hpc]; rfl, rfl⟩
  | pbufFree hpc => exact ⟨by rw [hpc]; rfl, by rw [pbufFree_call]⟩

/-- **Nothing but a transmission ends it.** -/
theorem Blocked.stays (h : Blocked s) {e : Event} (hn : (netif P).next s e = some s') :
    s' = s ∨ ∃ p rest, e = .send p rest := by
  obtain ⟨h_hand, h_pc⟩ := h.idle
  cases step_of_next hn with
  | taken _ ha => exact absurd ((h.starved _).symm.trans ha) (by simp)
  | dropped => exact .inl rfl
  | reply hh | free hh => exact absurd (h_hand.symm.trans hh) (by simp)
  | @send p rest => exact .inr ⟨p, rest, rfl⟩
  | giveUp hpc =>
    rw [hpc] at h_pc
    exact absurd h_pc (by decide)
  | driver ha => exact absurd ((p_of_access ha).1.symm.trans h_pc) (by decide)
  | dma ho => exact absurd ((h.released _).symm.trans ho) (by decide)

theorem Elsewhere.step (h : Elsewhere s) {e : Event} (hn : (netif P).next s e = some s') :
    Elsewhere s' := by
  intro h_reply h_busy
  cases step_of_next hn with
  | taken hi => exact absurd (hi.2.symm.trans h_busy) (by decide)
  | dropped | dma => exact h h_reply h_busy
  | reply => exact absurd h_reply (by simp)
  | free _ hpc => exact absurd (hpc.symm.trans h_busy) (by decide)
  | send _ hp => exact hp
  | giveUp => exact absurd h_busy (by simp [isReturned])
  | driver ha =>
    -- `p` is the one of the call that is in progress
    obtain ⟨h_call, h_p⟩ := p_of_access ha
    show pbufPoolSize ≤ _
    rw [h_p]
    exact h h_reply h_call

theorem Supplied.step (h : Supplied s) (h_else : Elsewhere s) {e : Event} (hg : Spare s e)
    (hn : (netif P).next s e = some s') : Supplied s' := by
  cases step_of_next hn with
  | @taken _ b _ _ ha =>
    -- the pool may be empty now, but the only reference to `b` is ours
    exact .inr ⟨b, rfl, P.ref_of_pbufAlloc ha, fun h' => absurd h' (by simp)⟩
  | dropped | dma => exact h
  | @reply b _ _ hh =>
    rcases h with ⟨b', h_free⟩ | ⟨b', h_hand, h_ref, -⟩
    · exact .inl ⟨b', P.isFree_pbufRealloc b h_free⟩
    · exact (P.ref_pbufRealloc b h_ref).symm.imp (fun h_free => ⟨b', h_free⟩)
        fun h_ref => ⟨b', h_hand, h_ref, fun _ => rfl⟩
  | @free b hh =>
    rcases h with ⟨b', h_free⟩ | ⟨b', h_hand, h_ref, -⟩
    · exact .inl ⟨b', P.isFree_pbufFree b h_free⟩
    · obtain rfl := Option.some.inj (hh.symm.trans h_hand)
      exact .inl ⟨b, P.pbufFree_last h_ref⟩
  | send hr =>
    exact h.imp_right fun ⟨b, h_hand, h_ref, _⟩ =>
      ⟨b, h_hand, h_ref, fun h' => absurd (hr.symm.trans h') (by decide)⟩
  | giveUp =>
    exact h.imp_right fun ⟨b, h_hand, h_ref, _⟩ => ⟨b, h_hand, h_ref, fun _ => rfl⟩
  | @driver t ha =>
    rcases h with ⟨b, h_free⟩ | ⟨b, h_hand, h_ref, h_stage⟩
    · exact .inl ⟨b, isFree_driverPool h_free⟩
    by_cases h_reply : s.replying = true
    · -- the reply gets a descriptor, or its call is still before the OWN test
      by_cases h_own : s.tx.pc = .ownTest ∧ s.tx.ownClear s.tx.call.tdes = true
      · obtain ⟨b', -, h_free⟩ := hg rfl h_reply h_own.1 h_own.2
        exact .inl ⟨b', isFree_driverPool h_free⟩
      · have h_stage' : t.pc.stage = 0 :=
          stage_of_access ha (h_stage h_reply) (by simpa using h_own)
        have h_first : ∀ d, s.tx.pc = .pbufRef d → pbufPoolSize ≤ s.tx.call.p.addr :=
          fun d hpc => absurd (h_stage h_reply) (by simp [hpc, Pc.stage])
        exact (ref_driverPool h_ref h_first).symm.imp (fun h_free => ⟨b, h_free⟩)
          fun h_ref => ⟨b, h_hand, h_ref, fun _ => h_stage'⟩
    · -- a frame from elsewhere takes no reference to a buffer of the pool
      have h_addr := h_else (by simpa using h_reply) (p_of_access ha).1
      exact (ref_driverPool h_ref fun _ _ => h_addr).symm.imp (fun h_free => ⟨b, h_free⟩)
        fun h_ref => ⟨b, h_hand, h_ref, fun h' => absurd h' h_reply⟩

/-- Between two frames a buffer is in the pool. -/
theorem exists_isFree (h : (netif P).Reach Spare s) (h_idle : s.Idle) :
    ∃ b, P.isFree s.pool b = true := by
  have h_start : Supplied (netif P).init ∧ Elsewhere (netif P).init :=
    ⟨.inl ⟨⟨0, by decide⟩, P.start_isFree _⟩,
      fun _ h' => absurd h' (by simp [netif, start, isReturned])⟩
  have h_supplied : Supplied s :=
    (h.invariant (I := fun s => Supplied s ∧ Elsewhere s) h_start fun _ _ _ hI hg hn =>
      ⟨hI.1.step hI.2 hg hn, hI.2.step hn⟩).1
  rcases h_supplied with h_free | ⟨b, h_hand, -⟩
  · exact h_free
  · exact absurd (h_idle.1.symm.trans h_hand) (by simp)

/-- **Reception is never blocked** in a run in which, whenever a reply gets a descriptor, some
other buffer is in the pool. -/
theorem never_blocked (P : Pbufs) {s : Netif P} (h : (netif P).Reach Spare s) : ¬ Blocked s := by
  intro h_blocked
  obtain ⟨b, h_free⟩ := exists_isFree h h_blocked.idle
  have h_some := P.pbufAlloc_isSome (Nat.zero_le pbufPoolBufsize) h_free
  rw [h_blocked.starved] at h_some
  exact absurd h_some (by simp)

/-! ### Four replies -/

/-- The buffers that are free, the counts, and what follows a buffer in its chain. -/
structure RefPool where
  pool : List Buf
  ref : Buf → ℕ
  tail : Buf → List Buf

namespace RefPool

variable (m : RefPool)

/-- `pbuf_free`, over the buffers of a chain. -/
def release (m : RefPool) : List Buf → RefPool
  | [] => m
  | b :: bs =>
    if m.ref b = 1 then
      release { m with pool := b :: m.pool, ref := Function.update m.ref b 0 } bs
    else { m with ref := Function.update m.ref b (m.ref b - 1) }

/-- `pbuf_alloc`. -/
def alloc (len : ℕ) : Option (Buf × RefPool) :=
  let n := max 1 ((len + pbufPoolBufsize - 1) / pbufPoolBufsize)
  if n ≤ m.pool.length then
    match m.pool.take n with
    | b :: bs =>
      some (b,
        { pool := m.pool.drop n
          ref := fun c => if c ∈ b :: bs then 1 else m.ref c
          tail := Function.update m.tail b bs })
    | [] => none
  else none

theorem mem_release (bs : List Buf) {b : Buf} (h : b ∈ m.pool) : b ∈ (m.release bs).pool := by
  induction bs generalizing m with
  | nil => exact h
  | cons c bs ih =>
    rw [release]
    split
    · exact ih _ (List.mem_cons_of_mem c h)
    · exact h

theorem ref_release (bs : List Buf) {b : Buf} (h : m.ref b = 1) :
    (m.release bs).ref b = 1 ∨ b ∈ (m.release bs).pool := by
  induction bs generalizing m with
  | nil => exact .inl h
  | cons c bs ih =>
    rw [release]
    by_cases h_eq : b = c
    · subst h_eq
      rw [if_pos h]
      exact .inr (mem_release _ bs List.mem_cons_self)
    · split
      · exact ih _ ((Function.update_of_ne h_eq _ _).trans h)
      · exact .inl ((Function.update_of_ne h_eq _ _).trans h)

theorem release_last (bs : List Buf) {b : Buf} (h : m.ref b = 1) :
    b ∈ (m.release (b :: bs)).pool := by
  rw [release, if_pos h]
  exact mem_release _ bs List.mem_cons_self

theorem ref_of_alloc {len : ℕ} {b : Buf} {m' : RefPool} (h : m.alloc len = some (b, m')) :
    m'.ref b = 1 := by
  simp only [alloc] at h
  split at h
  · split at h
    · obtain ⟨rfl, rfl⟩ := Prod.mk.inj (Option.some.inj h)
      exact if_pos List.mem_cons_self
    · exact absurd h (by simp)
  · exact absurd h (by simp)

theorem alloc_isSome {len : ℕ} {b : Buf} (h_len : len ≤ pbufPoolBufsize) (h : b ∈ m.pool) :
    (m.alloc len).isSome = true := by
  have h_one : max 1 ((len + pbufPoolBufsize - 1) / pbufPoolBufsize) = 1 := by
    unfold pbufPoolBufsize at *
    omega
  obtain ⟨c, cs, h_pool⟩ := List.exists_cons_of_ne_nil (List.ne_nil_of_mem h)
  simp [alloc, h_one, h_pool]

end RefPool

/-- A pool as lwIP documents it. -/
def lwip : Pbufs where
  Pool := RefPool
  start :=
    { pool := List.finRange pbufPoolSize
      ref := fun _ => 0
      tail := fun _ => [] }
  isFree m b := decide (b ∈ m.pool)
  ref := RefPool.ref
  pbufAlloc := RefPool.alloc
  pbufRef m b := { m with ref := Function.update m.ref b (m.ref b + 1) }
  pbufFree m b := m.release (b :: m.tail b)
  pbufRealloc m b := { m.release (m.tail b) with tail := Function.update m.tail b [] }
  start_isFree b := decide_eq_true (List.mem_finRange b)
  ref_of_pbufAlloc := RefPool.ref_of_alloc _
  pbufAlloc_isSome h_len h := RefPool.alloc_isSome _ h_len (of_decide_eq_true h)
  isFree_pbufRef _ h := h
  ref_pbufRef h := Function.update_of_ne h _ _
  isFree_pbufFree _ h := decide_eq_true (RefPool.mem_release _ _ (of_decide_eq_true h))
  pbufFree_last h := decide_eq_true (RefPool.release_last _ _ h)
  ref_pbufFree _ h := (RefPool.ref_release _ _ h).imp_right decide_eq_true
  isFree_pbufRealloc _ h := decide_eq_true (RefPool.mem_release _ _ (of_decide_eq_true h))
  ref_pbufRealloc _ h := (RefPool.ref_release _ _ h).imp_right decide_eq_true

/-- An empty pool, and a ring in which the DMA is done with every descriptor. -/
structure Exhausted (s : Netif lwip) : Prop where
  idle : s.Idle
  pool : RefPool.pool s.pool = []
  desc : ∀ d, (s.tx.desc d).des0.own = false ∧ (s.tx.desc d).held = true ∧
    (s.tx.desc d).pbuf = some d.val

instance (s : Netif lwip) : Decidable (Exhausted s) :=
  decidable_of_iff (s.Idle ∧ RefPool.pool s.pool = [] ∧ ∀ d, (s.tx.desc d).des0.own = false ∧
      (s.tx.desc d).held = true ∧ (s.tx.desc d).pbuf = some d.val)
    ⟨fun ⟨h_idle, h_pool, h_desc⟩ => ⟨h_idle, h_pool, h_desc⟩,
      fun h => ⟨h.idle, h.pool, h.desc⟩⟩

theorem Exhausted.blocked {s : Netif lwip} (h : Exhausted s) : Blocked s := by
  refine ⟨h.idle, fun d => (h.desc d).1, fun len => ?_, fun b => ⟨b, (h.desc b).2⟩⟩
  have h_none : RefPool.alloc s.pool len = none := by simp [RefPool.alloc, h.pool]
  exact h_none

/-- A request, and its reply in a ring with a free descriptor. -/
def exchange : List Event :=
  [Event.input 92, .reply 1000 90] ++ List.replicate 14 .driver ++ [Event.free]

/-- Three replies leave a buffer in the pool. -/
theorem never_blocked_threeReplies : ∃ s : Netif lwip, s.Idle ∧
    (∀ d, (s.tx.desc d).des0.own = false) ∧ ¬ Blocked s := by
  have h_exec : ((netif lwip).exec Spare (netif lwip).init
      (exchange ++ exchange ++ exchange ++ List.replicate 3 .dma)).map
        (fun s => decide (s.Idle ∧ ∀ d, (s.tx.desc d).des0.own = false)) = some true := by
    decide +kernel
  obtain ⟨s, h_exec, h_s⟩ := Option.map_eq_some_iff.mp h_exec
  obtain ⟨h_idle, h_own⟩ := of_decide_eq_true h_s
  exact ⟨s, h_idle, h_own, never_blocked lwip ((netif lwip).reach_of_exec Spare h_exec)⟩

/-- Four replies, before the DMA is done with the first. -/
def fourReplies : List Event :=
  exchange ++ exchange ++ exchange ++ exchange ++ List.replicate 4 .dma

theorem blocked_fourReplies :
    ¬ ∀ P, ∀ s : Netif P, (netif P).Reach (fun _ _ => True) s → ¬ Blocked s := by
  intro h
  have h_exec : ((netif lwip).exec (fun _ _ => True) (netif lwip).init fourReplies).map
      (fun s => decide (Exhausted s)) = some true := by
    decide +kernel
  obtain ⟨s, h_exec, h_s⟩ := Option.map_eq_some_iff.mp h_exec
  have h_reach := (netif lwip).reach_of_exec (fun _ _ => True) h_exec
  exact h lwip s h_reach (Exhausted.blocked (of_decide_eq_true h_s))

end Net

end Laureline
