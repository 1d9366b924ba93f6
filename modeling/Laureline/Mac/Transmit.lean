import Laureline.Mac.TxRing

/-!
# What a transmission leaves in the ring

`tdes` is set once, before the loop over the segments of a chain, and the loop writes
every segment to it. So exactly the chains of one segment are in the ring as they should
be when `maczero_transmit` returns `ERR_OK`: `maczero_transmit_filled_iff`.

The facts about a call in progress are ordered by `Pc.stage`, the number of accesses after
the OWN test:

* `CallInv` — from the OWN test on, `tx_ptr` is one further, for a chain of any length;
* `SingleInv` — the members of the descriptor that are written so far, for one segment.
-/

namespace Laureline

namespace Mac

/-- The descriptor that is reached by following `des_next` `i` times. -/
def nth (d : Pos) (i : ℕ) : Pos := d + Fin.ofNat txBufs i

/-- What a successful call with the chain `p :: rest` should have done to the ring, if
`tx_ptr` was `old` when it began. -/
structure Filled (old : Pos) (p : Seg) (rest : List Seg) (s : State) : Prop where
  data : ∀ i q, (p :: rest)[i]? = some q →
    (s.desc (nth old i)).desBuf = some q.payload ∧ (s.desc (nth old i)).des1 = q.len
  fs : ∀ i ≤ rest.length, ((s.desc (nth old i)).des0.fs = true ↔ i = 0)
  ls : ∀ i ≤ rest.length, ((s.desc (nth old i)).des0.ls = true ↔ i = rest.length)
  own : ∀ i ≤ rest.length, s.call.given.count (nth old i) = 1
  ownLast : s.call.given.getLast? = some old
  pbuf : ∃! i, i ≤ rest.length ∧ (s.desc (nth old i)).pbuf = some p.addr
  advanced : s.txPtr = nth old (rest.length + 1)

/-! ### The order of the accesses -/

/-- How far a call has come with a segment. -/
def Pc.stage : Pc → ℕ
  | .des1 => 1
  | .desBuf => 2
  | .des0 => 3
  | .pbufNull => 4
  | .firstOrNot => 5
  | .setOwn _ => 6
  | .lastOrNot => 7
  | .setLs _ => 8
  | .handOver => 9
  | .setFirst _ _ => 10
  | .pbufRef _ => 11
  | .setActive _ => 12
  | .returned (some .ok) => 13
  | _ => 0

/-- The actions while one call is in progress. -/
def NoCall (_ : State) : Action → Prop
  | .transmit _ _ => False
  | _ => True

instance (s : State) : ∀ a, Decidable (NoCall s a)
  | .transmit _ _ => isFalse id
  | .giveUp | .driver | .dma => isTrue trivial

/-- The call `(p, rest)` that found `tx_ptr` at `old` is in progress or has returned. -/
structure CallInv (old : Pos) (p : Seg) (rest : List Seg) (s : State) : Prop where
  p_eq : s.call.p = p
  rest_eq : s.call.rest = rest
  tdes_eq : s.call.tdes = old
  txPtr_eq : 1 ≤ s.pc.stage → s.txPtr = old + 1

section Step

variable {old : Pos} {p : Seg} {rest : List Seg} {s s' : State} {a : Action}

theorem CallInv.transmit : CallInv s.txPtr p rest (s.transmit p rest) :=
  ⟨rfl, rfl, rfl, fun h => absurd h (by simp [State.transmit, Pc.stage])⟩

theorem CallInv.step (hI : CallInv old p rest s) (ha : NoCall s a) (h : s.next a = some s') :
    CallInv old p rest s' := by
  obtain ⟨hp, hr, ht, hx⟩ := hI
  cases a with
  | transmit p' rest' => exact ha.elim
  | giveUp =>
    obtain ⟨-, rfl⟩ := giveUp_inv h
    exact ⟨hp, hr, ht, fun h => absurd h (by simp [Pc.stage])⟩
  | dma =>
    obtain ⟨-, rfl⟩ := dma_inv h
    exact ⟨hp, hr, ht, hx⟩
  | driver =>
    -- only the OWN test moves `tx_ptr`; what follows it keeps it there
    cases access_of_driver h with
    | check | isFree | isDone | activeNext | own | notLast =>
      exact ⟨hp, hr, ht, fun h => absurd h (by simp [Pc.stage])⟩
    | pbufFree hpc =>
      exact ⟨by simpa using hp, by simpa using hr, by simpa using ht,
        fun h => absurd h (by simp [Pc.stage])⟩
    | ownTest => exact ⟨hp, hr, ht, fun _ => by rw [ht]⟩
    | des1 hpc | desBuf hpc | des0 hpc | pbufNull hpc | first hpc | notFirst hpc | setOwn hpc
    | last hpc | setLs hpc | handOver hpc | setFirst hpc | pbufRef hpc | setActive hpc =>
      exact ⟨hp, hr, ht, fun _ => hx (by simp [hpc, Pc.stage])⟩

/-! ### One segment -/

/-- What is written so far, for a chain that is the segment `p`. -/
structure SingleInv (old : Pos) (p : Seg) (s : State) : Prop where
  q_eq : s.call.q = p
  todo_eq : s.call.todo = []
  des1 : 2 ≤ s.pc.stage → (s.desc old).des1 = p.len
  desBuf : 3 ≤ s.pc.stage → (s.desc old).desBuf = some p.payload
  first : ∀ v, s.pc ≠ .setOwn v
  pbuf : 7 ≤ s.pc.stage → (s.desc old).pbuf = some p.addr ∧ s.call.tdesFirst = some old
  ls : 9 ≤ s.pc.stage → (s.desc old).des0.ls = true
  setFirst : ∀ d v, s.pc = .setFirst d v → d = old ∧ v.ls = true
  given : s.pc.stage ≤ 10 → s.call.given = []
  fs : 11 ≤ s.pc.stage → s.call.given = [old] ∧ (s.desc old).des0.fs = true

theorem SingleInv.transmit : SingleInv s.txPtr p (s.transmit p []) := by
  refine ⟨rfl, rfl, ?_, ?_, ?_, ?_, ?_, ?_, fun _ => rfl, ?_⟩ <;> simp [State.transmit, Pc.stage]

theorem SingleInv.step (hI : SingleInv old p s) (hC : CallInv old p [] s) (ha : NoCall s a)
    (h : s.next a = some s') : SingleInv old p s' := by
  obtain ⟨hq, htd, h1, hb, hf, hp, hl, hs, hg, hfs⟩ := hI
  have ht := hC.tdes_eq
  have hcp := hC.p_eq
  cases a with
  | transmit p' rest' => exact ha.elim
  | giveUp =>
    obtain ⟨hpc, rfl⟩ := giveUp_inv h
    refine ⟨hq, htd, ?_, ?_, ?_, ?_, ?_, ?_, fun _ => hg (by simp [hpc, Pc.stage]), ?_⟩ <;>
      simp [Pc.stage]
  | dma =>
    obtain ⟨-, rfl⟩ := dma_inv h
    refine ⟨hq, htd, ?_, ?_, hf, ?_, ?_, hs, hg, ?_⟩ <;> rw [dmaDone_desc] <;> assumption
  | driver =>
    cases access_of_driver h with
    -- with one segment the first is the last
    | notFirst hpc hqp => exact absurd (by rw [hq, hcp]) hqp
    | setOwn hpc => exact absurd hpc (hf _)
    | notLast hpc htodo => exact absurd (htd.symm.trans htodo) (by simp)
    | pbufFree hpc =>
      simp only [hpc, Pc.stage] at hg
      constructor <;> simp [Pc.stage, hq, htd, hg]
    | check hpc | isFree hpc | isDone hpc | activeNext hpc | own hpc | ownTest hpc =>
      simp only [hpc, Pc.stage] at hg
      constructor <;> simp [Pc.stage, hq, htd, hg]
    -- the accesses that fill the descriptor
    | des1 hpc | desBuf hpc | des0 hpc | first hpc | last hpc | setLs hpc =>
      simp [hpc, Pc.stage] at h1 hb hp hg
      constructor <;> simp [Pc.stage, ht, hcp, hq, htd, h1, hb, hp, hg]
    | pbufNull hpc =>
      simp [hpc, Pc.stage] at h1 hb hg
      constructor <;> simp [Pc.stage, State.pbufNull, ht, hq, htd, h1, hb, hg]
    | handOver hpc hfirst =>
      simp [hpc, Pc.stage] at h1 hb hp hl hg
      obtain rfl := Option.some.inj (hp.2.symm.trans hfirst)
      constructor <;> simp [Pc.stage, hq, htd, h1, hb, hp, hl, hg]
    | setFirst hpc =>
      -- the value was read after LS was set
      simp [hpc, Pc.stage] at h1 hb hp hg
      obtain ⟨rfl, hv⟩ := hs _ _ hpc
      constructor <;> simp [Pc.stage, State.give, hq, htd, h1, hb, hp, hv, hg]
    | pbufRef hpc | setActive hpc =>
      simp [hpc, Pc.stage] at h1 hb hp hl hfs
      constructor <;> simp [Pc.stage, hq, htd, h1, hb, hp, hl, hfs]

end Step

/-! ### A whole call -/

/-- A call `(p, rest)` and some of the accesses that follow it, the DMA's among them. -/
structure Call.Run (s₀ : State) (p : Seg) (rest : List Seg) (s : State) : Prop where
  reach : machine.Reach (fun _ _ => True) s₀
  run : ∃ s₁ as, s₀.next (.transmit p rest) = some s₁ ∧ machine.Path NoCall s₁ as s

section Run

variable {s₀ s : State} {p : Seg} {rest : List Seg}

theorem Call.Run.callInv (h : Call.Run s₀ p rest s) : CallInv s₀.txPtr p rest s := by
  obtain ⟨s₁, as, h_call, h_run⟩ := h.run
  obtain ⟨-, rfl⟩ := transmit_inv h_call
  exact h_run.invariant (fun s a s' hI ha hn => hI.step ha hn) .transmit

theorem Call.Run.singleInv (h : Call.Run s₀ p [] s) : SingleInv s₀.txPtr p s := by
  obtain ⟨s₁, as, h_call, h_run⟩ := h.run
  obtain ⟨-, rfl⟩ := transmit_inv h_call
  have h_both : CallInv s₀.txPtr p [] s ∧ SingleInv s₀.txPtr p s :=
    h_run.invariant (I := fun s => CallInv s₀.txPtr p [] s ∧ SingleInv s₀.txPtr p s)
      (fun s a s' hI ha hn => ⟨hI.1.step ha hn, hI.2.step hI.1 ha hn⟩) ⟨.transmit, .transmit⟩
  exact h_both.2

theorem nth_zero (d : Pos) : nth d 0 = d := add_zero d

/-- A chain of one segment is in the ring as it should be. -/
theorem Call.Run.filled (h : Call.Run s₀ p [] s) (h_ok : s.pc = .returned (some .ok)) :
    Filled s₀.txPtr p [] s := by
  have hC := h.callInv
  have hI := h.singleInv
  -- at the last stage every access of the call is behind
  have h_stage : s.pc.stage = 13 := by rw [h_ok]; rfl
  obtain ⟨h_given, h_fs⟩ := hI.fs (by omega)
  have h_pbuf := (hI.pbuf (by omega)).1
  constructor
  case data =>
    intro i q hq
    obtain ⟨rfl, rfl⟩ : i = 0 ∧ p = q := by
      cases i with
      | zero => exact ⟨rfl, Option.some.inj hq⟩
      | succ i => exact absurd hq (by simp)
    rw [nth_zero]
    exact ⟨hI.desBuf (by omega), hI.des1 (by omega)⟩
  case fs =>
    intro i hi
    obtain rfl : i = 0 := by simpa using hi
    rw [nth_zero]
    exact ⟨fun _ => rfl, fun _ => h_fs⟩
  case ls =>
    intro i hi
    obtain rfl : i = 0 := by simpa using hi
    rw [nth_zero]
    exact ⟨fun _ => rfl, fun _ => hI.ls (by omega)⟩
  case own =>
    intro i hi
    obtain rfl : i = 0 := by simpa using hi
    rw [nth_zero, h_given, List.count_singleton_self]
  case ownLast => rw [h_given, List.getLast?_singleton]
  case pbuf =>
    refine ⟨0, ⟨le_refl 0, by rw [nth_zero, h_pbuf]⟩, ?_⟩
    rintro i ⟨hi, -⟩
    simpa using hi
  case advanced => exact hC.txPtr_eq (by omega)

/-- **Which chains end up in the ring.** When `maczero_transmit` returns `ERR_OK` for a
chain of at most `TX_BUFS` segments, whatever happened before and whenever the DMA cleared
OWN bits, the ring holds the chain exactly if the chain has one segment. -/
theorem maczero_transmit_filled_iff (h : Call.Run s₀ p rest s)
    (h_ok : s.pc = .returned (some .ok)) (h_len : rest.length + 1 ≤ txBufs) :
    Filled s₀.txPtr p rest s ↔ rest = [] := by
  constructor
  · intro h_filled
    have h_ptr : s.txPtr = s₀.txPtr + 1 := h.callInv.txPtr_eq (by rw [h_ok]; decide)
    have h_adv := h_ptr.symm.trans h_filled.advanced
    have h_mod : (1 : Pos) = Fin.ofNat txBufs (rest.length + 1) := add_left_cancel h_adv
    have h_val : 1 = (rest.length + 1) % 4 := congrArg Fin.val h_mod
    rw [txBufs] at h_len
    exact List.eq_nil_of_length_eq_zero (by omega)
  · rintro rfl
    exact h.filled h_ok

end Run

/-! ### Two segments -/

/-- The accesses of a call whose descriptors are all free, up to its return. -/
def accesses (n : ℕ) : List Action := List.replicate n .driver

theorem Call.run_of_exec {p : Seg} {rest : List Seg} {n : ℕ}
    (h : (machine.exec NoCall (start.transmit p rest) (accesses n)).map State.pc =
      some (.returned (some .ok))) :
    ∃ s, Call.Run start p rest s ∧ s.pc = .returned (some .ok) := by
  obtain ⟨s, h_exec, h_pc⟩ := Option.map_eq_some_iff.mp h
  exact ⟨s, ⟨.init, _, _, rfl, machine.path_of_exec NoCall h_exec⟩, h_pc⟩

/-- The first frame after `mac_start` has two segments. -/
theorem maczero_transmit_two_segments :
    ¬ ∀ (s₀ : State) (p : Seg) (rest : List Seg) (s : State), Call.Run s₀ p rest s →
      s.pc = .returned (some .ok) → rest.length + 1 ≤ txBufs → Filled s₀.txPtr p rest s := by
  intro h
  obtain ⟨s, h_run, h_ok⟩ := @Call.run_of_exec ⟨100, 1000, 54⟩ [⟨200, 2000, 48⟩] 24 (by decide)
  have h_ptr : s.txPtr = 1 := h_run.callInv.txPtr_eq (by rw [h_ok]; decide)
  have h_adv := (h start _ _ s h_run h_ok (by decide)).advanced
  rw [h_ptr] at h_adv
  exact absurd h_adv (by decide)

/-- A chain of one segment, sent right after `mac_start`. -/
theorem maczero_transmit_one_segment :
    ∃ s, s.pc = .returned (some .ok) ∧ Filled start.txPtr ⟨100, 1000, 90⟩ [] s := by
  obtain ⟨s, h_run, h_ok⟩ := @Call.run_of_exec ⟨100, 1000, 90⟩ [] 14 (by decide)
  exact ⟨s, h_ok, (maczero_transmit_filled_iff h_run h_ok (by decide)).mpr rfl⟩

end Mac

end Laureline
