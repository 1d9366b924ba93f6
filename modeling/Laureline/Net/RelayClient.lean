import Laureline.Net.Relay

/-!
# The newest connection of the relay

A connection that was replaced keeps its callbacks. They compare the generation number that the
connection was given with `client_sigil`, so that only the newest connection can clear
`relay_client` and write to the GPS.

What `relay_client` should hold is said by the actions of a run alone: `current` is the connection
accepted last, unless it is over. `Tracks` is the invariant on the actions so far and the state; it
holds as long as `client_sigil` does not wrap around.

* `Tracks.step` — every step;
* `relay_client_newest` — every run.
-/

namespace Laureline

namespace Relay

/-! ### What the actions say -/

/-- The number of connections accepted. -/
def accepts (as : List Action) : ℕ := as.count .accept

/-- The connection was closed by the client or reported in error. -/
def Over (as : List Action) (c : Conn) : Prop := Action.fin c ∈ as ∨ Action.err c ∈ as

instance (as : List Action) (c : Conn) : Decidable (Over as c) :=
  inferInstanceAs (Decidable (_ ∨ _))

/-- The connection accepted last, unless it is over. -/
def current (as : List Action) : Option Conn :=
  match accepts as with
  | 0 => none
  | n + 1 => if Over as n then none else some n

/-- The connection whose callback a step belongs to. -/
def State.callbackOf (s : State) : Action → Option Conn
  | .data c _ | .fin c | .err c => some c
  | .tcpip =>
    match s.tcpip with
    | .clear c => some c
    | _ => none
  | _ => none

/-- The connection that an action reports to be over. -/
def overBy : Action → Option Conn
  | .fin c | .err c => some c
  | _ => none

variable {as : List Action} {a : Action} {c : Conn} {s s' : State}

theorem accepts_append (h : a ≠ .accept) : accepts (as ++ [a]) = accepts as := by
  rw [accepts, List.count_append, List.count_singleton, if_neg (by simpa using h), Nat.add_zero]
  rfl

theorem accepts_accept : accepts (as ++ [.accept]) = accepts as + 1 := by
  rw [accepts, List.count_append, List.count_singleton_self]
  rfl

theorem over_append : Over (as ++ [a]) c ↔ Over as c ∨ overBy a = some c := by
  unfold Over
  rw [List.mem_append, List.mem_append, List.mem_singleton, List.mem_singleton]
  cases a with
  | fin d | err d =>
    simp only [overBy, reduceCtorEq, or_false, Option.some.injEq, Action.fin.injEq,
      Action.err.injEq]
    grind
  | _ => simp [overBy]

theorem current_of_over (h : Over as c) (h_last : c + 1 = accepts as) : current as = none := by
  rw [current, ← h_last]
  exact if_pos h

theorem current_of_not_over (h : ¬ Over as c) (h_last : c + 1 = accepts as) :
    current as = some c := by
  rw [current, ← h_last]
  exact if_neg h

/-- An action that is about neither a new connection nor the newest one. -/
theorem current_append (h : a ≠ .accept) (h_over : ∀ c, overBy a = some c → c + 1 ≠ accepts as) :
    current (as ++ [a]) = current as := by
  unfold current
  rw [accepts_append h]
  cases h_n : accepts as with
  | zero => rfl
  | succ n =>
    have h_not : overBy a ≠ some n := fun h_eq => h_over n h_eq h_n.symm
    have h_iff : Over (as ++ [a]) n ↔ Over as n := by rw [over_append, or_iff_left h_not]
    simp only [h_iff]

/-! ### The invariant -/

/-- The accepts that are complete. -/
def State.served (s : State) : ℕ :=
  match s.tcpip with
  | .accept _ | .store _ => s.conns - 1
  | _ => s.conns

/-- `relay_client` at each place of the network thread. -/
def Client (as : List Action) (s : State) : Prop :=
  match s.tcpip with
  | .loop => s.relayClient = current as
  | .clear c => c < s.conns ∧ Over as c ∧ (c + 1 ≠ s.conns → s.relayClient = current as)
  | .accept c | .store c => c + 1 = s.conns ∧ ¬ Over as c

/-- The state after the actions. -/
structure Tracks (as : List Action) (s : State) : Prop where
  conns : s.conns = accepts as
  ended : ∀ c, Over as c → c < s.conns
  sigil : s.clientSigil = u32 s.served
  arg : ∀ c < s.served, s.arg c = u32 (c + 1)
  client : Client as s

/-- The numbers of two connections differ as long as there are fewer than 2^32. -/
theorem Tracks.arg_eq_iff (h : Tracks as s) (h_accepts : accepts as < 2 ^ 32) {c : ℕ}
    (hc : c < s.served) : s.arg c = s.clientSigil ↔ c + 1 = s.served := by
  have h_le : s.served ≤ s.conns := by
    unfold State.served
    split <;> omega
  have h_conns := h.conns
  rw [h.arg c hc, h.sigil]
  unfold u32
  omega

/-- What the callbacks work on. -/
structure Same (s s' : State) : Prop where
  relayClient : s'.relayClient = s.relayClient
  clientSigil : s'.clientSigil = s.clientSigil
  tcpip : s'.tcpip = s.tcpip
  conns : s'.conns = s.conns
  arg : s'.arg = s.arg

/-- An action that is no news about the connections. -/
theorem Tracks.same (h : Tracks as s) (h_same : Same s s') (h_accept : a ≠ .accept)
    (h_over : overBy a = none) : Tracks (as ++ [a]) s' := by
  obtain ⟨h_client, h_sigil, h_tcpip, h_conns, h_arg⟩ := h_same
  have h_served : s'.served = s.served := by rw [State.served, h_tcpip, h_conns, State.served]
  have h_iff (c : Conn) : Over (as ++ [a]) c ↔ Over as c := by simp [over_append, h_over]
  have h_current : current (as ++ [a]) = current as :=
    current_append h_accept (by simp [h_over])
  refine ⟨by rw [h_conns, h.conns, accepts_append h_accept], fun c hc => ?_,
    by rw [h_sigil, h.sigil, h_served], fun c hc => ?_, ?_⟩
  · rw [h_conns]
    exact h.ended c ((h_iff c).mp hc)
  · rw [h_arg, h.arg c (h_served ▸ hc)]
  · have h_old := h.client
    unfold Client at h_old ⊢
    simpa only [h_tcpip, h_conns, h_client, h_current, h_iff] using h_old

/-- A connection is accepted. -/
theorem Tracks.accept (h : Tracks as s) (h_loop : s.tcpip = .loop) :
    Tracks (as ++ [.accept]) { s with tcpip := .accept s.conns, conns := s.conns + 1 } := by
  have h_served : s.served = s.conns := by rw [State.served, h_loop]
  have h_iff (c : Conn) : Over (as ++ [.accept]) c ↔ Over as c := by simp [over_append, overBy]
  refine ⟨by rw [accepts_accept, h.conns], fun c hc => ?_, ?_, fun c hc => ?_, rfl, fun h_new => ?_⟩
  · exact Nat.lt_succ_of_lt (h.ended c ((h_iff c).mp hc))
  · rw [h.sigil, h_served]
    rfl
  · exact h.arg c (h_served ▸ hc)
  · -- a connection that is new cannot be over
    exact absurd (h.ended _ ((h_iff _).mp h_new)) (Nat.lt_irrefl _)

/-- A connection is over. -/
theorem Tracks.ends (h : Tracks as s) (h_loop : s.tcpip = .loop) (hc : c < s.conns)
    (h_over : overBy a = some c) : Tracks (as ++ [a]) { s.kill c with tcpip := .clear c } := by
  have h_accept : a ≠ .accept := by
    rintro rfl
    exact absurd h_over (by simp [overBy])
  have h_served : s.served = s.conns := by rw [State.served, h_loop]
  refine ⟨by rw [accepts_append h_accept]; exact h.conns, fun d hd => ?_, ?_, fun d hd => ?_, hc,
    over_append.mpr (Or.inr h_over), fun h_old => ?_⟩
  -- a connection has ended before, or ends now
  · rcases over_append.mp hd with hd | hd
    · exact h.ended d hd
    · obtain rfl := Option.some.inj (h_over.symm.trans hd)
      exact hc
  · rw [State.served]
    exact h.sigil.trans (congrArg _ (congrArg _ h_served))
  · exact h.arg d (h_served ▸ hd)
  · have h_client := h.client
    rw [Client, h_loop] at h_client
    rw [current_append h_accept fun d hd => ?_]
    · exact h_client
    · obtain rfl := Option.some.inj (h_over.symm.trans hd)
      rwa [← h.conns]

/-- The rest of a callback is no news about the connections. -/
theorem Tracks.next (h : Tracks as s) (h_conns : s'.conns = s.conns)
    (h_sigil : s'.clientSigil = u32 s'.served) (h_arg : ∀ c < s'.served, s'.arg c = u32 (c + 1))
    (h_client : Client as s') : Tracks (as ++ [.tcpip]) s' := by
  have h_iff (c : Conn) : Over (as ++ [.tcpip]) c ↔ Over as c := by simp [over_append, overBy]
  have h_current : current (as ++ [.tcpip]) = current as :=
    current_append (by simp) (by simp [overBy])
  refine ⟨?_, fun c hc => ?_, h_sigil, h_arg, ?_⟩
  · rw [h_conns, h.conns, accepts_append (by simp)]
  · rw [h_conns]
    exact h.ended c ((h_iff c).mp hc)
  · unfold Client at h_client ⊢
    simpa only [h_current, h_iff] using h_client

/-- The end of `client_recv` and `client_err`. -/
theorem Tracks.clear (h : Tracks as s) (h_accepts : accepts as < 2 ^ 32)
    (h_pc : s.tcpip = .clear c) :
    Tracks (as ++ [.tcpip]) { s with
      relayClient := if s.arg c = s.clientSigil then none else s.relayClient, tcpip := .loop } := by
  have h_client := h.client
  rw [Client, h_pc] at h_client
  obtain ⟨h_c, h_c_over, h_old⟩ := h_client
  have h_served : s.served = s.conns := by rw [State.served, h_pc]
  -- the generation tells whether the connection that is over is the newest
  have h_arg := h.arg_eq_iff h_accepts (c := c) (h_served ▸ h_c)
  rw [h_served] at h_arg
  refine h.next rfl (h.sigil.trans (congrArg _ (congrArg _ h_served)))
    (fun d hd => h.arg d (h_served ▸ hd)) ?_
  show (if s.arg c = s.clientSigil then none else s.relayClient) = current as
  split_ifs with h_eq
  · exact (current_of_over h_c_over ((h_arg.mp h_eq).trans h.conns)).symm
  · exact h_old fun h_last => h_eq (h_arg.mpr h_last)

/-- `tcp_close` of the old connection changes neither the variables nor the new connection. -/
theorem Tracks.close (h : Tracks as s) (h_pc : s.tcpip = .accept c) (dead : Conn → Bool) :
    Tracks (as ++ [.tcpip]) { s with dead := dead, tcpip := .store c } := by
  have h_client := h.client
  rw [Client, h_pc] at h_client
  have h_served : s.served = s.conns - 1 := by rw [State.served, h_pc]
  exact h.next rfl (h.sigil.trans (congrArg _ (congrArg _ h_served)))
    (fun d hd => h.arg d (h_served ▸ hd)) h_client

/-- The end of `relay_accept`. -/
theorem Tracks.store (h : Tracks as s) (h_pc : s.tcpip = .store c) :
    Tracks (as ++ [.tcpip]) { s with
      relayClient := some c, clientSigil := u32 (s.clientSigil + 1)
      arg := Function.update s.arg c (u32 (s.clientSigil + 1)), tcpip := .loop } := by
  have h_client := h.client
  rw [Client, h_pc] at h_client
  obtain ⟨h_last, h_alive⟩ := h_client
  have h_served : s.served = s.conns - 1 := by rw [State.served, h_pc]
  -- the new generation is the number of the accepts, and no older connection has it
  have h_sigil : u32 (s.clientSigil + 1) = u32 s.conns := by
    have h_pred : s.conns - 1 + 1 = s.conns := by rw [← h_last]; rfl
    rw [h.sigil, h_served]
    unfold u32
    omega
  refine h.next rfl h_sigil (fun d hd => ?_) ?_
  · show Function.update s.arg c (u32 (s.clientSigil + 1)) d = u32 (d + 1)
    by_cases h_eq : d = c
    · rw [h_eq, Function.update_self, h_sigil, ← h_last, Nat.cast_add, Nat.cast_one]
    · rw [Function.update_of_ne h_eq]
      have h_lt : d < c + 1 := hd.trans_eq h_last.symm
      exact h.arg d ((Nat.lt_of_le_of_ne (Nat.le_of_lt_succ h_lt) h_eq).trans_eq
        (h_served.trans (by rw [← h_last]; rfl)).symm)
  · exact (current_of_not_over h_alive (h_last.trans h.conns)).symm

theorem Tracks.step (h : Tracks as s) (h_accepts : accepts as < 2 ^ 32)
    (hn : s.next a = some s') : Tracks (as ++ [a]) s' := by
  cases step_of_next hn with
  | push | flush | post | main | execute | data | abort =>
    exact h.same ⟨rfl, rfl, rfl, rfl, rfl⟩ (by simp) rfl
  | accept h_loop => exact h.accept h_loop
  -- the callback has begun; `relay_client` is cleared by its next step
  | fin h_loop hc | err h_loop hc => exact h.ends h_loop hc rfl
  | clear h_pc => exact h.clear h_accepts h_pc
  | close h_pc | first h_pc => exact h.close h_pc _
  | store h_pc => exact h.store h_pc

theorem accepts_le (as : List Action) (a : Action) : accepts as ≤ accepts (as ++ [a]) := by
  rw [accepts, accepts, List.count_append]
  exact Nat.le_add_right _ _

/-- **Runs.** -/
theorem tracks_of_path (h : machine.Path (fun _ _ => True) machine.init as s)
    (h_accepts : accepts as < 2 ^ 32) : Tracks as s := by
  have h_init : Tracks [] machine.init :=
    ⟨rfl, fun c hc => absurd hc (by simp [Over]), rfl,
      fun c hc => absurd hc (Nat.not_lt_zero c), rfl⟩
  refine h.history (I := fun as s => accepts as < 2 ^ 32 → Tracks as s)
    (fun bs s a s' hI _ hn h_lt => ?_) (fun _ => h_init) h_accepts
  have h_before := (accepts_le bs a).trans_lt h_lt
  exact (hI h_before).step h_before hn

/-! ### Superseded connections -/

/-- Only data of the newest connection are written to the serial port. -/
theorem Tracks.serial (h : Tracks as s) (h_accepts : accepts as < 2 ^ 32)
    (hn : s.next a = some s') :
    s'.serial = s.serial ∨
      ∃ c bytes, a = .data c bytes ∧ c + 1 = accepts as ∧ s'.serial = s.serial ++ bytes := by
  cases step_of_next hn with
  | data h_loop hc h_arg =>
    -- the generation of the connection is the newest one
    have h_served : s.served = s.conns := by rw [State.served, h_loop]
    have h_last := (h.arg_eq_iff h_accepts (h_served ▸ hc)).mp h_arg
    exact Or.inr ⟨_, _, rfl, h_last.trans (h_served.trans h.conns), rfl⟩
  | _ => exact Or.inl rfl

/-- The callbacks of a superseded connection leave `relay_client` alone. -/
theorem Tracks.superseded (h : Tracks as s) (h_accepts : accepts as < 2 ^ 32)
    (hn : s.next a = some s') (h_callback : s.callbackOf a = some c) (h_old : c + 1 < accepts as) :
    s'.relayClient = s.relayClient := by
  cases step_of_next hn with
  | data | abort | fin | err => rfl
  | @clear d h_pc =>
    -- the generation of an old connection differs from `client_sigil`
    simp only [State.callbackOf, h_pc, Option.some.injEq] at h_callback
    subst h_callback
    have h_served : s.served = accepts as := by rw [State.served, h_pc, h.conns]
    have h_lt : d < s.served := (Nat.lt_of_succ_lt h_old).trans_eq h_served.symm
    have h_ne : s.arg d ≠ s.clientSigil := fun h_eq =>
      h_old.ne (((h.arg_eq_iff h_accepts h_lt).mp h_eq).trans h_served)
    exact if_neg h_ne
  | close h_pc | first h_pc | store h_pc =>
    exact absurd h_callback (by simp [State.callbackOf, h_pc])
  | push | flush | post | main | execute | accept =>
    exact absurd h_callback (by simp [State.callbackOf])

/-- **The newest connection.** In every run with fewer than 2^32 accepts, whenever no callback is
running, `relay_client` is the connection accepted last, unless that one is over. A callback of a
connection that was superseded leaves it as it is, and only data of the newest connection are
written to the serial port. -/
theorem relay_client_newest (h : machine.Path (fun _ _ => True) machine.init as s)
    (h_accepts : accepts as < 2 ^ 32) :
    (s.tcpip = .loop → s.relayClient = current as) ∧
      ∀ a s', s.next a = some s' →
        (∀ c, s.callbackOf a = some c → c + 1 < accepts as → s'.relayClient = s.relayClient) ∧
        (s'.serial = s.serial ∨
          ∃ c bytes, a = .data c bytes ∧ c + 1 = accepts as ∧
            s'.serial = s.serial ++ bytes) := by
  have h_tracks := tracks_of_path h h_accepts
  refine ⟨fun h_loop => ?_, fun a s' hn => ⟨fun c h_callback h_old => ?_, ?_⟩⟩
  · have h_client := h_tracks.client
    rwa [Client, h_loop] at h_client
  · exact h_tracks.superseded h_accepts hn h_callback h_old
  · exact h_tracks.serial h_accepts hn

/-- The first connection is replaced, and its end is reported after that. -/
def replaced : List Action :=
  [Action.accept, .tcpip, .tcpip, .accept, .tcpip, .tcpip, .fin 0, .tcpip, .data 1 [0x24]]

theorem relay_client_newest_replaced :
    (machine.after (fun _ _ => True) replaced).relayClient = some 1 ∧
      current replaced = some 1 := by
  have h_path : machine.Path (fun _ _ => True) machine.init replaced
      (machine.after (fun _ _ => True) replaced) := machine.path_of_exec _ rfl
  exact ⟨(relay_client_newest h_path (by decide)).1 rfl, by decide⟩

end Relay

end Laureline
