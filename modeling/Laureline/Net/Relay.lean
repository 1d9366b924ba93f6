import Laureline.Lib.Machine
import Laureline.Lib.CInt

/-!
# The GPS relay

`relay.c`: the main thread hands bytes from the GPS to `relay_push` and `relay_flush`, which
write to the connection in `relay_client` by messages to the network thread; the network
thread accepts connections and gets their data, their end and their errors. The two threads
are cut at every access to `relay_client` and at the message; a callback is cut where it
closes a connection and where it stores `relay_client`.

A connection is the number of its `accept`. It is dead from the moment at which the network
thread closes or aborts it, or at which lwIP reports an error on it (lwIP frees it then).

* `relay_executes_alive` — under which condition (`Held`, `Fresh`) no message is executed for
  a dead connection;
* `relay_executes_dead` — a connection that is closed while a message for it is queued.
-/

namespace Laureline

namespace Relay

/-- A connection. -/
abbrev Conn := ℕ

/-- `sizeof(rbuf)`. -/
def rbufSize : ℕ := 16

/-- The two functions that the main thread runs. -/
inductive Caller
  | push
  | flush
deriving DecidableEq, Repr

/-- Where the main thread is. -/
inductive MainPc
  | out
  /-- `if (relay_client && rbuf_len != 0)` in `rbuf_flush`. -/
  | writeTest (k : Caller)
  /-- The argument `relay_client` of `api_tcp_write`. -/
  | writeArg (k : Caller)
  /-- In `api_tcp_write`. -/
  | writeWait (k : Caller)
  /-- `rbuf_len = 0`. -/
  | clear (k : Caller)
  /-- `if (relay_client && needs_flush)`. -/
  | outputTest
  /-- The argument `relay_client` of `api_tcp_output`. -/
  | outputArg
  /-- In `api_tcp_output`. -/
  | outputWait
  /-- `needs_flush = 0`. -/
  | flushed
deriving DecidableEq, Repr

/-- A message of the main thread. A null `pcb` is `none`. -/
inductive Msg
  | write (pcb : Option Conn) (data : List UInt8)
  | output (pcb : Option Conn)
deriving DecidableEq, Repr

/-- The connection a message is for. -/
def Msg.pcb : Msg → Option Conn
  | .write pcb _ => pcb
  | .output pcb => pcb

/-- Where the network thread is. -/
inductive TcpipPc
  | loop
  /-- `client_recv` after `tcp_close`, or `client_err`: the comparison with `client_sigil`. -/
  | clear (c : Conn)
  /-- `relay_accept`: `if (relay_client != NULL) tcp_close(relay_client)`. -/
  | accept (c : Conn)
  /-- `relay_accept`: `relay_client = pcb` and what follows. -/
  | store (c : Conn)
deriving DecidableEq, Repr

/-- The variables of `relay.c`, the two threads and the connections. -/
structure State where
  relayClient : Option Conn
  clientSigil : ℕ
  rbuf : List UInt8
  needsFlush : Bool
  main : MainPc
  /-- The message in the queue. -/
  msg : Option Msg
  tcpip : TcpipPc
  /-- The number of connections that were accepted. -/
  conns : ℕ
  /-- `tcp_arg` of each. -/
  arg : Conn → ℕ
  /-- The bytes written to `gps_serial`. -/
  serial : List UInt8
  -- history variables
  /-- The connection was closed, aborted or reported in error. -/
  dead : Conn → Bool
  /-- The messages executed, each with whether its connection was dead. -/
  executed : List (Msg × Bool)

/-- What the two threads and the clients do. -/
inductive Action
  /-- The main thread calls `relay_push`. -/
  | push (val : UInt8)
  /-- The main thread calls `relay_flush`. -/
  | flush
  /-- The next access of the main thread. -/
  | main
  /-- `api_accept` of the message. -/
  | execute
  /-- A client connects. -/
  | accept
  /-- `client_recv` with data. -/
  | data (c : Conn) (bytes : List UInt8)
  /-- `client_recv` with a null pointer: the client has closed the connection. -/
  | fin (c : Conn)
  /-- lwIP gives up a connection and calls `client_err`. -/
  | err (c : Conn)
  /-- The rest of a callback. -/
  | tcpip
deriving DecidableEq, Repr

namespace State

variable (s : State)

/-- A connection is over. -/
def kill (c : Conn) : State := { s with dead := Function.update s.dead c true }

/-- `relay_push`. -/
def push (val : UInt8) : State :=
  let rbuf := if s.rbuf.length < rbufSize then s.rbuf ++ [val] else s.rbuf
  { s with
    needsFlush := true, rbuf
    main := if rbuf.length = rbufSize then .writeTest .push else .out }

/-- The next access of the main thread. -/
def mainNext : Option State :=
  match s.main with
  | .out => none
  | .writeTest k =>
    some { s with main := if s.relayClient.isSome ∧ s.rbuf ≠ [] then .writeArg k else .clear k }
  | .writeArg k => some { s with msg := some (.write s.relayClient s.rbuf), main := .writeWait k }
  | .writeWait k => if s.msg = none then some { s with main := .clear k } else none
  | .clear .push => some { s with rbuf := [], main := .out }
  | .clear .flush => some { s with rbuf := [], main := .outputTest }
  | .outputTest =>
    some { s with main := if s.relayClient.isSome ∧ s.needsFlush then .outputArg else .flushed }
  | .outputArg => some { s with msg := some (.output s.relayClient), main := .outputWait }
  | .outputWait => if s.msg = none then some { s with main := .flushed } else none
  | .flushed => some { s with needsFlush := false, main := .out }

/-- The message is executed. -/
def execute (m : Msg) : State :=
  { s with msg := none, executed := s.executed ++ [(m, (m.pcb.map s.dead).getD false)] }

/-- `client_recv` with data. A superseded connection is aborted. -/
def data (c : Conn) (bytes : List UInt8) : State :=
  if s.arg c = s.clientSigil then { s with serial := s.serial ++ bytes } else s.kill c

/-- The rest of a callback. -/
def tcpipNext : Option State :=
  match s.tcpip with
  | .loop => none
  | .clear c =>
    some { s with
      relayClient := if s.arg c = s.clientSigil then none else s.relayClient, tcpip := .loop }
  | .accept c =>
    match s.relayClient with
    | some d => some { s.kill d with tcpip := .store c }
    | none => some { s with tcpip := .store c }
  | .store c =>
    let sigil := u32 (s.clientSigil + 1)
    some { s with
      relayClient := some c, clientSigil := sigil, arg := Function.update s.arg c sigil
      tcpip := .loop }

/-- The successor under an action. -/
def next (s : State) : Action → Option State
  | .push val => if s.main = .out then some (s.push val) else none
  | .flush => if s.main = .out then some { s with main := .writeTest .flush } else none
  | .main => s.mainNext
  | .execute =>
    match s.tcpip, s.msg with
    | .loop, some m => some (s.execute m)
    | _, _ => none
  | .accept =>
    if s.tcpip = .loop then some { s with tcpip := .accept s.conns, conns := s.conns + 1 } else none
  | .data c bytes => if s.tcpip = .loop ∧ c < s.conns then some (s.data c bytes) else none
  | .fin c =>
    if s.tcpip = .loop ∧ c < s.conns then some { s.kill c with tcpip := .clear c } else none
  | .err c =>
    if s.tcpip = .loop ∧ c < s.conns then some { s.kill c with tcpip := .clear c } else none
  | .tcpip => s.tcpipNext

end State

/-- Before the first connection. -/
def start : State where
  relayClient := none
  clientSigil := 0
  rbuf := []
  needsFlush := false
  main := .out
  msg := none
  tcpip := .loop
  conns := 0
  arg _ := 0
  serial := []
  dead _ := false
  executed := []

/-- The main thread and the network thread. -/
def machine : Machine State Action := { init := start, next := State.next }

/-! ### Messages for connections that are over -/

/-- No message was executed for a dead connection. -/
def AliveOnly (s : State) : Prop := ∀ e ∈ s.executed, e.2 = false

/-- The connection that the main thread has read for a message not yet executed. -/
def State.pending (s : State) : Option Conn := s.msg.bind Msg.pcb

/-- The connection that an action closes, aborts or reports in error. -/
def ends (s : State) : Action → Option Conn
  | .fin c | .err c => some c
  | .data c _ => if s.arg c = s.clientSigil then none else some c
  | .tcpip =>
    match s.tcpip with
    | .accept _ => s.relayClient
    | _ => none
  | _ => none

/-- The main thread reads `relay_client` for a message. -/
def reads (s : State) : Action → Bool
  | .main =>
    match s.main with
    | .writeArg _ | .outputArg => true
    | _ => false
  | _ => false

/-- No connection ends while there is a message for it. -/
def Held (s : State) (a : Action) : Prop := ∀ c, ends s a = some c → s.pending ≠ some c

/-- The main thread does not read a dead connection from `relay_client`. -/
def Fresh (s : State) (a : Action) : Prop :=
  reads s a = true → ∀ c, s.relayClient = some c → s.dead c = false

instance (s : State) (a : Action) : Decidable (Held s a) :=
  inferInstanceAs (Decidable (∀ c ∈ ends s a, s.pending ≠ some c))

instance (s : State) (a : Action) : Decidable (Fresh s a) :=
  inferInstanceAs (Decidable (reads s a = true → ∀ c ∈ s.relayClient, s.dead c = false))

/-- What a step does. -/
inductive Step (s : State) : Action → State → Prop
  | push {val : UInt8} : Step s (.push val) (s.push val)
  | flush : Step s .flush { s with main := .writeTest .flush }
  -- the main thread: the argument of a message, and the other accesses
  | post {m : Msg} {pc : MainPc} (h_reads : reads s .main = true) (hp : m.pcb = s.relayClient) :
      Step s .main { s with msg := some m, main := pc }
  | main {pc : MainPc} {rbuf : List UInt8} {flush : Bool} (h_reads : reads s .main = false) :
      Step s .main { s with main := pc, rbuf := rbuf, needsFlush := flush }
  -- the loop of the network thread
  | execute {m : Msg} (h_loop : s.tcpip = .loop) (hm : s.msg = some m) :
      Step s .execute (s.execute m)
  | accept (h_loop : s.tcpip = .loop) :
      Step s .accept { s with tcpip := .accept s.conns, conns := s.conns + 1 }
  | data {c : Conn} {bytes : List UInt8} (h_loop : s.tcpip = .loop) (hc : c < s.conns)
      (h_arg : s.arg c = s.clientSigil) :
      Step s (.data c bytes) { s with serial := s.serial ++ bytes }
  | abort {c : Conn} {bytes : List UInt8} (h_loop : s.tcpip = .loop) (hc : c < s.conns)
      (h_arg : s.arg c ≠ s.clientSigil) : Step s (.data c bytes) (s.kill c)
  | fin {c : Conn} (h_loop : s.tcpip = .loop) (hc : c < s.conns) :
      Step s (.fin c) { s.kill c with tcpip := .clear c }
  | err {c : Conn} (h_loop : s.tcpip = .loop) (hc : c < s.conns) :
      Step s (.err c) { s.kill c with tcpip := .clear c }
  -- the rest of a callback
  | clear {c : Conn} (hpc : s.tcpip = .clear c) :
      Step s .tcpip { s with
        relayClient := if s.arg c = s.clientSigil then none else s.relayClient, tcpip := .loop }
  | close {c d : Conn} (hpc : s.tcpip = .accept c) (h_client : s.relayClient = some d) :
      Step s .tcpip { s.kill d with tcpip := .store c }
  | first {c : Conn} (hpc : s.tcpip = .accept c) (h_client : s.relayClient = none) :
      Step s .tcpip { s with tcpip := .store c }
  | store {c : Conn} (hpc : s.tcpip = .store c) :
      Step s .tcpip { s with
        relayClient := some c, clientSigil := u32 (s.clientSigil + 1)
        arg := Function.update s.arg c (u32 (s.clientSigil + 1)), tcpip := .loop }

theorem step_of_mainNext {s s' : State} (hn : s.mainNext = some s') : Step s .main s' := by
  cases hpc : s.main with
  | out => simp [State.mainNext, hpc] at hn
  | writeArg k | outputArg =>
    simp only [State.mainNext, hpc] at hn
    obtain rfl := Option.some.inj hn
    exact .post (by simp only [reads, hpc]) rfl
  | writeTest k | outputTest | flushed =>
    simp only [State.mainNext, hpc] at hn
    obtain rfl := Option.some.inj hn
    exact .main (by simp only [reads, hpc])
  | writeWait k | outputWait =>
    -- the message has been executed
    simp only [State.mainNext, hpc] at hn
    split_ifs at hn
    obtain rfl := Option.some.inj hn
    exact .main (by simp only [reads, hpc])
  | clear k =>
    cases k <;> simp only [State.mainNext, hpc] at hn <;> obtain rfl := Option.some.inj hn
    · exact .main (by simp only [reads, hpc])
    · exact .main (by simp only [reads, hpc])

theorem step_of_tcpipNext {s s' : State} (hn : s.tcpipNext = some s') : Step s .tcpip s' := by
  cases hpc : s.tcpip with
  | loop => simp [State.tcpipNext, hpc] at hn
  | clear c =>
    simp only [State.tcpipNext, hpc] at hn
    obtain rfl := Option.some.inj hn
    exact .clear hpc
  | store c =>
    simp only [State.tcpipNext, hpc] at hn
    obtain rfl := Option.some.inj hn
    exact .store hpc
  | accept c =>
    simp only [State.tcpipNext, hpc] at hn
    split at hn <;> obtain rfl := Option.some.inj hn
    · next d h_client => exact .close hpc h_client
    · next h_client => exact .first hpc h_client

/-- `next` does nothing else. -/
theorem step_of_next {s s' : State} {a : Action} (hn : s.next a = some s') : Step s a s' := by
  cases a with
  | push val =>
    simp only [State.next] at hn
    -- the main thread is outside of the module
    split_ifs at hn
    obtain rfl := Option.some.inj hn
    exact .push
  | flush =>
    simp only [State.next] at hn
    split_ifs at hn
    obtain rfl := Option.some.inj hn
    exact .flush
  | main => exact step_of_mainNext hn
  | execute =>
    simp only [State.next] at hn
    -- only a message in the queue can be executed, and only between callbacks
    split at hn
    · next h_loop hm =>
      obtain rfl := Option.some.inj hn
      exact .execute h_loop hm
    · exact absurd hn (by simp)
  | accept =>
    simp only [State.next] at hn
    split_ifs at hn with h_loop
    obtain rfl := Option.some.inj hn
    exact .accept h_loop
  | data c bytes =>
    simp only [State.next, State.data] at hn
    -- a connection whose argument is not the sigil is not the client any more
    split_ifs at hn with h_loop h_arg <;> obtain rfl := Option.some.inj hn
    · exact .data h_loop.1 h_loop.2 h_arg
    · exact .abort h_loop.1 h_loop.2 h_arg
  | fin c =>
    simp only [State.next] at hn
    split_ifs at hn with h_loop
    obtain rfl := Option.some.inj hn
    exact .fin h_loop.1 h_loop.2
  | err c =>
    simp only [State.next] at hn
    split_ifs at hn with h_loop
    obtain rfl := Option.some.inj hn
    exact .err h_loop.1 h_loop.2
  | tcpip => exact step_of_tcpipNext hn

/-- The message in the queue is for a connection that is alive. -/
def Inv (s : State) : Prop := AliveOnly s ∧ ∀ c, s.pending = some c → s.dead c = false

section Step

variable {s s' : State} {a : Action} {c : Conn}

theorem Inv.congr (h : Inv s) (he : s'.executed = s.executed) (hm : s'.msg = s.msg)
    (hd : s'.dead = s.dead) : Inv s' := by
  obtain ⟨h_alive, h_pending⟩ := h
  refine ⟨?_, fun c hc => ?_⟩
  · rw [AliveOnly, he]
    exact h_alive
  · rw [hd]
    exact h_pending c (by rw [← hc, State.pending, State.pending, hm])

theorem Inv.kill (h : Inv s) (h_not : s.pending ≠ some c) : Inv (s.kill c) := by
  refine ⟨h.1, fun d hd => ?_⟩
  have h_ne : d ≠ c := by
    rintro rfl
    exact h_not hd
  exact (Function.update_of_ne h_ne _ _).trans (h.2 d hd)

/-- A message for what `relay_client` holds. -/
theorem Inv.post (h : Inv s) (h_fresh : ∀ c, s.relayClient = some c → s.dead c = false) {m : Msg}
    (hp : m.pcb = s.relayClient) (he : s'.executed = s.executed) (hm : s'.msg = some m)
    (hd : s'.dead = s.dead) : Inv s' := by
  refine ⟨?_, fun c hc => ?_⟩
  · rw [AliveOnly, he]
    exact h.1
  · rw [State.pending, hm] at hc
    rw [hd]
    exact h_fresh c (hp.symm.trans hc)

theorem Inv.execute (h : Inv s) {m : Msg} (hm : s.msg = some m) : Inv (s.execute m) := by
  refine ⟨fun e he => ?_, fun c hc => absurd hc (by simp [State.pending, State.execute])⟩
  rcases List.mem_append.mp he with he | he
  · exact h.1 e he
  · rw [List.mem_singleton.mp he]
    cases hp : m.pcb with
    | none => rfl
    | some c =>
      have h_pending : s.pending = some c := by rw [State.pending, hm, Option.bind_some, hp]
      exact h.2 c h_pending

theorem Inv.step (h : Inv s) (h_held : Held s a) (h_fresh : Fresh s a)
    (hn : s.next a = some s') : Inv s' := by
  cases step_of_next hn with
  -- the message gets the connection that is read here
  | post h_reads hp => exact h.post (h_fresh h_reads) hp rfl rfl rfl
  | execute _ hm => exact h.execute hm
  -- no message is for the connection that ends
  | abort _ _ h_arg => exact h.kill (h_held _ (if_neg h_arg))
  | fin | err => exact (h.kill (h_held _ rfl)).congr rfl rfl rfl
  | @close _ d hpc h_client =>
    have h_kill := h.kill (h_held d (by simp only [ends, hpc, h_client]))
    exact h_kill.congr rfl rfl rfl
  -- the rest leaves the messages and the ends of the connections alone
  | push | flush | main | accept | data | clear | first | store => exact h.congr rfl rfl rfl

/-- **Messages for connections that are alive.** In every run in which no connection ends
while there is a message for it, and the main thread reads no dead connection from
`relay_client`, every message is executed for a connection that is alive. -/
theorem relay_executes_alive (h : machine.Reach (fun s a => Held s a ∧ Fresh s a) s) :
    AliveOnly s :=
  (h.invariant (I := Inv) ⟨fun _ he => absurd he List.not_mem_nil, fun _ hc => absurd hc (by
    simp [State.pending, machine, start])⟩ fun _ _ _ hI hG hn => hI.step hG.1 hG.2 hn).1

end Step

/-- A client is connected and `relay_push` fills `rbuf`: `api_tcp_write` posts its message. -/
def posted : List Action :=
  [Action.accept, .tcpip, .tcpip] ++ List.replicate rbufSize (Action.push 0) ++
    [Action.main, .main]

/-- The message is executed before the client closes the connection. -/
theorem relay_executes_alive_in_time :
    AliveOnly (machine.after (fun s a => Held s a ∧ Fresh s a)
      (posted ++ [Action.execute, .fin 0])) :=
  relay_executes_alive (machine.reach_after _ (by decide))

/-- The client closes the connection before the message is executed. -/
theorem relay_executes_dead :
    ¬ ∀ s, machine.Reach (fun _ _ => True) s → AliveOnly s := by
  intro h
  have h_reach : machine.Reach (fun _ _ => True)
      (machine.after (fun _ _ => True) (posted ++ [Action.fin 0, .tcpip, .execute])) :=
    machine.reach_after _ (by decide)
  have h_dead : (machine.after (fun _ _ => True)
      (posted ++ [Action.fin 0, .tcpip, .execute])).executed =
      [(.write (some 0) (List.replicate rbufSize 0), true)] := by
    decide
  exact absurd (h _ h_reach _ (h_dead ▸ List.mem_singleton_self _)) (by decide)

/-! ### The condition is needed -/

section Step

variable {s s' : State} {a : Action} {c : Conn}

/-- The network thread alone gets from any place to its loop. -/
theorem tcpip_returns (s : State) : ∃ as t, machine.Path (fun _ a => a = .tcpip) s as t ∧
    t.tcpip = .loop ∧ t.msg = s.msg ∧ ∀ c, s.dead c = true → t.dead c = true := by
  -- the last step of a callback
  have h_last (s : State) (c : Conn) (hpc : s.tcpip = .store c ∨ s.tcpip = .clear c) :
      ∃ t, s.next .tcpip = some t ∧ t.tcpip = .loop ∧ t.msg = s.msg ∧ t.dead = s.dead := by
    rcases hpc with hpc | hpc
    · simp only [State.next, State.tcpipNext, hpc]
      exact ⟨_, rfl, rfl, rfl, rfl⟩
    · simp only [State.next, State.tcpipNext, hpc]
      exact ⟨_, rfl, rfl, rfl, rfl⟩
  cases hpc : s.tcpip with
  | loop => exact ⟨_, s, .nil s, hpc, rfl, fun _ h => h⟩
  | clear c =>
    obtain ⟨t, hn, h_loop, h_msg, h_dead⟩ := h_last s c (.inr hpc)
    exact ⟨_, t, .cons rfl hn (.nil t), h_loop, h_msg, fun d hd => by rwa [h_dead]⟩
  | store c =>
    obtain ⟨t, hn, h_loop, h_msg, h_dead⟩ := h_last s c (.inl hpc)
    exact ⟨_, t, .cons rfl hn (.nil t), h_loop, h_msg, fun d hd => by rwa [h_dead]⟩
  | accept c =>
    obtain ⟨u, hu, h_pc, h_msg, h_dead⟩ : ∃ u, s.next .tcpip = some u ∧ u.tcpip = .store c ∧
        u.msg = s.msg ∧ ∀ d, s.dead d = true → u.dead d = true := by
      simp only [State.next, State.tcpipNext, hpc]
      split
      · next d _ =>
        refine ⟨_, rfl, rfl, rfl, fun e he => ?_⟩
        show Function.update s.dead d true e = true
        by_cases h_eq : e = d
        · rw [h_eq, Function.update_self]
        · rwa [Function.update_of_ne h_eq]
      · exact ⟨_, rfl, rfl, rfl, fun _ h => h⟩
    obtain ⟨t, hn, h_loop, h_msg', h_dead'⟩ := h_last u c (.inl h_pc)
    exact ⟨_, t, .cons rfl hu (.cons rfl hn (.nil t)), h_loop, h_msg'.trans h_msg,
      fun d hd => by rw [h_dead']; exact h_dead d hd⟩

/-- A message for a dead connection is executed if the network thread just goes on. -/
theorem executes_dead_of_pending (hc : s.pending = some c) (hd : s.dead c = true) :
    ∃ as t, machine.Path (fun _ a => a = .tcpip ∨ a = .execute) s as t ∧ ¬ AliveOnly t := by
  obtain ⟨as, t, h_path, h_loop, h_msg, h_dead⟩ := tcpip_returns s
  obtain ⟨m, hm, hp⟩ := Option.bind_eq_some_iff.mp hc
  have hn : t.next .execute = some (t.execute m) := by
    simp only [State.next, h_loop, h_msg, hm]
  refine ⟨as ++ [Action.execute], t.execute m, ?_, fun h_alive => ?_⟩
  · exact (h_path.mono fun _ _ h => .inl h).append (.cons (.inr rfl) hn (.nil _))
  · have h_last := h_alive (m, (m.pcb.map t.dead).getD false)
      (List.mem_append_right _ (List.mem_singleton.mpr rfl))
    rw [hp] at h_last
    exact absurd ((h_dead c hd).symm.trans h_last) (by decide)

/-- A step that ends a connection for which there is a message, or that reads a dead
connection, leaves a message for a dead connection. -/
theorem pending_of_violates (hn : s.next a = some s') (h_not : ¬ (Held s a ∧ Fresh s a)) :
    ∃ c, s'.pending = some c ∧ s'.dead c = true := by
  by_cases h_held : Held s a
  · -- the main thread reads a dead connection into a message
    have h_fresh : ¬ Fresh s a := fun h => h_not ⟨h_held, h⟩
    simp only [Fresh, not_forall, Bool.not_eq_false] at h_fresh
    obtain ⟨h_reads, c, h_client, h_dead⟩ := h_fresh
    cases step_of_next hn with
    | post _ hp => exact ⟨c, hp.trans h_client, h_dead⟩
    | main h_other => exact absurd (h_reads.symm.trans h_other) (by decide)
    | _ => exact absurd h_reads (by simp [reads])
  · -- the connection of the message ends
    simp only [Held, not_forall, not_not] at h_held
    obtain ⟨c, h_ends, h_pending⟩ := h_held
    refine ⟨c, ?_⟩
    cases step_of_next hn with
    | abort _ _ h_arg =>
      obtain rfl := Option.some.inj ((if_neg h_arg).symm.trans h_ends)
      exact ⟨h_pending, Function.update_self ..⟩
    | fin | err =>
      obtain rfl := Option.some.inj h_ends
      exact ⟨h_pending, Function.update_self ..⟩
    | close hpc h_client =>
      simp only [ends, hpc, h_client, Option.some.injEq] at h_ends
      subst h_ends
      exact ⟨h_pending, Function.update_self ..⟩
    | data _ _ h_arg => exact absurd h_ends (by simp [ends, h_arg])
    | clear hpc | store hpc => exact absurd h_ends (by simp [ends, hpc])
    | first hpc h_client => exact absurd h_ends (by simp [ends, hpc, h_client])
    | _ => exact absurd h_ends (by simp [ends])

/-- So after such a step a message for a dead connection can be executed. -/
theorem executes_dead_of_violates (hn : s.next a = some s') (h_not : ¬ (Held s a ∧ Fresh s a)) :
    ∃ as t, machine.Path (fun _ a => a = .tcpip ∨ a = .execute) s' as t ∧ ¬ AliveOnly t := by
  obtain ⟨c, h_pending, h_dead⟩ := pending_of_violates hn h_not
  exact executes_dead_of_pending h_pending h_dead

end Step

end Relay

end Laureline
