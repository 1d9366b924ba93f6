import Laureline.Net.Relay
import Mathlib.Data.List.Infix

/-!
# The stream of the relay

`relay_push` collects what the GPS sends in `rbuf`, and a full buffer goes to the client as one
piece. `given` is what a connection was handed so far, in the messages that were executed and in
the one that is queued; `held` is what is collected and not handed to anybody yet.

A connection gets one part of the stream without gaps (`relay_stream`): once `relay_client` has
held it and holds something else, it never holds it again (`Stored`). This needs no bound on the
number of connections.
-/

namespace Laureline

namespace Relay

/-- The bytes passed to `relay_push`. -/
def pushed (as : List Action) : List UInt8 :=
  as.flatMap fun
    | .push val => [val]
    | _ => []

/-- What a message writes to a connection. -/
def Msg.dataFor (c : Conn) : Msg → List UInt8
  | .write pcb data => if pcb = some c then data else []
  | .output _ => []

namespace State

/-- The bytes written to a connection. -/
def received (s : State) (c : Conn) : List UInt8 := s.executed.flatMap fun e => e.1.dataFor c

/-- The bytes written or about to be. -/
def given (s : State) (c : Conn) : List UInt8 :=
  s.received c ++ s.msg.toList.flatMap (Msg.dataFor c)

/-- The bytes that are not in a message yet. -/
def held (s : State) : List UInt8 :=
  match s.main with
  | .writeWait _ | .clear _ => []
  | _ => s.rbuf

end State

variable {as bs : List Action} {a : Action} {c : Conn} {s s' t : State}

theorem pushed_append (as bs : List Action) : pushed (as ++ bs) = pushed as ++ pushed bs :=
  List.flatMap_append

/-! ### What a step does to the stream -/

/-- The main thread's own variables. -/
structure Buffer (s : State) : Prop where
  size : s.rbuf.length ≤ rbufSize
  room : s.main = .out → s.rbuf.length < rbufSize
  empty : s.main = .outputTest ∨ s.main = .outputArg ∨ s.main = .outputWait ∨ s.main = .flushed →
    s.rbuf = []
  msg : s.msg ≠ none → (∃ k, s.main = .writeWait k) ∨ s.main = .outputWait

/-- What an action does to the bytes on their way. -/
inductive Stream (s : State) : Action → State → Prop
  /-- A byte is put in the buffer. -/
  | push {s' : State} {val : UInt8} (h_client : s'.relayClient = s.relayClient)
      (h_given : s'.given = s.given) (h_held : s'.held = s.held ++ [val]) : Stream s (.push val) s'
  /-- The buffer is handed to the client, or to nobody if there is no client. -/
  | piece {s' : State} (h_client : s'.relayClient = s.relayClient)
      (h_given : ∀ c, s'.given c = s.given c ++ if s.relayClient = some c then s.held else [])
      (h_held : s'.held = []) : Stream s .main s'
  | rest {s' : State} {a : Action} (h_push : pushed [a] = []) (h_given : s'.given = s.given)
      (h_held : s'.held = s.held) : Stream s a s'

/-- The network thread touches neither the buffer nor the messages. -/
theorem Buffer.rest (h : Buffer s) (h_executed : s'.executed = s.executed) (h_msg : s'.msg = s.msg)
    (h_main : s'.main = s.main) (h_rbuf : s'.rbuf = s.rbuf) (h_push : pushed [a] = []) :
    Buffer s' ∧ Stream s a s' := by
  refine ⟨⟨?_, ?_, ?_, ?_⟩, .rest h_push ?_ ?_⟩
  · exact h_rbuf ▸ h.size
  · rw [h_main, h_rbuf]
    exact h.room
  · rw [h_main, h_rbuf]
    exact h.empty
  · rw [h_main, h_msg]
    exact h.msg
  · funext c
    rw [State.given, State.given, State.received, State.received, h_executed, h_msg]
  · rw [State.held, State.held, h_main, h_rbuf]

theorem Buffer.push (h : Buffer s) (h_out : s.main = .out) (val : UInt8) :
    Buffer (s.push val) ∧ Stream s (.push val) (s.push val) := by
  have h_room := h.room h_out
  -- between two bytes no message is in the queue
  have h_msg : s.msg = none := by
    by_contra h_some
    obtain ⟨k, hk⟩ | hk := h.msg h_some <;> exact absurd (h_out.symm.trans hk) (by simp)
  have h_push : s.push val = { s with
      needsFlush := true, rbuf := s.rbuf ++ [val],
      main := if s.rbuf.length + 1 = rbufSize then .writeTest .push else .out } := by
    simp [State.push, h_room]
  rw [h_push]
  -- the last byte that fits starts the write
  by_cases h_full : s.rbuf.length + 1 = rbufSize
  · rw [if_pos h_full]
    refine ⟨⟨?_, by simp, by simp, fun h_some => absurd h_msg h_some⟩, .push rfl rfl ?_⟩
    · rw [List.length_append]
      exact h_full.le
    · simp [State.held, h_out]
  · rw [if_neg h_full]
    have h_less : (s.rbuf ++ [val]).length < rbufSize := by
      rw [List.length_append]
      exact lt_of_le_of_ne h_room h_full
    refine ⟨⟨h_less.le, fun _ => h_less, by simp, fun h_some => absurd h_msg h_some⟩,
      .push rfl rfl ?_⟩
    simp [State.held, h_out]

theorem Buffer.main (h : Buffer s) (hn : s.mainNext = some s') : Buffer s' ∧ Stream s .main s' := by
  -- a message is there only while the main thread waits for it
  have h_none (hw : ∀ k, s.main ≠ .writeWait k) (ho : s.main ≠ .outputWait) : s.msg = none := by
    by_contra h_some
    obtain ⟨k, hk⟩ | hk := h.msg h_some
    · exact hw k hk
    · exact ho hk
  cases h_main : s.main with
  | out => simp [State.mainNext, h_main] at hn
  | writeTest k =>
    have h_msg := h_none (by simp [h_main]) (by simp [h_main])
    simp only [State.mainNext, h_main] at hn
    obtain rfl := Option.some.inj hn
    split_ifs with h_client
    · exact ⟨⟨h.size, by simp, by simp, fun h_some => absurd h_msg h_some⟩,
        .rest rfl rfl (by simp [State.held, h_main])⟩
    · -- nothing to write, or nobody to write to
      refine ⟨⟨h.size, by simp, by simp, fun h_some => absurd h_msg h_some⟩,
        .piece rfl (fun c => ?_) rfl⟩
      show s.given c = s.given c ++ _
      split_ifs with hc
      · have h_empty : s.rbuf = [] := by
          by_contra h_ne
          exact h_client ⟨by rw [hc]; rfl, h_ne⟩
        simp [State.held, h_main, h_empty]
      · exact (List.append_nil _).symm
  | writeArg k =>
    -- the buffer goes into the message and counts as given from here on
    have h_msg := h_none (by simp [h_main]) (by simp [h_main])
    simp only [State.mainNext, h_main] at hn
    obtain rfl := Option.some.inj hn
    refine ⟨⟨h.size, by simp, by simp, fun _ => .inl ⟨k, rfl⟩⟩, .piece rfl (fun c => ?_) rfl⟩
    simp [State.given, State.received, Msg.dataFor, State.held, h_main, h_msg]
  | writeWait k =>
    -- the network thread has executed it
    simp only [State.mainNext, h_main] at hn
    split_ifs at hn with h_msg
    obtain rfl := Option.some.inj hn
    exact ⟨⟨h.size, by simp, by simp, fun h_some => absurd h_msg h_some⟩,
      .rest rfl rfl (by simp [State.held, h_main])⟩
  | clear k =>
    -- the buffer is emptied; a push goes on with its byte, a flush with the output
    have h_msg := h_none (by simp [h_main]) (by simp [h_main])
    cases k <;> simp only [State.mainNext, h_main] at hn <;> obtain rfl := Option.some.inj hn
    · exact ⟨⟨by simp, by simp [rbufSize], by simp, fun h_some => absurd h_msg h_some⟩,
        .rest rfl rfl (by simp [State.held, h_main])⟩
    · exact ⟨⟨by simp, by simp, by simp, fun h_some => absurd h_msg h_some⟩,
        .rest rfl rfl (by simp [State.held, h_main])⟩
  | outputTest =>
    have h_msg := h_none (by simp [h_main]) (by simp [h_main])
    have h_empty := h.empty (.inl h_main)
    simp only [State.mainNext, h_main] at hn
    obtain rfl := Option.some.inj hn
    split_ifs <;>
      exact ⟨⟨h.size, by simp, fun _ => h_empty, fun h_some => absurd h_msg h_some⟩,
        .rest rfl rfl (by simp [State.held, h_main])⟩
  | outputArg =>
    have h_msg := h_none (by simp [h_main]) (by simp [h_main])
    have h_empty := h.empty (.inr (.inl h_main))
    simp only [State.mainNext, h_main] at hn
    obtain rfl := Option.some.inj hn
    refine ⟨⟨h.size, by simp, fun _ => h_empty, fun _ => .inr rfl⟩, .rest rfl ?_ ?_⟩
    · funext c
      simp [State.given, State.received, Msg.dataFor, h_msg]
    · simp [State.held, h_main]
  | outputWait =>
    have h_empty := h.empty (.inr (.inr (.inl h_main)))
    simp only [State.mainNext, h_main] at hn
    split_ifs at hn with h_msg
    obtain rfl := Option.some.inj hn
    exact ⟨⟨h.size, by simp, fun _ => h_empty, fun h_some => absurd h_msg h_some⟩,
      .rest rfl rfl (by simp [State.held, h_main])⟩
  | flushed =>
    have h_msg := h_none (by simp [h_main]) (by simp [h_main])
    have h_empty := h.empty (.inr (.inr (.inr h_main)))
    simp only [State.mainNext, h_main] at hn
    obtain rfl := Option.some.inj hn
    refine ⟨⟨h.size, fun _ => ?_, by simp, fun h_some => absurd h_msg h_some⟩,
      .rest rfl rfl (by simp [State.held, h_main])⟩
    show s.rbuf.length < rbufSize
    rw [h_empty]
    exact Nat.succ_pos 15

theorem stream_of_next (h : Buffer s) (hn : s.next a = some s') : Buffer s' ∧ Stream s a s' := by
  cases a with
  | push val =>
    simp only [State.next] at hn
    split_ifs at hn with h_out
    obtain rfl := Option.some.inj hn
    exact h.push h_out val
  | main => exact h.main hn
  | flush =>
    simp only [State.next] at hn
    split_ifs at hn with h_out
    obtain rfl := Option.some.inj hn
    refine ⟨⟨h.size, by simp, by simp, fun h_some => ?_⟩,
      .rest rfl rfl (by simp [State.held, h_out])⟩
    obtain ⟨k, hk⟩ | hk := h.msg h_some <;> exact absurd (h_out.symm.trans hk) (by simp)
  | execute =>
    -- the write has the bytes of the buffer, which is emptied when it returns
    cases step_of_next hn with
    | @execute m h_loop hm =>
      refine ⟨⟨h.size, h.room, h.empty, fun h_some => absurd rfl h_some⟩, .rest rfl ?_ rfl⟩
      funext c
      simp [State.given, State.received, State.execute, hm]
  | accept | data | fin | err =>
    -- the callbacks touch `relay_client` only
    cases step_of_next hn <;> exact h.rest rfl rfl rfl rfl rfl
  | tcpip => cases step_of_next hn <;> exact h.rest rfl rfl rfl rfl rfl

/-! ### Connections come and go -/

/-- `relay_client` was set to the connection, if it ever will be. -/
structure Stored (c : Conn) (s : State) : Prop where
  lt : c < s.conns
  accept : s.tcpip ≠ .accept c
  store : s.tcpip ≠ .store c

/-- A connection comes to `relay_client` once. -/
theorem Stored.step (h : Stored c s) (hn : s.next a = some s') :
    Stored c s' ∧ (s'.relayClient = some c → s.relayClient = some c) := by
  obtain ⟨h_lt, h_accept, h_store⟩ := h
  cases step_of_next hn with
  | push | flush | post | main | execute | data | abort => exact ⟨⟨h_lt, h_accept, h_store⟩, id⟩
  | accept =>
    -- a new connection has a new number
    refine ⟨⟨Nat.lt_succ_of_lt h_lt, ?_, by simp⟩, id⟩
    rw [ne_eq, TcpipPc.accept.injEq]
    exact h_lt.ne'
  | fin | err => exact ⟨⟨h_lt, by simp, by simp⟩, id⟩
  | clear =>
    -- the client can only become null
    refine ⟨⟨h_lt, by simp, by simp⟩, fun h_client => ?_⟩
    dsimp only at h_client
    split_ifs at h_client
    exact h_client
  | @close d e h_pc h_client | @first d h_pc h_client =>
    refine ⟨⟨h_lt, by simp, ?_⟩, id⟩
    rw [ne_eq, TcpipPc.store.injEq]
    rintro rfl
    exact h_accept h_pc
  | @store d h_pc =>
    -- the only step that sets a client, and it is for another connection
    refine ⟨⟨h_lt, by simp, by simp⟩, fun h_client => ?_⟩
    obtain rfl := Option.some.inj h_client
    exact absurd h_pc h_store

/-- The numbers in use. -/
structure Clients (s : State) : Prop where
  client : ∀ c, s.relayClient = some c → Stored c s
  tcpip : ∀ c, s.tcpip = .accept c ∨ s.tcpip = .store c → c < s.conns

theorem Clients.step (h : Clients s) (hn : s.next a = some s') : Clients s' := by
  refine ⟨?_, ?_⟩
  · intro c hc
    -- a client that was there is kept; a new one comes from `relay_accept`
    by_cases h_before : s.relayClient = some c
    · exact ((h.client c h_before).step hn).1
    · cases step_of_next hn with
      | push | flush | post | main | execute | data | abort | accept | fin | err | close | first =>
        exact absurd hc h_before
      | clear =>
        -- a connection that has died can only clear the client
        dsimp only at hc
        split_ifs at hc
        exact absurd hc h_before
      | store h_pc =>
        obtain rfl := Option.some.inj hc
        exact ⟨h.tcpip _ (.inr h_pc), by simp, by simp⟩
  · intro c hc
    cases step_of_next hn with
    | push | flush | post | main | execute | data | abort => exact h.tcpip c hc
    | fin | err | clear | store => exact absurd hc (by simp)
    | accept =>
      obtain hc | hc := hc
      · obtain rfl := TcpipPc.accept.inj hc
        exact Nat.lt_succ_self _
      · exact absurd hc (by simp)
    | close h_pc | first h_pc =>
      obtain hc | hc := hc
      · exact absurd hc (by simp)
      · obtain rfl := TcpipPc.store.inj hc
        exact h.tcpip _ (.inl h_pc)

/-! ### Runs -/

/-- The stream so far: what was taken from the buffer, and what is in it. -/
structure Streamed (as : List Action) (s : State) : Prop where
  buffer : Buffer s
  clients : Clients s
  stored : ∀ c, s.given c ≠ [] → Stored c s
  split : ∃ out, pushed as = out ++ s.held ∧
    ∀ c, s.given c <:+ out ∨ s.relayClient ≠ some c ∧ s.given c <:+: out

theorem Streamed.stored_step (h : Streamed as s) (hn : s.next a = some s')
    (h_stream : Stream s a s') (c : Conn) (h_given : s'.given c ≠ []) : Stored c s' := by
  have h_before : s.given c ≠ [] ∨ s.relayClient = some c := by
    by_contra h_neither
    rw [not_or, not_not] at h_neither
    refine h_given ?_
    cases h_stream with
    | push _ h_same => rw [h_same, h_neither.1]
    | piece _ h_piece => rw [h_piece, h_neither.1, if_neg h_neither.2, List.nil_append]
    | rest _ h_same => rw [h_same, h_neither.1]
  obtain h_ne | h_client := h_before
  · exact ((h.stored c h_ne).step hn).1
  · exact ((h.clients.client c h_client).step hn).1

theorem Streamed.step (h : Streamed as s) (hn : s.next a = some s') : Streamed (as ++ [a]) s' := by
  obtain ⟨h_buffer, h_stream⟩ := stream_of_next h.buffer hn
  have h_stored := h.stored_step hn h_stream
  obtain ⟨out, h_out, h_part⟩ := h.split
  refine ⟨h_buffer, h.clients.step hn, h_stored, ?_⟩
  rw [pushed_append, h_out]
  cases h_stream with
  | push h_client h_given h_held =>
    refine ⟨out, ?_, ?_⟩
    · rw [h_held, List.append_assoc]
      rfl
    · rw [h_given, h_client]
      exact h_part
  | piece h_client h_given h_held =>
    refine ⟨out ++ s.held, by rw [h_held]; rfl, fun c => ?_⟩
    rw [h_given, h_client]
    by_cases hc : s.relayClient = some c
    · -- the connection gets this piece behind the one before
      rw [if_pos hc]
      obtain ⟨l, rfl⟩ := (h_part c).resolve_right fun h_not => h_not.1 hc
      exact .inl ⟨l, (List.append_assoc ..).symm⟩
    · rw [if_neg hc, List.append_nil]
      refine .inr ⟨hc, ?_⟩
      have h_infix : s.given c <:+: out := (h_part c).elim List.IsSuffix.isInfix And.right
      exact h_infix.trans (List.prefix_append out s.held).isInfix
  | rest h_push h_given h_held =>
    refine ⟨out, by rw [h_push, h_held, List.append_nil], fun c => ?_⟩
    rw [h_given]
    obtain h_suffix | ⟨h_not, h_infix⟩ := h_part c
    · exact .inl h_suffix
    · by_cases h_none : s.given c = []
      · rw [h_none]
        exact .inl List.nil_suffix
      · -- a connection that has got something does not come back
        have h_back := ((h.stored c h_none).step hn).2
        exact .inr ⟨fun h_client => h_not (h_back h_client), h_infix⟩

theorem streamed_start : Streamed [] start where
  buffer := ⟨Nat.zero_le _, fun _ => Nat.succ_pos 15, fun _ => rfl, fun h => absurd rfl h⟩
  clients := ⟨fun c hc => absurd hc (by simp [start]), fun c hc => absurd hc (by simp [start])⟩
  stored c hc := absurd rfl hc
  split := ⟨[], rfl, fun _ => .inl List.suffix_rfl⟩

theorem streamed_of_path (h : machine.Path (fun _ _ => True) machine.init as s) : Streamed as s :=
  h.history (I := Streamed) (fun _ _ _ _ hI _ hn => hI.step hn) streamed_start

/-! ### While a connection is served -/

/-- What came since is handed to the connection or in the buffer. -/
structure Served (c : Conn) (bs : List Action) (s : State) : Prop where
  buffer : Buffer s
  stored : Stored c s
  all : s.relayClient = some c → pushed bs <:+ s.given c ++ s.held

theorem Served.step (h : Served c bs s) (hn : s.next a = some s') : Served c (bs ++ [a]) s' := by
  obtain ⟨h_buffer, h_stream⟩ := stream_of_next h.buffer hn
  obtain ⟨h_stored, h_back⟩ := h.stored.step hn
  refine ⟨h_buffer, h_stored, ?_⟩
  intro h_client
  obtain ⟨l, hl⟩ := h.all (h_back h_client)
  refine ⟨l, ?_⟩
  rw [pushed_append, ← List.append_assoc, hl]
  cases h_stream with
  | push _ h_given h_held =>
    rw [h_given, h_held, ← List.append_assoc]
    rfl
  | piece _ h_given h_held =>
    -- the piece goes to this connection
    rw [h_given, if_pos (h_back h_client), h_held, List.append_nil]
    exact List.append_nil _
  | rest h_push h_given h_held => rw [h_push, h_given, h_held, List.append_nil]

/-- While the main thread is outside, no message is on its way. -/
theorem Buffer.given_out (h : Buffer s) (h_out : s.main = .out) (c : Conn) :
    s.given c = s.received c ∧ s.held = s.rbuf := by
  have h_msg : s.msg = none := by
    by_contra h_some
    obtain ⟨k, hk⟩ | hk := h.msg h_some <;> exact absurd (h_out.symm.trans hk) (by simp)
  exact ⟨by simp [State.given, h_msg], by simp [State.held, h_out]⟩

/-- **The stream of a client.** What a connection is given is one part of what the GPS sends. If
`relay_client` holds the connection at two moments, then it has got everything that came between
them, but for less than `rbufSize` bytes in the buffer. -/
theorem relay_stream (h : machine.Path (fun _ _ => True) machine.init as s) :
    (∀ c, s.received c <:+: pushed as) ∧ (s.main = .out → s.rbuf.length < rbufSize) ∧
    ∀ c bs t, s.relayClient = some c → machine.Path (fun _ _ => True) s bs t →
      t.relayClient = some c → t.main = .out →
      pushed bs <:+ t.received c ++ t.rbuf ∧ t.received c ++ t.rbuf <:+ pushed (as ++ bs) := by
  have h_streamed := streamed_of_path h
  refine ⟨?_, h_streamed.buffer.room, fun c bs t hs h_path ht h_out => ⟨?_, ?_⟩⟩
  -- what was given is a part of what has left the buffer
  · intro c
    obtain ⟨out, h_pushed, h_part⟩ := h_streamed.split
    have h_given : s.given c <:+: out := (h_part c).elim List.IsSuffix.isInfix And.right
    have h_received : s.received c <+: s.given c := List.prefix_append _ _
    rw [h_pushed]
    exact (h_received.isInfix.trans h_given).trans (List.prefix_append out s.held).isInfix
  -- between two moments with the same client everything goes to it
  · have h_served : Served c bs t := h_path.history (I := Served c)
      (fun _ _ _ _ hI _ hn => hI.step hn)
      ⟨h_streamed.buffer, h_streamed.clients.client c hs, fun _ => List.nil_suffix⟩
    obtain ⟨h_given, h_held⟩ := h_served.buffer.given_out h_out c
    rw [← h_given, ← h_held]
    exact h_served.all ht
  -- and nothing that was pushed later is given before
  · have h_end : Streamed (as ++ bs) t :=
      h_path.history_append (I := Streamed) (fun _ _ _ _ hI _ hn => hI.step hn) h_streamed
    obtain ⟨out, h_pushed, h_part⟩ := h_end.split
    obtain ⟨h_given, h_held⟩ := h_end.buffer.given_out h_out c
    obtain ⟨l, hl⟩ := (h_part c).resolve_right fun h_not => h_not.1 ht
    refine ⟨l, ?_⟩
    rw [h_pushed, ← h_given, ← h_held, ← List.append_assoc, hl]

/-- The client connects after the first of three bytes. -/
def joined : List Action := [.push 1, .accept, .tcpip, .tcpip]

/-- Two bytes more, with a flush between them and one that goes on after them. -/
def flushedTwice : List Action :=
  [.push 2, .flush, .main, .main, .execute, .main, .main, .main, .main, .execute, .main, .main,
    .push 3]

theorem relay_stream_joined :
    let s := machine.after (fun _ _ => True) joined
    let t := machine.after (fun _ _ => True) (joined ++ flushedTwice)
    pushed flushedTwice <:+ t.received 0 ++ t.rbuf ∧ t.received 0 = [1, 2] ∧ s.received 0 = [] := by
  intro s t
  have h_join : machine.Path (fun _ _ => True) machine.init joined s :=
    machine.path_of_exec _ rfl
  have h_path : machine.Path (fun _ _ => True) s flushedTwice t := machine.path_of_exec _ rfl
  exact ⟨((relay_stream h_join).2.2 0 flushedTwice t rfl h_path rfl rfl).1, rfl, rfl⟩

end Relay

end Laureline
