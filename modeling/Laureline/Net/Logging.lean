import Laureline.Lib.Machine

/-!
# The log and the network thread

`log_write` holds `log_mutex` while it hands its line to `api_udp_send`. On any thread but the
network thread that is a message in `tcpip_queue` and a wait for the answer (`api_call`). The
network thread answers messages between its other events, and some of these log themselves:
`link_changed`, `relay_accept` and `interface_changed`, the last one also with
`log_sethostname`. Its own `api_call` runs inline.

There are two other threads that log, the clock thread and the main thread (`Caller`), with a
syslog server configured and the interface up. The steps are the operations that can block,
and the interrupt of the MAC, which posts a null pointer.

* `logging_no_deadlock` — no deadlock under a condition on the two moments at which the
  network thread goes for the mutex and at which another thread takes it (`Apart`);
* `deadlock_of_not_apart` — a step that does not meet it ends in a deadlock.
-/

namespace Laureline

namespace Logging

/-- The threads besides the network thread. -/
inductive Caller
  | vtimer
  | main
deriving DecidableEq, Repr

/-- The holder of a mutex. -/
inductive Thread
  | caller (c : Caller)
  | tcpip
deriving DecidableEq, Repr

/-- Where a caller is. -/
inductive Pc
  /-- Neither in `log_write` nor in an `api_…` function. -/
  | out
  /-- `xSemaphoreTake(log_mutex, portMAX_DELAY)`. -/
  | take
  /-- The line is formatted. -/
  | format
  /-- `syslog_send`: the `xQueueSend` of `api_call`. -/
  | post
  /-- The `xSemaphoreTake` of `api_call`. -/
  | wait
  /-- The line goes to the serial port. -/
  | serial
  /-- The same two places for a call outside `log_write`. -/
  | callPost
  | callWait
deriving DecidableEq, Repr

/-- Where the network thread is. -/
inductive TcpipPc
  /-- `xQueueReceive`. -/
  | receive
  /-- `api_accept` for a caller's message. -/
  | accept (c : Caller)
  /-- `sys_check_timeouts` and `ethernetif_input`, with their callbacks. -/
  | events
  /-- `log_write` or `log_sethostname`: the `xSemaphoreTake`. -/
  | take
  /-- The rest of it, up to the `xSemaphoreGive`. -/
  | hold
deriving DecidableEq, Repr

/-- The length of `tcpip_queue`. -/
def queueLength : ℕ := 8

/-- The callers, the network thread and what they share. -/
structure State where
  /-- The holder of `log_mutex`. -/
  mutex : Option Thread
  /-- `tcpip_queue`; `none` is a null pointer. -/
  queue : List (Option Caller)
  caller : Caller → Pc
  /-- The semaphores of the callers' messages. -/
  answered : Caller → Bool
  tcpip : TcpipPc

/-- What the callers, the network thread and the MAC do. -/
inductive Action
  /-- A caller enters `log_write`. -/
  | log (c : Caller)
  /-- A caller enters an `api_…` function. -/
  | call (c : Caller)
  /-- The next step of a caller. -/
  | caller (c : Caller)
  /-- The next step of the network thread. -/
  | tcpip
  /-- A callback of the network thread logs. -/
  | logTcpip
  /-- The interrupt of the MAC. -/
  | frame
deriving DecidableEq, Repr

namespace State

variable (s : State)

/-- A caller goes on at another place. -/
def goto (c : Caller) (pc : Pc) : State := { s with caller := Function.update s.caller c pc }

/-- `xQueueSend(tcpip_queue, …)` with the place after it; it blocks on a full queue. -/
def post (c : Caller) (pc : Pc) : Option State :=
  if s.queue.length < queueLength then
    some { s.goto c pc with queue := s.queue ++ [some c] }
  else none

/-- `xSemaphoreTake(msg->sem, portMAX_DELAY)` with the place after it. -/
def awaitAnswer (c : Caller) (pc : Pc) : Option State :=
  if s.answered c then
    some { s.goto c pc with answered := Function.update s.answered c false }
  else none

/-- The next step of a caller. -/
def callerNext (c : Caller) : Option State :=
  match s.caller c with
  | .out => none
  | .take =>
    if s.mutex = none then some { s.goto c .format with mutex := some (.caller c) } else none
  | .format => some (s.goto c .post)
  | .post => s.post c .wait
  | .wait => s.awaitAnswer c .serial
  | .serial => some { s.goto c .out with mutex := none }
  | .callPost => s.post c .callWait
  | .callWait => s.awaitAnswer c .out

/-- The next step of the network thread. -/
def tcpipNext : Option State :=
  match s.tcpip with
  | .receive =>
    match s.queue with
    | some c :: q => some { s with queue := q, tcpip := .accept c }
    | none :: q => some { s with queue := q, tcpip := .events }
    | [] => some { s with tcpip := .events }
  | .accept c => some { s with answered := Function.update s.answered c true, tcpip := .events }
  | .events => some { s with tcpip := .receive }
  | .take => if s.mutex = none then some { s with mutex := some .tcpip, tcpip := .hold } else none
  | .hold => some { s with mutex := none, tcpip := .events }

/-- The successor under an action. -/
def next (s : State) : Action → Option State
  | .log c => if s.caller c = .out then some (s.goto c .take) else none
  | .call c => if s.caller c = .out then some (s.goto c .callPost) else none
  | .caller c => s.callerNext c
  | .tcpip => s.tcpipNext
  | .logTcpip => if s.tcpip = .events then some { s with tcpip := .take } else none
  | .frame =>
    if s.queue.length < queueLength then some { s with queue := s.queue ++ [none] } else some s

end State

/-- Before the first line. -/
def start : State where
  mutex := none
  queue := []
  caller _ := .out
  answered _ := false
  tcpip := .receive

/-- The three threads. -/
def machine : Machine State Action := { init := start, next := State.next }

/-! ### Deadlock -/

/-- The caller is in `api_call` and cannot go on by itself. -/
def Stuck (s : State) (c : Caller) : Prop :=
  (s.caller c = .wait ∧ s.answered c = false) ∨
    (s.caller c = .post ∧ queueLength ≤ s.queue.length)

/-- A caller holds the mutex while it waits for the network thread, and the network thread
waits for the mutex. -/
def Deadlock (s : State) : Prop :=
  ∃ c, s.mutex = some (.caller c) ∧ Stuck s c ∧ s.tcpip = .take

/-- The caller needs the network thread no more before it gives the mutex back. -/
def Answered (s : State) (c : Caller) : Prop :=
  s.caller c = .serial ∨ (s.caller c = .wait ∧ s.answered c = true)

/-- When the network thread goes for the mutex, its holder has the answer, and while the
network thread waits for the mutex, no other thread takes it. -/
def Apart (s : State) : Action → Prop
  | .logTcpip => ∀ c, s.mutex = some (.caller c) → Answered s c
  | .caller c => s.caller c = .take → s.tcpip ≠ .take
  | _ => True

/-- While the network thread waits for the mutex, its holder has the answer. -/
def Inv (s : State) : Prop :=
  s.tcpip = .take → ∀ c, s.mutex = some (.caller c) → Answered s c

section Step

variable {s s' : State} {a : Action} {c : Caller}

@[simp] theorem goto_self (s : State) (c : Caller) (pc : Pc) : (s.goto c pc).caller c = pc :=
  Function.update_self _ _ _

theorem goto_of_ne (s : State) {c d : Caller} (h : d ≠ c) (pc : Pc) :
    (s.goto c pc).caller d = s.caller d :=
  Function.update_of_ne h _ _

theorem Inv.not_deadlock (h : Inv s) : ¬ Deadlock s := by
  rintro ⟨c, h_mutex, h_stuck, h_tcpip⟩
  rcases h h_tcpip c h_mutex with h_pc | ⟨h_pc, h_ans⟩
  · rcases h_stuck with ⟨h_wait, -⟩ | ⟨h_post, -⟩
    · exact absurd (h_pc.symm.trans h_wait) (by decide)
    · exact absurd (h_pc.symm.trans h_post) (by decide)
  · rcases h_stuck with ⟨-, h_none⟩ | ⟨h_post, -⟩
    · exact absurd (h_ans.symm.trans h_none) (by decide)
    · exact absurd (h_pc.symm.trans h_post) (by decide)

/-- A caller that is not done with its message moves on, while the mutex, the answers and the
network thread stay as they are. -/
theorem Inv.goto (h : Inv s) {pc : Pc} (h_not : ¬ Answered s c) (hm : s'.mutex = s.mutex)
    (ht : s'.tcpip = s.tcpip) (hc : s'.caller = (s.goto c pc).caller)
    (ha : ∀ d, d ≠ c → s'.answered d = s.answered d) : Inv s' := by
  intro h_tcpip d h_mutex
  have h_d := h (ht.symm.trans h_tcpip) d (hm.symm.trans h_mutex)
  have h_ne : d ≠ c := by
    rintro rfl
    exact h_not h_d
  rwa [Answered, hc, goto_of_ne s h_ne, ha d h_ne]

theorem not_answered {pc : Pc} (hpc : s.caller c = pc) (h_serial : pc ≠ .serial)
    (h_wait : pc ≠ .wait) : ¬ Answered s c := by
  rintro (h | ⟨h, -⟩)
  · exact h_serial (hpc.symm.trans h)
  · exact h_wait (hpc.symm.trans h)

/-! ### What a step does -/

/-- The steps of the callers, of the network thread and of the interrupt. -/
inductive Step (s : State) : Action → State → Prop
  | log {c : Caller} (hpc : s.caller c = .out) : Step s (.log c) (s.goto c .take)
  | call {c : Caller} (hpc : s.caller c = .out) : Step s (.call c) (s.goto c .callPost)
  -- a caller in `log_write`
  | take {c : Caller} (hpc : s.caller c = .take) (h_free : s.mutex = none) :
      Step s (.caller c) { s.goto c .format with mutex := some (.caller c) }
  | format {c : Caller} (hpc : s.caller c = .format) : Step s (.caller c) (s.goto c .post)
  | post {c : Caller} (hpc : s.caller c = .post) (h_room : s.queue.length < queueLength) :
      Step s (.caller c) { s.goto c .wait with queue := s.queue ++ [some c] }
  | wait {c : Caller} (hpc : s.caller c = .wait) (h_ans : s.answered c = true) :
      Step s (.caller c)
        { s.goto c .serial with answered := Function.update s.answered c false }
  | serial {c : Caller} (hpc : s.caller c = .serial) :
      Step s (.caller c) { s.goto c .out with mutex := none }
  -- a caller in another function of the network API
  | callPost {c : Caller} (hpc : s.caller c = .callPost) (h_room : s.queue.length < queueLength) :
      Step s (.caller c) { s.goto c .callWait with queue := s.queue ++ [some c] }
  | callWait {c : Caller} (hpc : s.caller c = .callWait) (h_ans : s.answered c = true) :
      Step s (.caller c) { s.goto c .out with answered := Function.update s.answered c false }
  -- the network thread
  | message {c : Caller} {q : List (Option Caller)} (hpc : s.tcpip = .receive)
      (h_queue : s.queue = some c :: q) : Step s .tcpip { s with queue := q, tcpip := .accept c }
  | wake {q : List (Option Caller)} (hpc : s.tcpip = .receive) (h_queue : s.queue = none :: q) :
      Step s .tcpip { s with queue := q, tcpip := .events }
  | timeout (hpc : s.tcpip = .receive) (h_queue : s.queue = []) :
      Step s .tcpip { s with tcpip := .events }
  | accept {c : Caller} (hpc : s.tcpip = .accept c) :
      Step s .tcpip
        { s with answered := Function.update s.answered c true, tcpip := .events }
  | events (hpc : s.tcpip = .events) : Step s .tcpip { s with tcpip := .receive }
  | takeTcpip (hpc : s.tcpip = .take) (h_free : s.mutex = none) :
      Step s .tcpip { s with mutex := some .tcpip, tcpip := .hold }
  | hold (hpc : s.tcpip = .hold) : Step s .tcpip { s with mutex := none, tcpip := .events }
  | logTcpip (hpc : s.tcpip = .events) : Step s .logTcpip { s with tcpip := .take }
  -- the interrupt
  | frame (h_room : s.queue.length < queueLength) :
      Step s .frame { s with queue := s.queue ++ [none] }
  | full : Step s .frame s

theorem post_inv {pc : Pc} (h : s.post c pc = some s') :
    s.queue.length < queueLength ∧ s' = { s.goto c pc with queue := s.queue ++ [some c] } := by
  unfold State.post at h
  split_ifs at h with h_room
  exact ⟨h_room, (Option.some.inj h).symm⟩

theorem awaitAnswer_inv {pc : Pc} (h : s.awaitAnswer c pc = some s') :
    s.answered c = true ∧
      s' = { s.goto c pc with answered := Function.update s.answered c false } := by
  unfold State.awaitAnswer at h
  split_ifs at h with h_ans
  exact ⟨h_ans, (Option.some.inj h).symm⟩

theorem step_of_callerNext (hn : s.callerNext c = some s') : Step s (.caller c) s' := by
  cases hpc : s.caller c <;> simp only [State.callerNext, hpc, reduceCtorEq] at hn
  case take =>
    -- a caller waits for the mutex, for room in the queue, and for the answer
    split_ifs at hn with h_free
    obtain rfl := Option.some.inj hn
    exact .take hpc h_free
  case format =>
    obtain rfl := Option.some.inj hn
    exact .format hpc
  case post =>
    obtain ⟨h_room, rfl⟩ := post_inv hn
    exact .post hpc h_room
  case wait =>
    obtain ⟨h_ans, rfl⟩ := awaitAnswer_inv hn
    exact .wait hpc h_ans
  case serial =>
    obtain rfl := Option.some.inj hn
    exact .serial hpc
  case callPost =>
    obtain ⟨h_room, rfl⟩ := post_inv hn
    exact .callPost hpc h_room
  case callWait =>
    obtain ⟨h_ans, rfl⟩ := awaitAnswer_inv hn
    exact .callWait hpc h_ans

theorem step_of_tcpipNext (hn : s.tcpipNext = some s') : Step s .tcpip s' := by
  cases hpc : s.tcpip <;> simp only [State.tcpipNext, hpc] at hn
  case receive =>
    -- a message, a frame, or the timeout of an empty queue
    split at hn <;> obtain rfl := Option.some.inj hn
    · next h_queue => exact .message hpc h_queue
    · next h_queue => exact .wake hpc h_queue
    · next h_queue => exact .timeout hpc h_queue
  case accept c =>
    obtain rfl := Option.some.inj hn
    exact .accept hpc
  case events =>
    obtain rfl := Option.some.inj hn
    exact .events hpc
  case take =>
    split_ifs at hn with h_free
    obtain rfl := Option.some.inj hn
    exact .takeTcpip hpc h_free
  case hold =>
    obtain rfl := Option.some.inj hn
    exact .hold hpc

theorem step_of_next (hn : s.next a = some s') : Step s a s' := by
  cases a with
  | log c =>
    simp only [State.next] at hn
    split_ifs at hn with hpc
    obtain rfl := Option.some.inj hn
    exact .log hpc
  | call c =>
    simp only [State.next] at hn
    split_ifs at hn with hpc
    obtain rfl := Option.some.inj hn
    exact .call hpc
  | caller c => exact step_of_callerNext hn
  | tcpip => exact step_of_tcpipNext hn
  | logTcpip =>
    simp only [State.next] at hn
    split_ifs at hn with hpc
    obtain rfl := Option.some.inj hn
    exact .logTcpip hpc
  | frame =>
    simp only [State.next] at hn
    split_ifs at hn with h_room <;> obtain rfl := Option.some.inj hn
    · exact .frame h_room
    · exact .full

theorem Inv.step (h : Inv s) (hA : Apart s a) (hn : s.next a = some s') : Inv s' := by
  cases step_of_next hn with
  | log hpc | call hpc | format hpc | post hpc | callPost hpc =>
    exact h.goto (not_answered hpc (by decide) (by decide)) rfl rfl rfl fun _ _ => rfl
  | callWait hpc =>
    exact h.goto (not_answered hpc (by decide) (by decide)) rfl rfl rfl
      fun _ h_ne => Function.update_of_ne h_ne _ _
  | take hpc => exact fun h_tcpip => absurd h_tcpip (hA hpc)
  | @wait c =>
    intro h_tcpip d h_mutex
    by_cases h_eq : d = c
    · exact .inl (by rw [h_eq]; exact goto_self s c .serial)
    · have h_d := h h_tcpip d h_mutex
      have h_ans : Function.update s.answered c false d = s.answered d :=
        Function.update_of_ne h_eq _ _
      rw [Answered, goto_of_ne s h_eq]
      show _ ∨ (_ ∧ Function.update s.answered c false d = true)
      rwa [h_ans]
  | serial => exact fun _ d h_mutex => absurd h_mutex (by simp)
  -- the network thread does not wait for the mutex
  | message | wake | timeout | accept | events | takeTcpip | hold =>
    exact fun h_tcpip => absurd h_tcpip (by simp)
  | logTcpip => exact fun _ => hA
  | frame | full => exact h

/-- **No deadlock.** In every run in which the network thread goes for the mutex only while
its holder has its answer, and no other thread takes the mutex while the network thread
waits for it. -/
theorem logging_no_deadlock (h : machine.Reach Apart s) : ¬ Deadlock s :=
  (h.invariant (I := Inv) (fun h_tcpip => absurd h_tcpip (by simp [machine, start]))
    fun _ _ _ hI hA hn => hI.step hA hn).not_deadlock

/-! ### The condition is needed -/

/-- The holder of the mutex is in `log_write`. -/
def Holder (s : State) : Prop :=
  ∀ c, s.mutex = some (.caller c) →
    s.caller c = .format ∨ s.caller c = .post ∨ s.caller c = .wait ∨ s.caller c = .serial

/-- The message of a caller is being handled. -/
def TcpipPc.accepts : TcpipPc → Caller → Bool
  | .accept d, c => decide (d = c)
  | _, _ => false

/-- The caller waits in `api_call`. -/
def Pc.waits : Pc → Bool
  | .wait | .callWait => true
  | _ => false

/-- The answers to a caller: on the way in its message, or given already. -/
def answers (s : State) (c : Caller) : ℕ :=
  s.queue.count (some c) + (s.tcpip.accepts c).toNat + (s.answered c).toNat

/-- A caller waits exactly if there is one answer for it. -/
def OneAnswer (s : State) : Prop := ∀ c, answers s c = (s.caller c).waits.toNat

theorem Holder.goto (h : Holder s) {pc : Pc} (hm : s'.mutex = s.mutex)
    (hc : s'.caller = (s.goto c pc).caller)
    (h_pc : s.mutex = some (.caller c) → pc = .format ∨ pc = .post ∨ pc = .wait ∨ pc = .serial) :
    Holder s' := by
  intro d h_mutex
  rw [hm] at h_mutex
  rw [hc]
  by_cases h_eq : d = c
  · rw [h_eq, goto_self]
    exact h_pc (h_eq ▸ h_mutex)
  · rw [goto_of_ne s h_eq]
    exact h d h_mutex

theorem Holder.step (h : Holder s) (hn : s.next a = some s') : Holder s' := by
  have h_out {c : Caller} {pc : Pc} (hpc : s.caller c = pc) (h1 : pc ≠ .format) (h2 : pc ≠ .post)
      (h3 : pc ≠ .wait) (h4 : pc ≠ .serial) : s.mutex ≠ some (.caller c) := by
    intro h_mutex
    rcases h c h_mutex with h' | h' | h' | h'
    · exact h1 (hpc.symm.trans h')
    · exact h2 (hpc.symm.trans h')
    · exact h3 (hpc.symm.trans h')
    · exact h4 (hpc.symm.trans h')
  cases step_of_next hn with
  -- a call of the network API is made without the mutex
  | log hpc | call hpc | callPost hpc | callWait hpc =>
    exact h.goto rfl rfl fun h_mutex =>
      absurd h_mutex (h_out hpc (by decide) (by decide) (by decide) (by decide))
  | @take c =>
    intro d h_mutex
    obtain rfl : c = d := by simpa using h_mutex
    exact .inl (goto_self s c .format)
  | format | post | wait => exact h.goto rfl rfl fun _ => by decide
  -- no caller has the mutex
  | serial | takeTcpip | hold => exact fun d h_mutex => absurd h_mutex (by simp)
  | message | wake | timeout | accept | events | logTcpip | frame | full => exact h

/-- Only one caller is affected. -/
theorem OneAnswer.goto (h : OneAnswer s)
    (h_other : ∀ d, d ≠ c → answers s' d = answers s d ∧ s'.caller d = s.caller d)
    (h_self : answers s c = (s.caller c).waits.toNat →
      answers s' c = (s'.caller c).waits.toNat) : OneAnswer s' := by
  intro d
  by_cases h_eq : d = c
  · rw [h_eq]
    exact h_self (h c)
  · rw [(h_other d h_eq).1, h d, (h_other d h_eq).2]

/-- A caller moves between places at which it has no message. -/
theorem OneAnswer.move (h : OneAnswer s) {pc pc' : Pc} (hpc : s.caller c = pc)
    (h_pc : pc.waits = false) (h_pc' : pc'.waits = false)
    (ha : ∀ d, answers s' d = answers s d) (hc : s'.caller = (s.goto c pc').caller) :
    OneAnswer s' := by
  refine h.goto (c := c) (fun d h_ne => ⟨ha d, by rw [hc, goto_of_ne s h_ne]⟩) fun h_c => ?_
  rw [hpc, h_pc] at h_c
  rw [ha, h_c, hc, goto_self, h_pc']

/-- The message of a caller enters the queue. -/
theorem OneAnswer.post (h : OneAnswer s) {pc pc' : Pc} (hpc : s.caller c = pc)
    (h_pc : pc.waits = false) (h_pc' : pc'.waits = true) :
    OneAnswer { s.goto c pc' with queue := s.queue ++ [some c] } := by
  refine h.goto (c := c) (fun d h_ne => ⟨?_, goto_of_ne s h_ne _⟩) fun h_c => ?_
  · simp [answers, List.count_append, State.goto, Ne.symm h_ne]
  · simp only [answers, hpc, h_pc, Bool.toNat_false] at h_c
    simp only [answers, h_pc', Bool.toNat_true, List.count_append, State.goto,
      Function.update_self, List.count_singleton_self]
    omega

/-- A caller gets its answer. -/
theorem OneAnswer.wait (h : OneAnswer s) {pc pc' : Pc} (hpc : s.caller c = pc)
    (h_pc : pc.waits = true) (h_pc' : pc'.waits = false) (h_ans : s.answered c = true) :
    OneAnswer { s.goto c pc' with answered := Function.update s.answered c false } := by
  refine h.goto (c := c) (fun d h_ne => ⟨?_, goto_of_ne s h_ne _⟩) fun h_c => ?_
  · simp [answers, State.goto, Function.update_of_ne h_ne]
  · simp only [answers, hpc, h_ans, h_pc, Bool.toNat_true] at h_c
    simp only [answers, h_pc', Bool.toNat_false, State.goto, Function.update_self]
    omega

/-- The network thread moves between places at which it handles no message. -/
theorem OneAnswer.moveTcpip (h : OneAnswer s) (h_pc : ∀ c, s'.tcpip.accepts c = s.tcpip.accepts c)
    (hq : ∀ c : Caller, s'.queue.count (some c) = s.queue.count (some c))
    (hc : s'.caller = s.caller) (ha : s'.answered = s.answered) : OneAnswer s' := by
  intro d
  rw [answers, h_pc, hq, ha, hc]
  exact h d

/-- The message of a caller leaves the queue. -/
theorem OneAnswer.message (h : OneAnswer s) {q : List (Option Caller)} (hpc : s.tcpip = .receive)
    (h_queue : s.queue = some c :: q) : OneAnswer { s with queue := q, tcpip := .accept c } := by
  intro d
  have h_d := h d
  simp only [answers, hpc, h_queue, TcpipPc.accepts, List.count_cons] at h_d ⊢
  by_cases h_eq : c = d
  · simp [h_eq] at h_d ⊢
    omega
  · simp [h_eq] at h_d ⊢
    omega

/-- The message of a caller is answered. -/
theorem OneAnswer.accept (h : OneAnswer s) (hpc : s.tcpip = .accept c) :
    OneAnswer { s with answered := Function.update s.answered c true, tcpip := .events } := by
  refine h.goto (c := c) (fun d h_ne => ⟨?_, rfl⟩) fun h_c => ?_
  · simp [answers, hpc, TcpipPc.accepts, Function.update_of_ne h_ne, Ne.symm h_ne]
  · have h_le : (s.caller c).waits.toNat ≤ 1 := Bool.toNat_le _
    simp only [answers, hpc, TcpipPc.accepts, decide_true, Bool.toNat_true] at h_c
    simp only [answers, TcpipPc.accepts, Function.update_self, Bool.toNat_true, Bool.toNat_false]
    -- the caller had no answer before
    omega

theorem OneAnswer.step (h : OneAnswer s) (hn : s.next a = some s') : OneAnswer s' := by
  cases step_of_next hn with
  | log hpc | call hpc | take hpc | format hpc | serial hpc =>
    exact h.move hpc rfl rfl (fun _ => rfl) rfl
  | post hpc | callPost hpc => exact h.post hpc rfl rfl
  | wait hpc h_ans | callWait hpc h_ans => exact h.wait hpc rfl rfl h_ans
  | message hpc h_queue => exact h.message hpc h_queue
  | accept hpc => exact h.accept hpc
  -- a null pointer is no message of a caller
  | wake hpc h_queue =>
    exact h.moveTcpip (fun _ => by rw [hpc]; rfl) (fun _ => by simp [h_queue]) rfl rfl
  | timeout hpc | events hpc | takeTcpip hpc | hold hpc | logTcpip hpc =>
    exact h.moveTcpip (fun _ => by rw [hpc]; rfl) (fun _ => rfl) rfl rfl
  | frame => exact h.moveTcpip (fun _ => rfl) (fun _ => by simp [List.count_append]) rfl rfl
  | full => exact h

theorem reach_inv (h : machine.Reach (fun _ _ => True) s) : Holder s ∧ OneAnswer s :=
  h.invariant (I := fun s => Holder s ∧ OneAnswer s)
    ⟨fun _ h_mutex => absurd h_mutex (by simp [machine, start]), fun _ => rfl⟩
    fun _ _ _ hI _ hn => ⟨hI.1.step hn, hI.2.step hn⟩

/-- While the network thread waits for the mutex, a holder that still needs an answer goes on
by itself until it waits for the network thread. -/
theorem deadlock_of_doomed (h : OneAnswer s) (hH : Holder s)
    (h_mutex : s.mutex = some (.caller c)) (h_tcpip : s.tcpip = .take) (h_not : ¬ Answered s c) :
    ∃ as t, machine.Path (fun _ a => a = .caller c) s as t ∧ Deadlock t := by
  -- a holder that posts waits then, either for room in the queue or for the answer
  have h_post (s : State) (h : OneAnswer s) (h_mutex : s.mutex = some (.caller c))
      (h_tcpip : s.tcpip = .take) (hpc : s.caller c = .post) :
      ∃ as t, machine.Path (fun _ a => a = .caller c) s as t ∧ Deadlock t := by
    by_cases h_room : s.queue.length < queueLength
    · have h_next : s.next (.caller c) =
          some { s.goto c .wait with queue := s.queue ++ [some c] } := by
        simp only [State.next, State.callerNext, hpc]
        exact if_pos h_room
      have h_none : s.answered c = false := by
        have h_c := h c
        simp only [answers, hpc, Pc.waits, Bool.toNat_false] at h_c
        cases h_ans : s.answered c
        · rfl
        · rw [h_ans, Bool.toNat_true] at h_c
          omega
      exact ⟨_, _, .cons rfl h_next (.nil _),
        c, h_mutex, .inl ⟨goto_self s c .wait, h_none⟩, h_tcpip⟩
    · exact ⟨_, _, .nil s, c, h_mutex, .inr ⟨hpc, by omega⟩, h_tcpip⟩
  -- it is still inside the call, posts, waits, or has its answer
  rcases hH c h_mutex with hpc | hpc | hpc | hpc
  · have h_next : s.next (.caller c) = some (s.goto c .post) := by
      simp only [State.next, State.callerNext, hpc]
    obtain ⟨as, t, h_path, h_dead⟩ :=
      h_post (s.goto c .post) (h.step h_next) h_mutex h_tcpip (goto_self s c .post)
    exact ⟨_, t, .cons rfl h_next h_path, h_dead⟩
  · exact h_post s h h_mutex h_tcpip hpc
  · have h_none : s.answered c = false := by
      rw [Bool.eq_false_iff]
      exact fun h_ans => h_not (.inr ⟨hpc, h_ans⟩)
    exact ⟨_, _, .nil s, c, h_mutex, .inl ⟨hpc, h_none⟩, h_tcpip⟩
  · exact absurd (.inl hpc) h_not

/-- **The condition is exact.** A step that does not meet it leads to a deadlock without any
further step of the network thread. -/
theorem deadlock_of_not_apart (h : machine.Reach (fun _ _ => True) s) (hA : ¬ Apart s a)
    (hn : s.next a = some s') :
    ∃ c as t, machine.Path (fun _ a => a = .caller c) s' as t ∧ Deadlock t := by
  obtain ⟨hH, hO⟩ := reach_inv h
  have hH' := hH.step hn
  have hO' := hO.step hn
  cases step_of_next hn with
  | logTcpip =>
    -- the network thread logs while a caller that it has to answer holds the mutex
    simp only [Apart, not_forall] at hA
    obtain ⟨c, h_mutex, h_not⟩ := hA
    exact ⟨c, deadlock_of_doomed hO' hH' h_mutex rfl h_not⟩
  | @take c hpc =>
    -- a caller takes the mutex while the network thread waits for it
    have h_tcpip : s.tcpip = .take := by_contra fun h_ne => hA fun _ => h_ne
    refine ⟨c, deadlock_of_doomed hO' hH' rfl h_tcpip ?_⟩
    exact not_answered (goto_self s c .format) (by decide) (by decide)
  | format hpc | post hpc | wait hpc | serial hpc | callPost hpc | callWait hpc =>
    exact absurd (fun h_take => absurd (hpc.symm.trans h_take) (by decide)) hA
  | _ => exact absurd trivial hA

end Step

/-! ### One line and one change of the link -/

instance {p : Caller → Prop} [DecidablePred p] : Decidable (∀ c, p c) :=
  decidable_of_iff (p .vtimer ∧ p .main)
    ⟨fun h c => match c with | .vtimer => h.1 | .main => h.2, fun h => ⟨h _, h _⟩⟩

instance (s : State) (c : Caller) : Decidable (Answered s c) :=
  inferInstanceAs (Decidable (_ ∨ _))

instance (s : State) : ∀ a, Decidable (Apart s a)
  | .logTcpip => inferInstanceAs (Decidable (∀ c, s.mutex = some (.caller c) → Answered s c))
  | .caller c => inferInstanceAs (Decidable (s.caller c = .take → s.tcpip ≠ .take))
  | .log _ | .call _ | .tcpip | .frame => isTrue trivial

/-- The main thread takes the mutex, and before it gets an answer the network thread logs. -/
theorem logging_deadlock : ¬ ∀ s, machine.Reach (fun _ _ => True) s → ¬ Deadlock s := by
  intro h
  have h_exec : (machine.exec (fun _ _ => True) start
      [.log .main, .caller .main, .tcpip, .logTcpip, .caller .main, .caller .main]).map
        (fun s => (s.mutex, s.caller .main, s.answered .main, s.tcpip)) =
      some (some (.caller .main), .wait, false, .take) := by
    decide
  obtain ⟨s, h_exec, h_eq⟩ := Option.map_eq_some_iff.mp h_exec
  simp only [Prod.mk.injEq] at h_eq
  exact h s (machine.reach_of_exec _ h_exec)
    ⟨.main, h_eq.1, .inl ⟨h_eq.2.1, h_eq.2.2.1⟩, h_eq.2.2.2⟩

/-- The network thread logs while the main thread, which has its answer, still holds the
mutex. -/
theorem logging_no_deadlock_answered :
    ∃ s, s.mutex = some (.caller .main) ∧ s.tcpip = .take ∧ ¬ Deadlock s := by
  have h_exec : (machine.exec Apart start
      [.log .main, .caller .main, .caller .main, .caller .main, .tcpip, .tcpip, .logTcpip]).map
        (fun s => (s.mutex, s.tcpip)) = some (some (.caller .main), .take) := by
    decide
  obtain ⟨s, h_exec, h_eq⟩ := Option.map_eq_some_iff.mp h_exec
  simp only [Prod.mk.injEq] at h_eq
  exact ⟨s, h_eq.1, h_eq.2, logging_no_deadlock (machine.reach_of_exec _ h_exec)⟩

end Logging

end Laureline
