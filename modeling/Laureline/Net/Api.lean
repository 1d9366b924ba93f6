import Laureline.Lib.Machine
import Mathlib.Logic.Function.Basic

/-!
# Calls into the network thread

`tcpapi.c`: an `api_…` function builds a message on the stack of its caller, `api_call` finds
or creates the semaphore of the calling thread, posts the message to the network thread and
sleeps until `ret` has been written and the semaphore given. `api_accept` runs the function
of the message on the network thread. Most finish at once; `do_udp_recv` leaves a callback
and perhaps a timeout behind, and `do_gethostbyname` may leave the message with the resolver.

Any number of threads call, and the steps are their accesses to what they share and the events
of the network thread: it takes a message, a datagram arrives, a timeout expires, the resolver
answers. An event that writes a result is cut before `xSemaphoreGive`. What lwIP answers is
part of the action. A failed `ASSERT` stops the system, so the action is not enabled.

A message is the number of its call. `owner`, `stage`, `answered` and `returned` are history
variables.

* `Step` — what each kind of step does.
-/

namespace Laureline

namespace Api

/-- lwIP's `err_t`. -/
abbrev Err := Int

/-- `ERR_OK`. -/
def errOk : Err := 0

/-- `ERR_TIMEOUT`. -/
def errTimeout : Err := -3

/-- `ERR_INPROGRESS`. -/
def errInprogress : Err := -5

/-- `ERR_VAL`. -/
def errVal : Err := -6

/-- A `struct udp_pcb`. -/
abbrev Pcb := ℕ

/-- A semaphore of `semlist`, by the order of their creation. -/
abbrev Sem := ℕ

/-- A message. -/
abbrev Msg := ℕ

/-- `msg->func`, with the fields of the message that the code reads later. -/
inductive Func
  | tcpWrite
  | tcpOutput
  | udpConnect
  | udpSend
  | udpRecv (pcb : Pcb) (len : ℕ) (timeout : ℕ)
  | gethostbyname
deriving DecidableEq, Repr

/-- The socket that a function receives on. -/
def Func.pcb : Func → Option Pcb
  | .udpRecv pcb _ _ => some pcb
  | _ => none

/-- The buffer that a function receives into. -/
def Func.len : Func → ℕ
  | .udpRecv _ len _ => len
  | _ => 0

/-- `msg->timeout`. -/
def Func.timeout : Func → ℕ
  | .udpRecv _ _ timeout => timeout
  | _ => 0

/-- `msg->ret`, and what is written through the pointers of the message. -/
structure Answer where
  ret : Err
  out : List UInt8 := []
deriving DecidableEq, Repr

/-- What lwIP can answer to a function: only the resolver can still be at work. -/
def Func.Allows (f : Func) (r : Answer) : Prop := f = .gethostbyname ∨ r.ret ≠ errInprogress

instance (f : Func) (r : Answer) : Decidable (f.Allows r) :=
  inferInstanceAs (Decidable (_ ∨ _))

/-- Where a thread is. -/
inductive Pc (T : Type)
  | out
  /-- `xSemaphoreTake(api_mutex, portMAX_DELAY)`. -/
  | take (m : Msg)
  /-- The loop over `semlist`. -/
  | find (m : Msg)
  /-- A new entry of `semlist`, up to `semptr->next = semlist`. -/
  | create (m : Msg)
  /-- `semlist = semptr`. -/
  | link (m : Msg) (sem : Sem) (next : List (T × Sem))
  /-- `xSemaphoreGive(api_mutex)`. -/
  | release (m : Msg)
  /-- `xQueueSend(tcpip_queue, &msg, portMAX_DELAY)`. -/
  | send (m : Msg)
  /-- `xSemaphoreTake(msg->sem, portMAX_DELAY)`. -/
  | wait (m : Msg)
deriving DecidableEq, Repr

/-- The message of the call that a thread is in. -/
def Pc.msg {T : Type} : Pc T → Option Msg
  | .out => none
  | .take m | .find m | .create m | .link m _ _ | .release m | .send m | .wait m => some m

/-- Between the take and the give of `api_mutex`. -/
def Pc.locked {T : Type} : Pc T → Bool
  | .find _ | .create _ | .link _ _ _ | .release _ => true
  | _ => false

/-- Where the network thread is. -/
inductive TcpipPc
  | loop
  /-- `xSemaphoreGive(msg->sem)`. -/
  | give (m : Msg)
deriving DecidableEq, Repr

/-- How far a call has come. -/
inductive Stage
  /-- The message is not posted yet. -/
  | new
  | queued
  /-- `got_udp` is registered for the message. -/
  | udp
  /-- The resolver has the message. -/
  | dns
  /-- The result is written. -/
  | give
  /-- The semaphore is given. -/
  | given
deriving DecidableEq, Repr

/-- The length of `tcpip_queue`. -/
def queueLength : ℕ := 8

/-- The threads, their messages and what is shared between them. -/
structure State (T : Type) where
  thread : T → Pc T
  /-- The number of calls so far. -/
  calls : ℕ
  func : Msg → Func
  /-- `msg->sem`. -/
  sem : Msg → Option Sem
  /-- `msg->ret`; `none` is not written yet. -/
  answer : Msg → Option Answer
  /-- The holder of `api_mutex`. -/
  mutex : Option T
  semlist : List (T × Sem)
  /-- The number of semaphores created. -/
  sems : ℕ
  /-- The semaphore was given and not taken yet. -/
  token : Sem → Bool
  /-- `tcpip_queue`; `none` is a null pointer. -/
  queue : List (Option Msg)
  tcpip : TcpipPc
  /-- `got_udp` with its argument, for every socket. -/
  udp : Pcb → Option Msg
  /-- The arguments of `got_udp_timedout`. -/
  timeouts : List Msg
  /-- The requests that the resolver has not answered. -/
  dns : List Msg
  -- history variables
  /-- The thread on whose stack the message is. -/
  owner : Msg → Option T
  /-- `none` before the call and after its return. -/
  stage : Msg → Option Stage
  /-- The results in the order in which they were written. -/
  answered : List (Msg × Answer)
  /-- What the calls returned. -/
  returned : List (Msg × Option Answer)

/-- What the threads, lwIP and the network do. -/
inductive Action (T : Type)
  /-- A thread calls an `api_…` function. -/
  | call (t : T) (f : Func)
  /-- The next access of a thread. -/
  | thread (t : T)
  /-- The network thread takes a message from the queue; `r` is what lwIP answers. -/
  | accept (r : Answer)
  /-- A datagram arrives. -/
  | datagram (pcb : Pcb) (bytes : List UInt8)
  /-- A timeout expires. -/
  | timeout (m : Msg)
  /-- The resolver answers; no address is a failure. -/
  | dnsAnswer (m : Msg) (addr : Option (List UInt8))
  /-- The network thread gives the semaphore of a message. -/
  | give
  /-- A callback of the network thread calls an `api_…` function itself. -/
  | inline (f : Func) (r : Answer)
  /-- The interrupt of the MAC posts a null pointer. -/
  | frame
deriving DecidableEq, Repr

namespace State

variable {T : Type} [DecidableEq T] (s : State T)

/-- A thread goes on at another place. -/
def goto (t : T) (pc : Pc T) : State T := { s with thread := Function.update s.thread t pc }

/-- A call comes to another stage. -/
def advance (m : Msg) (g : Option Stage) : State T :=
  { s with stage := Function.update s.stage m g }

/-- A thread enters an `api_…` function and `api_call`. -/
def call (t : T) (f : Func) : State T :=
  let m := s.calls
  { (s.goto t (.take m)).advance m (some .new) with
    calls := m + 1
    func := Function.update s.func m f
    owner := Function.update s.owner m (some t)
    sem := Function.update s.sem m none }

/-- The next access of a thread. -/
def threadNext (t : T) : Option (State T) :=
  match s.thread t with
  | .out => none
  | .take m => if s.mutex = none then some { s.goto t (.find m) with mutex := some t } else none
  | .find m =>
    match s.semlist.find? (fun semptr => semptr.1 = t) with
    | some semptr =>
      some { s.goto t (.release m) with sem := Function.update s.sem m (some semptr.2) }
    | none => some (s.goto t (.create m))
  | .create m =>
    some { s.goto t (.link m s.sems s.semlist) with
      sems := s.sems + 1, sem := Function.update s.sem m (some s.sems) }
  | .link m sem next => some { s.goto t (.release m) with semlist := (t, sem) :: next }
  | .release m => some { s.goto t (.send m) with mutex := none }
  | .send m =>
    if s.queue.length < queueLength then
      some { (s.goto t (.wait m)).advance m (some .queued) with queue := s.queue ++ [some m] }
    else none
  | .wait m =>
    match s.sem m with
    | some sem =>
      if s.token sem then
        some { (s.goto t .out).advance m none with
          token := Function.update s.token sem false
          returned := s.returned ++ [(m, s.answer m)] }
      else none
    | none => none

/-- `ret` is written and the semaphore is to be given. -/
def finish (m : Msg) (r : Answer) : State T :=
  { s.advance m (some .give) with
    answer := Function.update s.answer m (some r), tcpip := .give m
    answered := s.answered ++ [(m, r)] }

/-- `ret` is `ERR_INPROGRESS`. -/
def inProgress (m : Msg) (g : Stage) : State T :=
  { s.advance m (some g) with answer := Function.update s.answer m (some { ret := errInprogress }) }

/-- `do_udp_recv`. -/
def doUdpRecv (m : Msg) (pcb : Pcb) (timeout : ℕ) : State T :=
  { s with
    udp := Function.update s.udp pcb (some m)
    timeouts := if timeout ≠ 0 then s.timeouts ++ [m] else s.timeouts }

/-- `api_accept`. -/
def accept (m : Msg) (r : Answer) : State T :=
  match s.func m with
  | .udpRecv pcb _ timeout => (s.doUdpRecv m pcb timeout).inProgress m .udp
  | _ =>
    if r.ret ≠ errInprogress then s.finish m r
    else { s with dns := s.dns ++ [m] }.inProgress m .dns

/-- `got_udp`, with `sys_untimeout`. -/
def gotUdp (m : Msg) (pcb : Pcb) (bytes : List UInt8) : State T :=
  { s with udp := Function.update s.udp pcb none, timeouts := s.timeouts.erase m }.finish m
    { ret := errOk, out := bytes.take (s.func m).len }

/-- `got_udp_timedout`, which `sys_check_timeouts` has taken from its list. -/
def gotUdpTimedout (m : Msg) : State T :=
  { s with
    udp := match (s.func m).pcb with
      | some pcb => Function.update s.udp pcb none
      | none => s.udp
    timeouts := s.timeouts.erase m }.finish m { ret := errTimeout }

/-- `gethost_callback`. -/
def gethostCallback (m : Msg) (addr : Option (List UInt8)) : State T :=
  { s with dns := s.dns.erase m }.finish m
    (match addr with
    | none => { ret := errVal }
    | some addr => { ret := errOk, out := addr })

/-- `api_call` on the network thread. -/
def inline (f : Func) (r : Answer) : State T :=
  let m := s.calls
  { s with
    calls := m + 1, func := Function.update s.func m f
    answered := s.answered ++ [(m, r)], returned := s.returned ++ [(m, some r)] }

/-- The successor under an action. -/
def next (s : State T) : Action T → Option (State T)
  | .call t f => if s.thread t = .out then some (s.call t f) else none
  | .thread t => s.threadNext t
  | .accept r =>
    match s.tcpip, s.queue with
    | .loop, some m :: q =>
      if (s.func m).Allows r then some ({ s with queue := q }.accept m r) else none
    | .loop, none :: q => some { s with queue := q }
    | _, _ => none
  | .datagram pcb bytes =>
    match s.tcpip, s.udp pcb with
    | .loop, some m => some (s.gotUdp m pcb bytes)
    | _, _ => none
  | .timeout m => if s.tcpip = .loop ∧ m ∈ s.timeouts then some (s.gotUdpTimedout m) else none
  | .dnsAnswer m addr =>
    if s.tcpip = .loop ∧ m ∈ s.dns then some (s.gethostCallback m addr) else none
  | .give =>
    match s.tcpip with
    | .give m =>
      match s.sem m with
      | some sem =>
        some { s.advance m (some .given) with
          tcpip := .loop, token := Function.update s.token sem true }
      | none => none
    | .loop => none
  | .inline f r =>
    -- `ASSERT(ret != ERR_INPROGRESS)`
    if s.tcpip = .loop ∧ f.pcb = none ∧ r.ret ≠ errInprogress then some (s.inline f r) else none
  | .frame =>
    if s.queue.length < queueLength then some { s with queue := s.queue ++ [none] } else some s

end State

/-- After `api_start` and `api_set_main_thread`. -/
def start (T : Type) : State T where
  thread _ := .out
  calls := 0
  func _ := .tcpOutput
  sem _ := none
  answer _ := none
  mutex := none
  semlist := []
  sems := 0
  token _ := false
  queue := []
  tcpip := .loop
  udp _ := none
  timeouts := []
  dns := []
  owner _ := none
  stage _ := none
  answered := []
  returned := []

/-- The calling threads and the network thread. -/
def machine (T : Type) [DecidableEq T] : Machine (State T) (Action T) :=
  { init := start T, next := State.next }

/-! ### What a step does -/

section Step

variable {T : Type} [DecidableEq T] {s s' : State T} {a : Action T}

/-- The steps, one constructor for each kind. -/
inductive Step (s : State T) : Action T → State T → Prop
  | call (t : T) (f : Func) (ht : s.thread t = .out) : Step s (.call t f) (s.call t f)
  | take (t : T) (m : Msg) (ht : s.thread t = .take m) (h_free : s.mutex = none) :
      Step s (.thread t) { s.goto t (.find m) with mutex := some t }
  | found (t : T) (m : Msg) (sem : Sem) (ht : s.thread t = .find m) (h_mem : (t, sem) ∈ s.semlist) :
      Step s (.thread t) { s.goto t (.release m) with sem := Function.update s.sem m (some sem) }
  | missing (t : T) (m : Msg) (ht : s.thread t = .find m) :
      Step s (.thread t) (s.goto t (.create m))
  | create (t : T) (m : Msg) (ht : s.thread t = .create m) :
      Step s (.thread t)
        { s.goto t (.link m s.sems s.semlist) with
          sems := s.sems + 1, sem := Function.update s.sem m (some s.sems) }
  | link (t : T) (m : Msg) (sem : Sem) (next : List (T × Sem))
      (ht : s.thread t = .link m sem next) :
      Step s (.thread t) { s.goto t (.release m) with semlist := (t, sem) :: next }
  | release (t : T) (m : Msg) (ht : s.thread t = .release m) :
      Step s (.thread t) { s.goto t (.send m) with mutex := none }
  | send (t : T) (m : Msg) (ht : s.thread t = .send m) (h_room : s.queue.length < queueLength) :
      Step s (.thread t)
        { (s.goto t (.wait m)).advance m (some .queued) with queue := s.queue ++ [some m] }
  | wake (t : T) (m : Msg) (sem : Sem) (ht : s.thread t = .wait m) (h_sem : s.sem m = some sem)
      (h_token : s.token sem = true) :
      Step s (.thread t)
        { (s.goto t .out).advance m none with
          token := Function.update s.token sem false
          returned := s.returned ++ [(m, s.answer m)] }
  | null (r : Answer) (q : List (Option Msg)) (h_loop : s.tcpip = .loop)
      (h_queue : s.queue = none :: q) : Step s (.accept r) { s with queue := q }
  | answer (r : Answer) (m : Msg) (q : List (Option Msg)) (h_loop : s.tcpip = .loop)
      (h_queue : s.queue = some m :: q) : Step s (.accept r) ({ s with queue := q }.finish m r)
  | receive (r : Answer) (m : Msg) (q : List (Option Msg)) (pcb : Pcb) (len timeout : ℕ)
      (h_loop : s.tcpip = .loop) (h_queue : s.queue = some m :: q)
      (hf : s.func m = .udpRecv pcb len timeout) :
      Step s (.accept r) (({ s with queue := q }.doUdpRecv m pcb timeout).inProgress m .udp)
  | resolve (r : Answer) (m : Msg) (q : List (Option Msg)) (h_loop : s.tcpip = .loop)
      (h_queue : s.queue = some m :: q) :
      Step s (.accept r) ({ s with queue := q, dns := s.dns ++ [m] }.inProgress m .dns)
  | datagram (m : Msg) (pcb : Pcb) (bytes : List UInt8) (h_loop : s.tcpip = .loop)
      (h_udp : s.udp pcb = some m) : Step s (.datagram pcb bytes) (s.gotUdp m pcb bytes)
  | timeout (m : Msg) (h_loop : s.tcpip = .loop) (h_mem : m ∈ s.timeouts) :
      Step s (.timeout m) (s.gotUdpTimedout m)
  | dnsAnswer (m : Msg) (addr : Option (List UInt8)) (h_loop : s.tcpip = .loop)
      (h_mem : m ∈ s.dns) :
      Step s (.dnsAnswer m addr) (s.gethostCallback m addr)
  | give (m : Msg) (sem : Sem) (h_give : s.tcpip = .give m) (h_sem : s.sem m = some sem) :
      Step s .give
        { s.advance m (some .given) with
          tcpip := .loop, token := Function.update s.token sem true }
  | inline (f : Func) (r : Answer) (h_loop : s.tcpip = .loop) : Step s (.inline f r) (s.inline f r)
  | frame : Step s .frame { s with queue := s.queue ++ [none] }
  | lost : Step s .frame s

theorem step_thread {t : T} (hn : s.threadNext t = some s') : Step s (.thread t) s' := by
  cases ht : s.thread t <;> simp only [State.threadNext, ht, reduceCtorEq] at hn
  case take m =>
    split_ifs at hn with h_free
    exact Option.some.inj hn ▸ .take t m ht h_free
  case find m =>
    -- the list is searched for the semaphore of the thread
    split at hn
    · next semptr h_find =>
      have h_eq : semptr.1 = t := by simpa using List.find?_some h_find
      have h_mem : (t, semptr.2) ∈ s.semlist := h_eq ▸ List.mem_of_find?_eq_some h_find
      exact Option.some.inj hn ▸ .found t m semptr.2 ht h_mem
    · exact Option.some.inj hn ▸ .missing t m ht
  case create m => exact Option.some.inj hn ▸ .create t m ht
  case link m sem next => exact Option.some.inj hn ▸ .link t m sem next ht
  case release m => exact Option.some.inj hn ▸ .release t m ht
  case send m =>
    split_ifs at hn with h_room
    exact Option.some.inj hn ▸ .send t m ht h_room
  case wait m =>
    -- it waits for the token of its own semaphore
    split at hn
    · next sem h_sem =>
      split_ifs at hn with h_token
      exact Option.some.inj hn ▸ .wake t m sem ht h_sem h_token
    · exact absurd hn (by simp)

theorem step_accept {r : Answer} (hn : s.next (.accept r) = some s') : Step s (.accept r) s' := by
  simp only [State.next] at hn
  split at hn
  · next m q h_loop h_queue =>
    split_ifs at hn
    obtain rfl := Option.some.inj hn
    unfold State.accept
    split
    · next pcb len timeout hf => exact .receive r m q pcb len timeout h_loop h_queue hf
    · split_ifs
      · exact .answer r m q h_loop h_queue
      · exact .resolve r m q h_loop h_queue
  · next q h_loop h_queue => exact Option.some.inj hn ▸ .null r q h_loop h_queue
  · exact absurd hn (by simp)

theorem step_of_next (hn : s.next a = some s') : Step s a s' := by
  cases a with
  | call t f =>
    simp only [State.next] at hn
    -- a thread makes one call at a time
    split_ifs at hn with ht
    exact Option.some.inj hn ▸ .call t f ht
  | thread t => exact step_thread hn
  | accept r => exact step_accept hn
  | datagram pcb bytes =>
    simp only [State.next] at hn
    -- a datagram for a socket without a receiver is not taken
    split at hn
    · next m h_loop h_udp => exact Option.some.inj hn ▸ .datagram m pcb bytes h_loop h_udp
    · exact absurd hn (by simp)
  | timeout m =>
    simp only [State.next] at hn
    split_ifs at hn with h
    exact Option.some.inj hn ▸ .timeout m h.1 h.2
  | dnsAnswer m addr =>
    simp only [State.next] at hn
    split_ifs at hn with h
    exact Option.some.inj hn ▸ .dnsAnswer m addr h.1 h.2
  | give =>
    simp only [State.next] at hn
    split at hn
    · next m h_give =>
      -- the message has a semaphore by now
      split at hn
      · next sem h_sem => exact Option.some.inj hn ▸ .give m sem h_give h_sem
      · exact absurd hn (by simp)
    · exact absurd hn (by simp)
  | inline f r =>
    simp only [State.next] at hn
    split_ifs at hn with h
    exact Option.some.inj hn ▸ .inline f r h.1
  | frame =>
    simp only [State.next] at hn
    -- the null pointer is lost when the queue is full
    split_ifs at hn
    · exact Option.some.inj hn ▸ .frame
    · exact Option.some.inj hn ▸ .lost

end Step

end Api

end Laureline
