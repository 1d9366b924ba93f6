import Laureline.Net.Api
import Mathlib.Data.Nat.Basic
import Mathlib.Order.Basic
import Mathlib.Data.List.Basic

/-!
# Threads, semaphores and references of a call

Three groups of invariants of `tcpapi.c`, each with what the steps do to it:

* `Threads` — a thread that is in a call and the call know of each other;
* `Sems` — `api_mutex` guards `semlist`, and every thread has a semaphore of its own;
* `Referenced` — the queue, the sockets, the timeouts, the resolver and the network thread
  refer to a message exactly as its stage says (`Refs.of`), given that at most one
  `api_udp_recv` is outstanding on a socket (`OneReceiver`).
-/

namespace Laureline

namespace Api

/-! ### Threads -/

section Threads

variable {T : Type} {s s' : State T}

/-- Threads and calls belong together. -/
structure Threads (s : State T) : Prop where
  place : ∀ t m, (s.thread t).msg = some m → s.owner m = some t ∧ s.stage m ≠ none ∧
    (s.thread t = .wait m ↔ s.stage m ≠ some .new)
  busy : ∀ m, s.stage m ≠ none → ∃ t, (s.thread t).msg = some m
  fresh : ∀ m, s.calls ≤ m → s.stage m = none

/-- Two threads are in different calls. -/
theorem Threads.thread_eq (h : Threads s) {t t' : T} {m : Msg} (ht : (s.thread t).msg = some m)
    (ht' : (s.thread t').msg = some m) : t = t' :=
  Option.some.inj ((h.place t m ht).1.symm.trans (h.place t' m ht').1)

/-- The waiting thread of a message that was posted. -/
theorem Threads.waits (h : Threads s) {m : Msg} {g : Stage} (hg : s.stage m = some g)
    (h_ne : g ≠ .new) : ∃ t, s.thread t = .wait m := by
  obtain ⟨t, ht⟩ := h.busy m (by simp [hg])
  refine ⟨t, (h.place t m ht).2.2.mpr ?_⟩
  rw [hg]
  exact fun h_eq => h_ne (Option.some.inj h_eq)

theorem Threads.stage_new (h : Threads s) {t : T} {m : Msg} (ht : (s.thread t).msg = some m)
    (h_wait : s.thread t ≠ .wait m) : s.stage m = some .new := by
  by_contra h_new
  exact h_wait ((h.place t m ht).2.2.mpr h_new)

/-- Neither threads nor stages change. -/
theorem Threads.congr (h : Threads s) (h_thread : s'.thread = s.thread)
    (h_calls : s.calls ≤ s'.calls)
    (h_owner : s'.owner = s.owner) (h_stage : s'.stage = s.stage) : Threads s' := by
  refine ⟨fun u d hu => ?_, fun d hd => ?_, fun d hd => ?_⟩
  · rw [h_thread] at hu ⊢
    rw [h_owner, h_stage]
    exact h.place u d hu
  · rw [h_thread]
    exact h.busy d (h_stage ▸ hd)
  · rw [h_stage]
    exact h.fresh d (h_calls.trans hd)

/-- A call comes from one stage to another after its message is posted. -/
theorem Threads.advance (h : Threads s) {m : Msg} {g g' : Stage} (hg : s.stage m = some g)
    (h_ne : g ≠ .new) (h_ne' : g' ≠ .new) (h_thread : s'.thread = s.thread)
    (h_calls : s'.calls = s.calls) (h_owner : s'.owner = s.owner)
    (h_stage : s'.stage = Function.update s.stage m (some g')) : Threads s' := by
  -- the message was under way and still is, neither fresh nor done
  have h_none (d : Msg) : s'.stage d = none ↔ s.stage d = none := by
    by_cases h_eq : d = m
    · subst h_eq
      simp [h_stage, hg]
    · rw [h_stage, Function.update_of_ne h_eq]
  have h_new (d : Msg) : s'.stage d = some .new ↔ s.stage d = some .new := by
    by_cases h_eq : d = m
    · subst h_eq
      simp [h_stage, hg, h_ne, h_ne']
    · rw [h_stage, Function.update_of_ne h_eq]
  refine ⟨fun u d hu => ?_, fun d hd => ?_, fun d hd => ?_⟩
  · rw [h_thread] at hu ⊢
    rw [h_owner, ne_eq, h_none, ne_eq, h_new]
    exact h.place u d hu
  · rw [h_thread]
    exact h.busy d fun h_eq => hd ((h_none d).mpr h_eq)
  · exact (h_none d).mpr (h.fresh d (h_calls ▸ hd))

/-- Another thread has another message. -/
theorem Threads.msg_ne (h : Threads s) {t u : T} {m d : Msg} (ht : (s.thread t).msg = some m)
    (hu : (s.thread u).msg = some d) (h_ne : u ≠ t) : d ≠ m := by
  rintro rfl
  exact h_ne (h.thread_eq hu ht)

/-- Another message is that of another thread. -/
theorem Threads.busy_ne (h : Threads s) {t : T} {m d : Msg} (ht : (s.thread t).msg = some m)
    (hd : s.stage d ≠ none) (h_ne : d ≠ m) : ∃ u, u ≠ t ∧ (s.thread u).msg = some d := by
  obtain ⟨u, hu⟩ := h.busy d hd
  refine ⟨u, ?_, hu⟩
  rintro rfl
  exact h_ne (Option.some.inj (hu.symm.trans ht))

variable [DecidableEq T]

/-- A thread goes on within its call before it waits. -/
theorem Threads.goto (h : Threads s) {t : T} {m : Msg} {pc : Pc T} (ht : (s.thread t).msg = some m)
    (h_wait : s.thread t ≠ .wait m) (hpc : pc.msg = some m) (h_wait' : pc ≠ .wait m)
    (h_thread : s'.thread = Function.update s.thread t pc) (h_calls : s'.calls = s.calls)
    (h_owner : s'.owner = s.owner) (h_stage : s'.stage = s.stage) : Threads s' := by
  have h_new := h.stage_new ht h_wait
  refine ⟨fun u d hu => ?_, fun d hd => ?_, fun d hd => ?_⟩
  · rw [h_owner, h_stage]
    -- the thread has the same message at its new place
    by_cases h_eq : u = t
    · subst h_eq
      rw [h_thread, Function.update_self] at hu ⊢
      obtain rfl := Option.some.inj (hu.symm.trans hpc)
      exact ⟨(h.place u d ht).1, (h.place u d ht).2.1, by simp [h_wait', h_new]⟩
    · rw [h_thread, Function.update_of_ne h_eq] at hu ⊢
      exact h.place u d hu
  · rw [h_stage] at hd
    obtain ⟨u, hu⟩ := h.busy d hd
    refine ⟨u, ?_⟩
    by_cases h_eq : u = t
    · subst h_eq
      rw [h_thread, Function.update_self, hpc, ← ht, hu]
    · rwa [h_thread, Function.update_of_ne h_eq]
  · rw [h_stage]
    exact h.fresh d (h_calls ▸ hd)

theorem Threads.call (h : Threads s) {t : T} (f : Func) (ht : s.thread t = .out) :
    Threads (s.call t f) := by
  -- the new message is none of the old ones
  have h_ne (d : Msg) (hd : s.stage d ≠ none) : d ≠ s.calls := by
    rintro rfl
    exact hd (h.fresh _ le_rfl)
  refine ⟨fun u d hu => ?_, fun d hd => ?_, fun d hd => ?_⟩
  · by_cases h_eq : u = t
    · subst h_eq
      simp only [State.call, State.advance, State.goto, Function.update_self] at hu ⊢
      obtain rfl := Option.some.inj hu
      simp
    · simp only [State.call, State.advance, State.goto, Function.update_of_ne h_eq] at hu ⊢
      have h_place := h.place u d hu
      rw [Function.update_of_ne (h_ne d h_place.2.1), Function.update_of_ne (h_ne d h_place.2.1)]
      exact h_place
  · by_cases h_eq : d = s.calls
    · subst h_eq
      exact ⟨t, by simp [State.call, State.advance, State.goto, Pc.msg]⟩
    · simp only [State.call, State.advance, State.goto, Function.update_of_ne h_eq] at hd ⊢
      obtain ⟨u, hu⟩ := h.busy d hd
      -- the caller had no message before
      have h_other : u ≠ t := by
        rintro rfl
        rw [ht] at hu
        exact absurd hu (by simp [Pc.msg])
      exact ⟨u, by rwa [Function.update_of_ne h_other]⟩
  · have h_lt : s.calls < d := hd
    show Function.update s.stage s.calls _ d = none
    rw [Function.update_of_ne h_lt.ne']
    exact h.fresh d h_lt.le

theorem Threads.send (h : Threads s) {t : T} {m : Msg} (ht : s.thread t = .send m)
    (h_thread : s'.thread = Function.update s.thread t (.wait m)) (h_calls : s'.calls = s.calls)
    (h_owner : s'.owner = s.owner)
    (h_stage : s'.stage = Function.update s.stage m (some .queued)) : Threads s' := by
  have h_msg : (s.thread t).msg = some m := by rw [ht]; rfl
  refine ⟨fun u d hu => ?_, fun d hd => ?_, fun d hd => ?_⟩
  · by_cases h_eq : u = t
    · subst h_eq
      rw [h_thread, Function.update_self] at hu ⊢
      obtain rfl := Option.some.inj hu
      rw [h_owner, h_stage, Function.update_self]
      exact ⟨(h.place u m h_msg).1, by simp, by simp⟩
    · rw [h_thread, Function.update_of_ne h_eq] at hu ⊢
      rw [h_owner, h_stage, Function.update_of_ne (h.msg_ne h_msg hu h_eq)]
      exact h.place u d hu
  · by_cases h_eq : d = m
    · exact ⟨t, by rw [h_thread, Function.update_self, h_eq]; rfl⟩
    · rw [h_stage, Function.update_of_ne h_eq] at hd
      obtain ⟨u, h_other, hu⟩ := h.busy_ne h_msg hd h_eq
      exact ⟨u, by rwa [h_thread, Function.update_of_ne h_other]⟩
  -- a message that is sent is not a fresh one
  · have h_ne : d ≠ m := by
      rintro rfl
      exact (h.place t d h_msg).2.1 (h.fresh d (h_calls ▸ hd))
    rw [h_stage, Function.update_of_ne h_ne]
    exact h.fresh d (h_calls ▸ hd)

theorem Threads.wake (h : Threads s) {t : T} {m : Msg} (ht : s.thread t = .wait m)
    (h_thread : s'.thread = Function.update s.thread t .out) (h_calls : s'.calls = s.calls)
    (h_owner : s'.owner = s.owner)
    (h_stage : s'.stage = Function.update s.stage m none) : Threads s' := by
  have h_msg : (s.thread t).msg = some m := by rw [ht]; rfl
  refine ⟨fun u d hu => ?_, fun d hd => ?_, fun d hd => ?_⟩
  · by_cases h_eq : u = t
    · subst h_eq
      rw [h_thread, Function.update_self] at hu
      -- the thread that returns has no message
      exact absurd hu (by simp [Pc.msg])
    · rw [h_thread, Function.update_of_ne h_eq] at hu ⊢
      rw [h_owner, h_stage, Function.update_of_ne (h.msg_ne h_msg hu h_eq)]
      exact h.place u d hu
  · by_cases h_eq : d = m
    · rw [h_stage, h_eq, Function.update_self] at hd
      exact absurd rfl hd
    · rw [h_stage, Function.update_of_ne h_eq] at hd
      -- any other message has another thread
      obtain ⟨u, h_other, hu⟩ := h.busy_ne h_msg hd h_eq
      exact ⟨u, by rwa [h_thread, Function.update_of_ne h_other]⟩
  · by_cases h_eq : d = m
    · rw [h_stage, h_eq, Function.update_self]
    · rw [h_stage, Function.update_of_ne h_eq]
      exact h.fresh d (h_calls ▸ hd)

end Threads

/-! ### Semaphores -/

/-- The message has its semaphore. -/
def Pc.located {T : Type} : Pc T → Bool
  | .release _ | .send _ | .wait _ => true
  | _ => false

/-- Every thread has its own semaphore. -/
structure Sems {T : Type} (s : State T) : Prop where
  locked : ∀ t, (s.thread t).locked = true ↔ s.mutex = some t
  link : ∀ t m sem next, s.thread t = .link m sem next →
    next = s.semlist ∧ s.sem m = some sem ∧ sem < s.sems ∧ ∀ e ∈ s.semlist, e.2 ≠ sem
  sem : ∀ t m, (s.thread t).msg = some m → (s.thread t).located = true →
    ∃ sem, s.sem m = some sem ∧ (t, sem) ∈ s.semlist
  created : ∀ e ∈ s.semlist, e.2 < s.sems
  unique : ∀ t t' sem, (t, sem) ∈ s.semlist → (t', sem) ∈ s.semlist → t = t'

section Sems

variable {T : Type} {s s' : State T}

/-- The semaphore of a waiting thread. -/
theorem Sems.of_wait (h : Sems s) {t : T} {m : Msg} (ht : s.thread t = .wait m) :
    ∃ sem, s.sem m = some sem ∧ (t, sem) ∈ s.semlist :=
  h.sem t m (by rw [ht]; rfl) (by rw [ht]; rfl)

theorem Sems.congr (h : Sems s) (h_thread : s'.thread = s.thread) (h_mutex : s'.mutex = s.mutex)
    (h_semlist : s'.semlist = s.semlist) (h_sems : s'.sems = s.sems) (h_sem : s'.sem = s.sem) :
    Sems s' := by
  constructor
  · rw [h_thread, h_mutex]
    exact h.locked
  · rw [h_thread, h_semlist, h_sem, h_sems]
    exact h.link
  · rw [h_thread, h_semlist, h_sem]
    exact h.sem
  · rw [h_semlist, h_sems]
    exact h.created
  · rw [h_semlist]
    exact h.unique

/-- A thread that is about to link its entry has `api_mutex`. -/
theorem Sems.mutex_of_link (h : Sems s) {t : T} {m : Msg} {sem : Sem} {next : List (T × Sem)}
    (ht : s.thread t = .link m sem next) : s.mutex = some t :=
  (h.locked t).mp (by rw [ht]; rfl)

/-- The store of a message's semaphore is not seen by the calls of other threads. -/
theorem Threads.sem_of_ne (h : Threads s) {t : T} {m : Msg} (ht : (s.thread t).msg = some m)
    (sem : Option Sem) (u : T) (d : Msg) (h_ne : u ≠ t) (hu : (s.thread u).msg = some d) :
    Function.update s.sem m sem d = s.sem d := by
  refine Function.update_of_ne ?_ _ _
  rintro rfl
  exact h_ne (h.thread_eq hu ht)

variable [DecidableEq T]

/-- The mutex stays with its holder. -/
theorem Sems.locked_goto (h : Sems s) {t : T} {pc : Pc T}
    (hpc : pc.locked = (s.thread t).locked) (u : T) :
    (Function.update s.thread t pc u).locked = true ↔ s.mutex = some u := by
  by_cases h_eq : u = t
  · rw [h_eq, Function.update_self, hpc]
    exact h.locked t
  · rw [Function.update_of_ne h_eq]
    exact h.locked u

/-- A thread goes on and does not change `semlist`. -/
theorem Sems.goto (h : Sems s) (t : T) (pc : Pc T)
    (h_thread : s'.thread = Function.update s.thread t pc)
    (h_semlist : s'.semlist = s.semlist) (h_sems : s'.sems = s.sems)
    (h_sem : ∀ u m, u ≠ t → (s.thread u).msg = some m → s'.sem m = s.sem m)
    (h_locked : ∀ u, (Function.update s.thread t pc u).locked = true ↔ s'.mutex = some u)
    (h_link : ∀ m sem next, pc ≠ .link m sem next)
    (h_located : ∀ m, pc.msg = some m → pc.located = true →
      ∃ sem, s'.sem m = some sem ∧ (t, sem) ∈ s.semlist) : Sems s' := by
  refine ⟨?_, fun u m sem next hu => ?_, fun u m hu hl => ?_, ?_, ?_⟩
  · rw [h_thread]
    exact h_locked
  -- the thread itself is not at the link; the others are where they were
  · by_cases h_eq : u = t
    · rw [h_thread, h_eq, Function.update_self] at hu
      exact absurd hu (h_link m sem next)
    · rw [h_thread, Function.update_of_ne h_eq] at hu
      rw [h_semlist, h_sems, h_sem u m h_eq (by rw [hu]; rfl)]
      exact h.link u m sem next hu
  · rw [h_semlist]
    -- its own semaphore is located as the caller says
    by_cases h_eq : u = t
    · rw [h_thread, h_eq, Function.update_self] at hu hl
      rw [h_eq]
      exact h_located m hu hl
    · rw [h_thread, Function.update_of_ne h_eq] at hu hl
      rw [h_sem u m h_eq hu]
      exact h.sem u m hu hl
  · rw [h_semlist, h_sems]
    exact h.created
  · rw [h_semlist]
    exact h.unique

theorem Sems.call (h : Sems s) (hT : Threads s) {t : T} (f : Func) (ht : s.thread t = .out) :
    Sems (s.call t f) := by
  refine h.goto t (.take s.calls) rfl rfl rfl (fun u d _ hu => ?_)
    (h.locked_goto (by rw [ht]; rfl)) (fun _ _ _ => by simp)
    fun _ _ hl => absurd hl Bool.false_ne_true
  refine Function.update_of_ne ?_ _ _
  rintro rfl
  exact (hT.place u _ hu).2.1 (hT.fresh _ le_rfl)

theorem Sems.take (h : Sems s) {t : T} {m : Msg} (h_free : s.mutex = none) :
    Sems { s.goto t (.find m) with mutex := some t } := by
  refine h.goto t (.find m) rfl rfl rfl (fun _ _ _ _ => rfl) (fun u => ?_)
    (fun _ _ _ => by simp) fun _ _ hl => absurd hl Bool.false_ne_true
  by_cases h_eq : u = t
  · rw [h_eq, Function.update_self]
    exact ⟨fun _ => rfl, fun _ => rfl⟩
  · rw [Function.update_of_ne h_eq, h.locked u, h_free]
    simp [Ne.symm h_eq]

theorem Sems.create (h : Sems s) (hT : Threads s) {t : T} {m : Msg} (ht : s.thread t = .create m) :
    Sems { s.goto t (.link m s.sems s.semlist) with
      sems := s.sems + 1, sem := Function.update s.sem m (some s.sems) } := by
  have h_msg : (s.thread t).msg = some m := by rw [ht]; rfl
  have h_mutex : s.mutex = some t := (h.locked t).mp (by rw [ht]; rfl)
  refine ⟨h.locked_goto (by rw [ht]; rfl), fun u d sem next hu => ?_, fun u d hu hl => ?_,
    fun e he => Nat.lt_succ_of_lt (h.created e he), h.unique⟩
  · by_cases h_eq : u = t
    · simp only [State.goto, h_eq, Function.update_self] at hu
      cases hu
      exact ⟨rfl, Function.update_self _ _ _, Nat.lt_succ_self _, fun e he => (h.created e he).ne⟩
    -- the mutex keeps the others from linking
    · simp only [State.goto, Function.update_of_ne h_eq] at hu
      exact absurd ((h.mutex_of_link hu).symm.trans h_mutex) fun h' => h_eq (Option.some.inj h')
  · by_cases h_eq : u = t
    · simp only [State.goto, h_eq, Function.update_self] at hl
      exact absurd hl (by simp [Pc.located])
    · simp only [State.goto, Function.update_of_ne h_eq] at hu hl
      show ∃ sem, Function.update s.sem m _ d = some sem ∧ _
      rw [hT.sem_of_ne h_msg _ u d h_eq hu]
      exact h.sem u d hu hl

theorem Sems.insert (h : Sems s) {t : T} {m : Msg} {sem : Sem} {next : List (T × Sem)}
    (ht : s.thread t = .link m sem next) :
    Sems { s.goto t (.release m) with semlist := (t, sem) :: next } := by
  obtain ⟨rfl, h_sem, h_lt, h_new⟩ := h.link t m sem next ht
  refine ⟨h.locked_goto (by rw [ht]; rfl), fun u d sem' next hu => ?_, fun u d hu hl => ?_,
    fun e he => ?_, fun u u' sem' hu hu' => ?_⟩
  · by_cases h_eq : u = t
    · simp [State.goto, h_eq] at hu
    · simp only [State.goto, Function.update_of_ne h_eq] at hu
      exact absurd ((h.mutex_of_link hu).symm.trans (h.mutex_of_link ht))
        fun h' => h_eq (Option.some.inj h')
  · by_cases h_eq : u = t
    · simp only [State.goto, h_eq, Function.update_self] at hu
      obtain rfl := Option.some.inj hu
      exact ⟨sem, h_sem, h_eq ▸ List.mem_cons_self⟩
    · simp only [State.goto, Function.update_of_ne h_eq] at hu hl
      obtain ⟨sem', h_sem', h_mem⟩ := h.sem u d hu hl
      exact ⟨sem', h_sem', List.mem_cons_of_mem _ h_mem⟩
  · rcases List.mem_cons.mp he with rfl | he
    · exact h_lt
    · exact h.created e he
  · -- the new semaphore is in no entry yet
    rcases List.mem_cons.mp hu with h_u | h_u <;> rcases List.mem_cons.mp hu' with h_u' | h_u'
    · rw [(Prod.mk.inj h_u).1, (Prod.mk.inj h_u').1]
    · exact absurd (Prod.mk.inj h_u).2 (h_new _ h_u')
    · exact absurd (Prod.mk.inj h_u').2 (h_new _ h_u)
    · exact h.unique u u' sem' h_u h_u'

theorem Sems.release (h : Sems s) {t : T} {m : Msg} (ht : s.thread t = .release m) :
    Sems { s.goto t (.send m) with mutex := none } := by
  have h_mutex : s.mutex = some t := (h.locked t).mp (by rw [ht]; rfl)
  refine h.goto t (.send m) rfl rfl rfl (fun _ _ _ _ => rfl) (fun u => ?_)
    (fun _ _ _ => by simp) fun d hd _ => ?_
  · by_cases h_eq : u = t
    · rw [h_eq, Function.update_self]
      exact ⟨fun h' => absurd h' Bool.false_ne_true, fun h' => absurd h' (by simp)⟩
    · rw [Function.update_of_ne h_eq, h.locked u, h_mutex]
      simp [Ne.symm h_eq]
  · obtain rfl := Option.some.inj hd
    exact h.sem t m (by rw [ht]; rfl) (by rw [ht]; rfl)

end Sems

/-! ### References to a message -/

/-- What refers to a message. -/
@[ext]
structure Refs where
  queue : ℕ
  give : Prop
  udp : Pcb → Prop
  timeouts : ℕ
  dns : ℕ

/-- Nothing refers to the message. -/
def Refs.none : Refs where
  queue := 0
  give := False
  udp _ := False
  timeouts := 0
  dns := 0

/-- What refers to the message of a call. -/
def Refs.of : Option Stage → Func → Refs
  | some .queued, _ => { Refs.none with queue := 1 }
  | some .udp, f =>
    { Refs.none with
      udp pcb := f.pcb = some pcb, timeouts := if f.timeout ≠ 0 then 1 else 0 }
  | some .dns, _ => { Refs.none with dns := 1 }
  | some .give, _ => { Refs.none with give := True }
  | _, _ => Refs.none

/-- What refers to a message. -/
def State.refs {T : Type} (s : State T) (m : Msg) : Refs where
  queue := s.queue.count (some m)
  give := s.tcpip = .give m
  udp pcb := s.udp pcb = some m
  timeouts := s.timeouts.count m
  dns := s.dns.count m

/-- Every reference to a message belongs to the stage of its call. -/
structure Referenced {T : Type} (s : State T) : Prop where
  refs : ∀ m, s.refs m = Refs.of (s.stage m) (s.func m)
  one : ∀ m m' pcb, s.stage m ≠ none → s.stage m' ≠ none → (s.func m).pcb = some pcb →
    (s.func m').pcb = some pcb → m = m'
  receives : ∀ m, s.stage m = some .udp → (s.func m).pcb ≠ none

section Referenced

variable {T : Type} {s s' : State T} {m : Msg}

theorem Referenced.of_queue (h : Referenced s) (hm : some m ∈ s.queue) :
    s.stage m = some .queued := by
  have h_pos : (Refs.of (s.stage m) (s.func m)).queue ≠ 0 := by
    rw [← h.refs m]
    exact (List.count_pos_iff.mpr hm).ne'
  cases hg : s.stage m with
  | none => simp [hg, Refs.of, Refs.none] at h_pos
  | some g => cases g <;> simp [hg, Refs.of, Refs.none] at h_pos ⊢

theorem Referenced.of_give (h : Referenced s) (hm : s.tcpip = .give m) :
    s.stage m = some .give := by
  have h_give : (Refs.of (s.stage m) (s.func m)).give := by
    rw [← h.refs m]
    exact hm
  cases hg : s.stage m with
  | none => simp [hg, Refs.of, Refs.none] at h_give
  | some g => cases g <;> simp [hg, Refs.of, Refs.none] at h_give ⊢

theorem Referenced.of_udp (h : Referenced s) {pcb : Pcb} (hm : s.udp pcb = some m) :
    s.stage m = some .udp ∧ (s.func m).pcb = some pcb := by
  have h_udp : (Refs.of (s.stage m) (s.func m)).udp pcb := by
    rw [← h.refs m]
    exact hm
  cases hg : s.stage m with
  | none => simp [hg, Refs.of, Refs.none] at h_udp
  | some g =>
    cases g <;> simp [hg, Refs.of, Refs.none] at h_udp ⊢
    exact h_udp

theorem Referenced.of_timeouts (h : Referenced s) (hm : m ∈ s.timeouts) :
    s.stage m = some .udp := by
  have h_pos : (Refs.of (s.stage m) (s.func m)).timeouts ≠ 0 := by
    rw [← h.refs m]
    exact (List.count_pos_iff.mpr hm).ne'
  cases hg : s.stage m with
  | none => simp [hg, Refs.of, Refs.none] at h_pos
  | some g => cases g <;> simp [hg, Refs.of, Refs.none] at h_pos ⊢

theorem Referenced.of_dns (h : Referenced s) (hm : m ∈ s.dns) : s.stage m = some .dns := by
  have h_pos : (Refs.of (s.stage m) (s.func m)).dns ≠ 0 := by
    rw [← h.refs m]
    exact (List.count_pos_iff.mpr hm).ne'
  cases hg : s.stage m with
  | none => simp [hg, Refs.of, Refs.none] at h_pos
  | some g => cases g <;> simp [hg, Refs.of, Refs.none] at h_pos ⊢

/-- The socket of a message that waits for a datagram. -/
theorem Referenced.udp_of_stage (h : Referenced s) {pcb : Pcb} (hg : s.stage m = some .udp)
    (hp : (s.func m).pcb = some pcb) : s.udp pcb = some m := by
  have h_refs := congrArg (fun r => r.udp pcb) (h.refs m)
  simp only [State.refs, Refs.of, hg, hp, eq_iff_iff, iff_true] at h_refs
  exact h_refs

/-- One message comes to another stage, and the references to it change with it. -/
theorem Referenced.advance (h : Referenced s) {g : Stage} {g' : Option Stage}
    (hg : s.stage m = some g) (h_func : s'.func = s.func)
    (h_stage : s'.stage = Function.update s.stage m g')
    (h_others : ∀ d, d ≠ m → s'.refs d = s.refs d) (h_refs : s'.refs m = Refs.of g' (s.func m))
    (h_receives : g' = some .udp → (s.func m).pcb ≠ none) : Referenced s' := by
  -- a call that has a stage now had one before
  have h_none (d : Msg) : s'.stage d ≠ none → s.stage d ≠ none := by
    by_cases h_eq : d = m
    · subst h_eq
      simp [hg]
    · rw [h_stage, Function.update_of_ne h_eq]
      exact id
  -- the references, the one receiver of a pcb, and the calls that receive
  refine ⟨fun d => ?_, fun d d' pcb hd hd' => ?_, fun d hd => ?_⟩
  · rw [h_func, h_stage]
    by_cases h_eq : d = m
    · rw [h_eq, Function.update_self, h_refs]
    · rw [Function.update_of_ne h_eq, h_others d h_eq]
      exact h.refs d
  · rw [h_func]
    exact h.one d d' pcb (h_none d hd) (h_none d' hd')
  · rw [h_func]
    by_cases h_eq : d = m
    · rw [h_stage, h_eq, Function.update_self] at hd
      rw [h_eq]
      exact h_receives hd
    · rw [h_stage, Function.update_of_ne h_eq] at hd
      exact h.receives d hd

theorem Referenced.congr (h : Referenced s) (h_func : ∀ m, s.stage m ≠ none → s'.func m = s.func m)
    (h_stage : s'.stage = s.stage) (h_refs : ∀ m, s'.refs m = s.refs m) : Referenced s' := by
  refine ⟨fun d => ?_, fun d d' pcb hd hd' => ?_, fun d hd => ?_⟩
  · rw [h_refs, h.refs, h_stage]
    cases hg : s.stage d with
    | none => rfl
    | some g => rw [h_func d (by simp [hg])]
  · rw [h_stage] at hd hd'
    rw [h_func d hd, h_func d' hd']
    exact h.one d d' pcb hd hd'
  · rw [h_stage] at hd
    rw [h_func d (by simp [hd])]
    exact h.receives d hd

/-- The references to the message at the head of the queue. -/
theorem Referenced.head (h : Referenced s) {q : List (Option Msg)}
    (h_queue : s.queue = some m :: q) :
    s.stage m = some .queued ∧ q.count (some m) = 0 ∧ (∀ pcb, s.udp pcb ≠ some m) ∧
      s.timeouts.count m = 0 ∧ s.dns.count m = 0 := by
  have h_stage : s.stage m = some .queued := h.of_queue (by simp [h_queue])
  have h_refs := h.refs m
  rw [h_stage, Refs.ext_iff] at h_refs
  obtain ⟨h_count, -, h_udp, h_timeouts, h_dns⟩ := h_refs
  refine ⟨h_stage, ?_, fun pcb h_pcb => ?_, h_timeouts, h_dns⟩
  · simp only [State.refs, Refs.of, h_queue, List.count_cons_self] at h_count
    omega
  · exact (congrFun h_udp pcb).mp h_pcb

theorem Referenced.answer (h : Referenced s) {q : List (Option Msg)} (r : Answer)
    (h_loop : s.tcpip = .loop) (h_queue : s.queue = some m :: q) :
    Referenced ({ s with queue := q }.finish m r) := by
  obtain ⟨h_stage, h_count, h_udp, h_timeouts, h_dns⟩ := h.head h_queue
  refine h.advance h_stage rfl rfl (fun d h_ne => ?_) ?_ (by simp)
  · simp [State.refs, State.finish, State.advance, h_loop, h_queue, h_ne.symm]
  · simp [State.refs, State.finish, State.advance, Refs.of, Refs.none, h_count, h_udp, h_timeouts,
      h_dns]

theorem Referenced.receive (h : Referenced s) {q : List (Option Msg)} {pcb : Pcb} {len timeout : ℕ}
    (h_loop : s.tcpip = .loop) (h_queue : s.queue = some m :: q)
    (hf : s.func m = .udpRecv pcb len timeout) :
    Referenced (({ s with queue := q }.doUdpRecv m pcb timeout).inProgress m .udp) := by
  obtain ⟨h_stage, h_count, h_udp, h_timeouts, h_dns⟩ := h.head h_queue
  have h_pcb : (s.func m).pcb = some pcb := by rw [hf]; rfl
  -- no other message is registered on the socket
  have h_free (d : Msg) (hd : s.udp pcb = some d) : d = m := by
    obtain ⟨hd_stage, hd_pcb⟩ := h.of_udp hd
    exact h.one d m pcb (by simp [hd_stage]) (by simp [h_stage]) hd_pcb h_pcb
  refine h.advance h_stage rfl rfl (fun d h_ne => ?_) ?_ (fun _ => by simp [h_pcb])
  · refine Refs.ext ?_ rfl (funext fun p => propext ?_) ?_ rfl
    · simp [State.refs, State.inProgress, State.doUdpRecv, State.advance, h_queue, h_ne.symm]
    · by_cases h_eq : p = pcb
      · subst h_eq
        have h_no : s.udp p ≠ some d := fun hd => h_ne (h_free d hd)
        simp [State.refs, State.inProgress, State.doUdpRecv, State.advance, h_ne.symm, h_no]
      · simp [State.refs, State.inProgress, State.doUdpRecv, State.advance, h_eq]
    -- no timeout, or one for `m`
    · show List.count d (if timeout ≠ 0 then s.timeouts ++ [m] else s.timeouts) = s.timeouts.count d
      split_ifs
      · simp [List.count_append, h_ne.symm]
      · rfl
  · refine Refs.ext h_count ?_ (funext fun p => propext ?_) ?_ h_dns
    · simp [State.refs, State.inProgress, State.doUdpRecv, State.advance, h_loop, Refs.of,
        Refs.none]
    · by_cases h_eq : p = pcb
      · subst h_eq
        simp [State.refs, State.inProgress, State.doUdpRecv, State.advance, Refs.of, h_pcb]
      · simp [State.refs, State.inProgress, State.doUdpRecv, State.advance, Refs.of, h_pcb, h_eq,
          h_udp p, Ne.symm h_eq]
    · show List.count m (if timeout ≠ 0 then s.timeouts ++ [m] else s.timeouts) =
        if (s.func m).timeout ≠ 0 then 1 else 0
      rw [hf]
      show _ = if timeout ≠ 0 then 1 else 0
      split_ifs
      · simp [List.count_append, h_timeouts]
      · exact h_timeouts

theorem Referenced.resolve (h : Referenced s) {q : List (Option Msg)}
    (h_loop : s.tcpip = .loop) (h_queue : s.queue = some m :: q) :
    Referenced ({ s with queue := q, dns := s.dns ++ [m] }.inProgress m .dns) := by
  obtain ⟨h_stage, h_count, h_udp, h_timeouts, h_dns⟩ := h.head h_queue
  refine h.advance h_stage rfl rfl (fun d h_ne => ?_) ?_ (by simp)
  · simp [State.refs, State.inProgress, State.advance, h_queue, h_ne.symm, List.count_append]
  · simp [State.refs, State.inProgress, State.advance, Refs.of, Refs.none, h_count, h_udp,
      h_timeouts, h_dns, h_loop, List.count_append]

/-- A message that waits for a datagram is referred to by its socket and perhaps a timeout; a
result takes both away. -/
theorem Referenced.finishUdp (h : Referenced s) {pcb : Pcb} (r : Answer)
    (h_stage : s.stage m = some .udp) (h_pcb : (s.func m).pcb = some pcb)
    (h_loop : s.tcpip = .loop) :
    Referenced ({ s with
      udp := Function.update s.udp pcb none, timeouts := s.timeouts.erase m }.finish m r) := by
  have h_refs := h.refs m
  rw [h_stage, Refs.ext_iff] at h_refs
  obtain ⟨h_count, -, h_udp, h_timeouts, h_dns⟩ := h_refs
  have h_self := h.udp_of_stage h_stage h_pcb
  refine h.advance h_stage rfl rfl (fun d h_ne => ?_) ?_ (by simp)
  · refine Refs.ext rfl ?_ (funext fun p => propext ?_) ?_ rfl
    · simp [State.refs, State.finish, h_loop, h_ne.symm]
    · by_cases h_eq : p = pcb
      · subst h_eq
        simp [State.refs, State.finish, State.advance, h_self, h_ne.symm]
      · simp [State.refs, State.finish, State.advance, h_eq]
    · exact List.count_erase_of_ne h_ne
  · refine Refs.ext h_count ?_ (funext fun p => propext ?_) ?_ h_dns
    · simp [State.refs, State.finish, Refs.of]
    · by_cases h_eq : p = pcb
      · subst h_eq
        simp [State.refs, State.finish, State.advance, Refs.of, Refs.none]
      · have h_other : s.udp p ≠ some m := by
          intro hp
          exact h_eq (Option.some.inj ((h.of_udp hp).2.symm.trans h_pcb))
        simp [State.refs, State.finish, State.advance, Refs.of, Refs.none, h_eq, h_other]
    · show (s.timeouts.erase m).count m = 0
      -- the message had one timeout at most
      have h_le : s.timeouts.count m ≤ 1 := by
        rw [show s.timeouts.count m = _ from h_timeouts]
        show (if _ then 1 else 0) ≤ 1
        split_ifs <;> omega
      rw [List.count_erase_self]
      omega

theorem Referenced.dnsAnswer (h : Referenced s) (r : Answer) (h_loop : s.tcpip = .loop)
    (h_mem : m ∈ s.dns) : Referenced ({ s with dns := s.dns.erase m }.finish m r) := by
  have h_stage := h.of_dns h_mem
  have h_refs := h.refs m
  rw [h_stage, Refs.ext_iff] at h_refs
  obtain ⟨h_count, -, h_udp, h_timeouts, h_dns⟩ := h_refs
  refine h.advance h_stage rfl rfl (fun d h_ne => ?_) ?_ (by simp)
  · refine Refs.ext rfl ?_ rfl rfl (List.count_erase_of_ne h_ne)
    simp [State.refs, State.finish, h_loop, h_ne.symm]
  · refine Refs.ext h_count ?_ h_udp h_timeouts ?_
    · simp [State.refs, State.finish, Refs.of]
    · show (s.dns.erase m).count m = 0
      rw [List.count_erase_self, show s.dns.count m = 1 from h_dns]

theorem Referenced.give (h : Referenced s) {sem : Sem} (h_give : s.tcpip = .give m) :
    Referenced { s.advance m (some .given) with
      tcpip := .loop, token := Function.update s.token sem true } := by
  have h_stage := h.of_give h_give
  have h_refs := h.refs m
  rw [h_stage, Refs.ext_iff] at h_refs
  obtain ⟨h_count, -, h_udp, h_timeouts, h_dns⟩ := h_refs
  refine h.advance h_stage rfl rfl (fun d h_ne => ?_) (Refs.ext h_count ?_ h_udp h_timeouts h_dns)
    (by simp)
  · refine Refs.ext rfl ?_ rfl rfl rfl
    simp [State.refs, h_give, h_ne.symm]
  · simp [State.refs, Refs.of, Refs.none]

variable [DecidableEq T]

/-- At most one `api_udp_recv` is outstanding on a socket. -/
def OneReceiver (s : State T) : Action T → Prop
  | .call _ f => ∀ pcb, f.pcb = some pcb → ∀ t m, (s.thread t).msg = some m →
      (s.func m).pcb ≠ some pcb
  | _ => True

theorem Referenced.call (h : Referenced s) (hT : Threads s) {t : T} {f : Func}
    (hG : OneReceiver s (.call t f)) : Referenced (s.call t f) := by
  have h_fresh : s.stage s.calls = none := hT.fresh _ le_rfl
  have h_free (d : Msg) (pcb : Pcb) (hd : s.stage d ≠ none) (hf : f.pcb = some pcb) :
      (s.func d).pcb ≠ some pcb := by
    obtain ⟨u, hu⟩ := hT.busy d hd
    exact hG pcb hf u d hu
  refine ⟨fun d => ?_, fun d d' pcb hd hd' hp hp' => ?_, fun d hd => ?_⟩
  · show s.refs d =
      Refs.of (Function.update s.stage s.calls _ d) (Function.update s.func s.calls f d)
    by_cases h_eq : d = s.calls
    · rw [h_eq, Function.update_self, h.refs, h_fresh]
      rfl
    · rw [Function.update_of_ne h_eq, Function.update_of_ne h_eq]
      exact h.refs d
  · simp only [State.call, State.advance, State.goto] at hd hd' hp hp'
    -- a new receive finds its socket free, by the condition
    by_cases h_eq : d = s.calls <;> by_cases h_eq' : d' = s.calls
    · rw [h_eq, h_eq']
    · rw [h_eq, Function.update_self] at hp
      rw [Function.update_of_ne h_eq'] at hd' hp'
      exact absurd hp' (h_free d' pcb hd' hp)
    · rw [h_eq', Function.update_self] at hp'
      rw [Function.update_of_ne h_eq] at hd hp
      exact absurd hp (h_free d pcb hd hp')
    · rw [Function.update_of_ne h_eq] at hd hp
      rw [Function.update_of_ne h_eq'] at hd' hp'
      exact h.one d d' pcb hd hd' hp hp'
  · simp only [State.call, State.advance, State.goto] at hd ⊢
    by_cases h_eq : d = s.calls
    · rw [h_eq, Function.update_self] at hd
      exact absurd hd (by simp)
    · rw [Function.update_of_ne h_eq] at hd ⊢
      exact h.receives d hd

theorem Referenced.send (h : Referenced s) {t : T} (h_stage : s.stage m = some .new) :
    Referenced { (s.goto t (.wait m)).advance m (some .queued) with
      queue := s.queue ++ [some m] } := by
  have h_refs := h.refs m
  rw [h_stage, Refs.ext_iff] at h_refs
  obtain ⟨h_count, h_give, h_udp, h_timeouts, h_dns⟩ := h_refs
  refine h.advance h_stage rfl rfl (fun d h_ne => ?_) (Refs.ext ?_ h_give h_udp h_timeouts h_dns)
    (by simp)
  · have h_count' : (s.queue ++ [some m]).count (some d) = s.queue.count (some d) := by
      simp [List.count_append, h_ne.symm]
    exact Refs.ext h_count' rfl rfl rfl rfl
  · show (s.queue ++ [some m]).count (some m) = 1
    rw [List.count_append, show s.queue.count (some m) = 0 from h_count]
    simp

theorem Referenced.wake (h : Referenced s) {t : T} {token : Sem → Bool}
    {returned : List (Msg × Option Answer)} (h_stage : s.stage m = some .given) :
    Referenced { (s.goto t .out).advance m none with token, returned } := by
  refine h.advance h_stage rfl rfl (fun _ _ => rfl) ?_ (by simp)
  show s.refs m = _
  rw [h.refs, h_stage]
  rfl

end Referenced

end Api

end Laureline
