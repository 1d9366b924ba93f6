import Laureline.Net.ApiReferences
import Mathlib.Algebra.BigOperators.Group.Finset.Basic
import Mathlib.Data.Fintype.Basic
import Mathlib.Algebra.Ring.Nat

/-!
# Every call returns once

The rest of the invariant of `tcpapi.c` (`Tokens`, `History`), and what follows from it.

* `api_call_returns` — in every run in which at most one `api_udp_recv` is outstanding on a
  socket, a call returns once, with the one result that was written for its message; a
  semaphore is given only while its thread waits for that result; and nothing refers to the
  message of a call that has returned. No call is stuck: while one has not returned, a thread,
  the network thread or one of the events it waits for can go on, and a run consists of calls,
  frames and a bounded number of such steps.
-/

namespace Laureline

namespace Api

/-! ### Tokens -/

/-- A semaphore is given for a call that has its result. -/
structure Tokens {T : Type} (s : State T) : Prop where
  token : ∀ sem, s.token sem = true ↔ ∃ m, s.stage m = some .given ∧ s.sem m = some sem

section Tokens

variable {T : Type} {s s' : State T} {m : Msg}

theorem Tokens.congr (h : Tokens s)
    (h_stage : ∀ d, s'.stage d = some .given ↔ s.stage d = some .given)
    (h_sem : ∀ d, s.stage d = some .given → s'.sem d = s.sem d) (h_token : s'.token = s.token) :
    Tokens s' := by
  refine ⟨fun sem => ?_⟩
  rw [h_token, h.token]
  constructor
  · rintro ⟨d, hd, h_eq⟩
    exact ⟨d, (h_stage d).mpr hd, (h_sem d hd).trans h_eq⟩
  · rintro ⟨d, hd, h_eq⟩
    have hd' := (h_stage d).mp hd
    exact ⟨d, hd', (h_sem d hd').symm.trans h_eq⟩

/-- A stage other than the last is not the last one after a change to another such stage. -/
theorem given_update {g g' : Option Stage} (hg : s.stage m = g) (h_ne : g ≠ some .given)
    (h_ne' : g' ≠ some .given) (d : Msg) :
    Function.update s.stage m g' d = some .given ↔ s.stage d = some .given := by
  by_cases h_eq : d = m
  · rw [h_eq, Function.update_self, hg]
    exact ⟨fun h => absurd h h_ne', fun h => absurd h h_ne⟩
  · rw [Function.update_of_ne h_eq]

/-- The calls with another semaphore are not changed. -/
theorem given_update_of_ne {sem k : Sem} (h_sem : s.sem m = some sem) (h_ne : k ≠ sem)
    (g : Option Stage) :
    (∃ d, Function.update s.stage m g d = some .given ∧ s.sem d = some k) ↔
      ∃ d, s.stage d = some .given ∧ s.sem d = some k := by
  have h_other {d : Msg} (hd : s.sem d = some k) : d ≠ m := by
    rintro rfl
    exact h_ne (Option.some.inj (hd.symm.trans h_sem))
  constructor
  · rintro ⟨d, hd, hd_sem⟩
    rw [Function.update_of_ne (h_other hd_sem)] at hd
    exact ⟨d, hd, hd_sem⟩
  · rintro ⟨d, hd, hd_sem⟩
    exact ⟨d, by rwa [Function.update_of_ne (h_other hd_sem)], hd_sem⟩

/-- One call has a semaphore given for it at a time. -/
theorem given_unique (hT : Threads s) (hS : Sems s) {m' : Msg} {sem : Sem}
    (hm : s.stage m = some .given) (h_sem : s.sem m = some sem)
    (hm' : s.stage m' = some .given) (h_sem' : s.sem m' = some sem) : m = m' := by
  obtain ⟨t, ht⟩ := hT.waits hm (by decide)
  obtain ⟨t', ht'⟩ := hT.waits hm' (by decide)
  obtain ⟨k, hk, h_mem⟩ := hS.of_wait ht
  obtain ⟨k', hk', h_mem'⟩ := hS.of_wait ht'
  obtain rfl := Option.some.inj (h_sem.symm.trans hk)
  obtain rfl := Option.some.inj (h_sem'.symm.trans hk')
  have h_pc : (Pc.wait m : Pc T) = .wait m' := by
    rw [← ht, hS.unique t t' sem h_mem h_mem', ht']
  exact Pc.wait.inj h_pc

/-- A thread that waits with its semaphore given has its result. -/
theorem Tokens.given_of_wait (h : Tokens s) (hT : Threads s) (hS : Sems s) {t : T} {sem : Sem}
    (ht : s.thread t = .wait m) (h_sem : (t, sem) ∈ s.semlist) (h_token : s.token sem = true) :
    s.stage m = some .given := by
  obtain ⟨d, hd, hd_sem⟩ := (h.token sem).mp h_token
  obtain ⟨u, hu⟩ := hT.waits hd (by decide)
  obtain ⟨k, hk, h_mem⟩ := hS.of_wait hu
  obtain rfl := Option.some.inj (hd_sem.symm.trans hk)
  have h_pc : (Pc.wait m : Pc T) = .wait d := by
    rw [← ht, hS.unique t u sem h_sem h_mem, hu]
  rwa [Pc.wait.inj h_pc]

theorem Tokens.give (h : Tokens s) {sem : Sem} (h_sem : s.sem m = some sem) :
    Tokens { s.advance m (some .given) with
      tcpip := .loop, token := Function.update s.token sem true } := by
  refine ⟨fun k => ?_⟩
  show Function.update s.token sem true k = true ↔
    ∃ d, Function.update s.stage m (some .given) d = some .given ∧ s.sem d = some k
  by_cases h_eq : k = sem
  · rw [h_eq, Function.update_self]
    exact ⟨fun _ => ⟨m, Function.update_self _ _ _, h_sem⟩, fun _ => rfl⟩
  · rw [Function.update_of_ne h_eq, h.token]
    exact (given_update_of_ne h_sem h_eq _).symm

variable [DecidableEq T]

theorem Tokens.wake (h : Tokens s) (hT : Threads s) (hS : Sems s) {t : T} {sem : Sem}
    {returned : List (Msg × Option Answer)} (h_stage : s.stage m = some .given)
    (h_sem : s.sem m = some sem) :
    Tokens { (s.goto t .out).advance m none with
      token := Function.update s.token sem false, returned } := by
  refine ⟨fun k => ?_⟩
  show Function.update s.token sem false k = true ↔
    ∃ d, Function.update s.stage m none d = some .given ∧ s.sem d = some k
  -- the semaphore of the call that wakes up, or another one
  by_cases h_eq : k = sem
  · rw [h_eq, Function.update_self]
    refine ⟨fun h_false => absurd h_false (by decide), ?_⟩
    rintro ⟨d, hd, hd_sem⟩
    by_cases h_self : d = m
    · rw [h_self, Function.update_self] at hd
      exact absurd hd (by simp)
    · rw [Function.update_of_ne h_self] at hd
      -- no other call has been given the same semaphore
      exact absurd (given_unique hT hS hd hd_sem h_stage h_sem) h_self
  · rw [Function.update_of_ne h_eq, h.token]
    exact (given_update_of_ne h_sem h_eq _).symm

end Tokens

/-! ### Results -/

/-- The result of the call is written. -/
def answeredStage : Option Stage → Bool
  | none | some .give | some .given => true
  | _ => false

/-- Results are written once and returned once. -/
structure History {T : Type} (s : State T) : Prop where
  answered : ∀ m, (s.answered.map Prod.fst).count m =
    if m < s.calls ∧ answeredStage (s.stage m) = true then 1 else 0
  returned : ∀ m, (s.returned.map Prod.fst).count m =
    if m < s.calls ∧ s.stage m = none then 1 else 0
  result : ∀ m, s.stage m = some .give ∨ s.stage m = some .given →
    ∃ r, s.answer m = some r ∧ (m, r) ∈ s.answered
  own : ∀ m a, (m, a) ∈ s.returned → ∃ r, a = some r ∧ (m, r) ∈ s.answered

section History

variable {T : Type} {s s' : State T} {m : Msg}

theorem History.of_result (h : History s) (hm : answeredStage (s.stage m) = true)
    (h_none : s.stage m ≠ none) : ∃ r, s.answer m = some r ∧ (m, r) ∈ s.answered := by
  refine h.result m ?_
  cases hg : s.stage m with
  | none => exact absurd hg h_none
  | some g => cases g <;> simp [hg, answeredStage] at hm ⊢

theorem answeredStage_of_result (hm : s.stage m = some .give ∨ s.stage m = some .given) :
    answeredStage (s.stage m) = true ∧ s.stage m ≠ none := by
  rcases hm with hm | hm <;> rw [hm] <;> exact ⟨rfl, by simp⟩

/-- The calls before a new one. -/
theorem lt_calls {d c : ℕ} (h : d ≠ c) : d < c ↔ d < c + 1 := by omega

/-- No result is written, and none is returned. -/
theorem History.congr (h : History s)
    (h_stage : ∀ d, answeredStage (s'.stage d) = answeredStage (s.stage d))
    (h_none : ∀ d, s'.stage d = none ↔ s.stage d = none)
    (h_answer : ∀ d, s.stage d ≠ none → answeredStage (s'.stage d) = true →
      s'.answer d = s.answer d)
    (h_calls : ∀ d, d < s'.calls ∧ answeredStage (s.stage d) = true ↔
      d < s.calls ∧ answeredStage (s.stage d) = true)
    (h_answered : s'.answered = s.answered) (h_returned : s'.returned = s.returned) :
    History s' := by
  refine ⟨fun d => ?_, fun d => ?_, fun d hd => ?_, ?_⟩
  · rw [h_answered, h_stage, h.answered d]
    simp only [h_calls]
  · rw [h_returned, h.returned d]
    refine if_congr ?_ rfl rfl
    -- a message that has returned counts as answered too
    have h_of {c : ℕ} : (d < c ∧ s.stage d = none) ↔
        (d < c ∧ answeredStage (s.stage d) = true) ∧ s.stage d = none := by
      constructor
      · rintro ⟨h_lt, hd⟩
        exact ⟨⟨h_lt, by rw [hd]; rfl⟩, hd⟩
      · rintro ⟨⟨h_lt, -⟩, hd⟩
        exact ⟨h_lt, hd⟩
    rw [h_none, h_of, h_of, h_calls]
  · obtain ⟨hd_answered, hd_none⟩ := answeredStage_of_result hd
    have hd_none' : s.stage d ≠ none := fun h_eq => hd_none ((h_none d).mpr h_eq)
    rw [h_answered, h_answer d hd_none' hd_answered]
    exact h.of_result (h_stage d ▸ hd_answered) hd_none'
  · rw [h_returned, h_answered]
    exact h.own

/-- Nothing that has to do with results changes. -/
theorem History.frame (h : History s) (h_stage : s'.stage = s.stage)
    (h_answer : s'.answer = s.answer) (h_calls : s'.calls = s.calls)
    (h_answered : s'.answered = s.answered) (h_returned : s'.returned = s.returned) :
    History s' :=
  h.congr (fun _ => by rw [h_stage]) (fun _ => by rw [h_stage]) (fun _ _ _ => by rw [h_answer])
    (fun _ => by rw [h_calls]) h_answered h_returned

theorem answeredStage_update {g g' : Stage} (hg : s.stage m = some g)
    (h_same : answeredStage (some g') = answeredStage (some g)) (d : Msg) :
    answeredStage (Function.update s.stage m (some g') d) = answeredStage (s.stage d) := by
  by_cases h_eq : d = m
  · rw [h_eq, Function.update_self, hg, h_same]
  · rw [Function.update_of_ne h_eq]

theorem none_update {g g' : Stage} (hg : s.stage m = some g) (d : Msg) :
    Function.update s.stage m (some g') d = none ↔ s.stage d = none := by
  by_cases h_eq : d = m
  · rw [h_eq, Function.update_self, hg]
    simp
  · rw [Function.update_of_ne h_eq]

/-- A call is under way from one stage to the next. -/
theorem History.advance (h : History s) {g g' : Stage} (hg : s.stage m = some g)
    (h_same : answeredStage (some g') = answeredStage (some g))
    (h_stage : s'.stage = Function.update s.stage m (some g'))
    (h_answer : ∀ d, answeredStage (s'.stage d) = true → s'.answer d = s.answer d)
    (h_calls : s'.calls = s.calls) (h_answered : s'.answered = s.answered)
    (h_returned : s'.returned = s.returned) : History s' :=
  h.congr (fun d => by rw [h_stage]; exact answeredStage_update hg h_same d)
    (fun d => by rw [h_stage]; exact none_update hg d) (fun d _ hd => h_answer d hd)
    (fun d => by rw [h_calls]) h_answered h_returned

/-- An answer that is not the result. -/
theorem History.inProgress (h : History s) {g g' : Stage} (hg : s.stage m = some g)
    (h_no : answeredStage (some g) = false) (h_no' : answeredStage (some g') = false) :
    History (s.inProgress m g') := by
  refine h.advance hg (h_no'.trans h_no.symm) rfl (fun d hd => ?_) rfl rfl rfl
  refine Function.update_of_ne ?_ _ _
  rintro rfl
  rw [show (s.inProgress d g').stage d = some g' from Function.update_self _ _ _, h_no'] at hd
  exact absurd hd (by decide)

/-- A result is written. -/
theorem History.finish (h : History s) (hT : Threads s) {g : Stage} (r : Answer)
    (hg : s.stage m = some g) (h_no : answeredStage (some g) = false) :
    History (s.finish m r) := by
  -- a message of a call that has begun
  have h_lt : m < s.calls := by
    by_contra h_le
    rw [hT.fresh m (Nat.le_of_not_lt h_le)] at hg
    exact absurd hg (by simp)
  refine ⟨fun d => ?_, fun d => ?_, fun d hd => ?_, fun d a hd => ?_⟩
  -- the result is the first one of its message
  · show ((s.answered ++ [(m, r)]).map Prod.fst).count d =
      if d < s.calls ∧ answeredStage (Function.update s.stage m (some .give) d) = true then 1 else 0
    rw [List.map_append, List.count_append, h.answered d]
    by_cases h_eq : d = m
    · subst h_eq
      rw [Function.update_self, hg, h_no]
      simp [h_lt, answeredStage]
    · rw [Function.update_of_ne h_eq]
      simp [Ne.symm h_eq]
  -- nothing returns yet
  · show _ = if d < s.calls ∧ Function.update s.stage m (some .give) d = none then 1 else 0
    simp only [none_update hg]
    exact h.returned d
  -- the message keeps what was written
  · show ∃ r', Function.update s.answer m (some r) d = some r' ∧ (d, r') ∈ s.answered ++ [(m, r)]
    by_cases h_eq : d = m
    · subst h_eq
      exact ⟨r, Function.update_self _ _ _, by simp⟩
    · change Function.update s.stage m (some .give) d = _ ∨
        Function.update s.stage m (some .give) d = _ at hd
      rw [Function.update_of_ne h_eq] at hd
      obtain ⟨r', h_answer, h_mem⟩ := h.result d hd
      exact ⟨r', by rwa [Function.update_of_ne h_eq], List.mem_append_left _ h_mem⟩
  · obtain ⟨r', h_eq, h_mem⟩ := h.own d a hd
    exact ⟨r', h_eq, List.mem_append_left _ h_mem⟩

theorem History.inline (h : History s) (hT : Threads s) (f : Func) (r : Answer) :
    History (s.inline f r) := by
  have h_fresh : s.stage s.calls = none := hT.fresh _ le_rfl
  refine ⟨fun d => ?_, fun d => ?_, fun d hd => ?_, fun d a hd => ?_⟩
  -- one result and one return more, both for the new message
  · show ((s.answered ++ [(s.calls, r)]).map Prod.fst).count d =
      if d < s.calls + 1 ∧ answeredStage (s.stage d) = true then 1 else 0
    rw [List.map_append, List.count_append, h.answered d]
    by_cases h_eq : d = s.calls
    · subst h_eq
      simp [h_fresh, answeredStage]
    · simp only [List.map_cons, List.map_nil, List.count_singleton, beq_iff_eq, Ne.symm h_eq,
        if_false, add_zero]
      exact if_congr (and_congr_left' (lt_calls h_eq)) rfl rfl
  · show ((s.returned ++ [(s.calls, some r)]).map Prod.fst).count d =
      if d < s.calls + 1 ∧ s.stage d = none then 1 else 0
    rw [List.map_append, List.count_append, h.returned d]
    by_cases h_eq : d = s.calls
    · subst h_eq
      simp [h_fresh]
    · simp only [List.map_cons, List.map_nil, List.count_singleton, beq_iff_eq, Ne.symm h_eq,
        if_false, add_zero]
      exact if_congr (and_congr_left' (lt_calls h_eq)) rfl rfl
  · obtain ⟨r', h_answer, h_mem⟩ := h.result d hd
    exact ⟨r', h_answer, List.mem_append_left _ h_mem⟩
  · rcases List.mem_append.mp hd with hd | hd
    · obtain ⟨r', h_eq, h_mem⟩ := h.own d a hd
      exact ⟨r', h_eq, List.mem_append_left _ h_mem⟩
    · obtain ⟨rfl, rfl⟩ := Prod.mk.inj (List.mem_singleton.mp hd)
      exact ⟨r, rfl, List.mem_append_right _ (List.mem_singleton_self _)⟩

variable [DecidableEq T]

theorem History.call (h : History s) (hT : Threads s) (t : T) (f : Func) :
    History (s.call t f) := by
  have h_fresh : s.stage s.calls = none := hT.fresh _ le_rfl
  refine ⟨fun d => ?_, fun d => ?_, fun d hd => ?_, h.own⟩
  · show (s.answered.map Prod.fst).count d =
      if d < s.calls + 1 ∧ answeredStage (Function.update s.stage s.calls (some .new) d) = true
      then 1 else 0
    rw [h.answered d]
    -- the new call is neither answered nor returned
    by_cases h_eq : d = s.calls
    · subst h_eq
      simp [answeredStage]
    · rw [Function.update_of_ne h_eq]
      exact if_congr (and_congr_left' (lt_calls h_eq)) rfl rfl
  · show (s.returned.map Prod.fst).count d =
      if d < s.calls + 1 ∧ Function.update s.stage s.calls (some .new) d = none then 1 else 0
    rw [h.returned d]
    by_cases h_eq : d = s.calls
    · subst h_eq
      simp
    · rw [Function.update_of_ne h_eq]
      exact if_congr (and_congr_left' (lt_calls h_eq)) rfl rfl
  · change Function.update s.stage s.calls (some .new) d = _ ∨
      Function.update s.stage s.calls (some .new) d = _ at hd
    by_cases h_eq : d = s.calls
    · rw [h_eq, Function.update_self] at hd
      exact absurd hd (by simp)
    · rw [Function.update_of_ne h_eq] at hd
      exact h.result d hd

/-- A waiting thread returns the result of its message. -/
theorem History.wake (h : History s) (hT : Threads s) {t : T} {token : Sem → Bool}
    (hg : s.stage m = some .given) :
    History { (s.goto t .out).advance m none with
      token, returned := s.returned ++ [(m, s.answer m)] } := by
  have h_lt : m < s.calls := by
    by_contra h_le
    rw [hT.fresh m (Nat.le_of_not_lt h_le)] at hg
    exact absurd hg (by simp)
  refine ⟨fun d => ?_, fun d => ?_, fun d hd => ?_, fun d a hd => ?_⟩
  · show _ = if d < s.calls ∧ answeredStage (Function.update s.stage m none d) = true then 1 else 0
    -- the message was answered and stays so
    have h_same : answeredStage (Function.update s.stage m none d) = answeredStage (s.stage d) := by
      by_cases h_eq : d = m
      · rw [h_eq, Function.update_self, hg]
        rfl
      · rw [Function.update_of_ne h_eq]
    rw [h_same]
    exact h.answered d
  · show ((s.returned ++ [(m, s.answer m)]).map Prod.fst).count d =
      if d < s.calls ∧ Function.update s.stage m none d = none then 1 else 0
    rw [List.map_append, List.count_append, h.returned d]
    by_cases h_eq : d = m
    · -- it had not returned
      subst h_eq
      simp [h_lt, hg]
    · rw [Function.update_of_ne h_eq]
      simp [Ne.symm h_eq]
  · change Function.update s.stage m none d = _ ∨ Function.update s.stage m none d = _ at hd
    by_cases h_eq : d = m
    · rw [h_eq, Function.update_self] at hd
      exact absurd hd (by simp)
    · rw [Function.update_of_ne h_eq] at hd
      exact h.result d hd
  · rcases List.mem_append.mp hd with hd | hd
    · exact h.own d a hd
    · obtain ⟨rfl, rfl⟩ := Prod.mk.inj (List.mem_singleton.mp hd)
      exact h.result d (.inr hg)

end History

/-! ### The invariant -/

/-- What holds in every reachable state. -/
structure Inv {T : Type} (s : State T) : Prop where
  threads : Threads s
  sems : Sems s
  referenced : Referenced s
  tokens : Tokens s
  history : History s

theorem inv_start (T : Type) : Inv (start T) where
  threads := ⟨fun _ _ h => absurd h (by simp [start, Pc.msg]), fun _ h => absurd rfl h,
    fun _ _ => rfl⟩
  sems := ⟨fun _ => by simp [start, Pc.locked], fun _ _ _ _ h => absurd h (by simp [start]),
    fun _ _ h => absurd h (by simp [start, Pc.msg]), fun _ h => absurd h List.not_mem_nil,
    fun _ _ _ h => absurd h List.not_mem_nil⟩
  referenced := ⟨fun _ => by simp [State.refs, start, Refs.of, Refs.none],
    fun _ _ _ h => absurd rfl h, fun _ h => absurd h (by simp [start])⟩
  tokens := ⟨fun _ => by simp [start]⟩
  history := ⟨fun _ => by simp [start], fun _ => by simp [start],
    fun _ h => absurd h (by simp [start]), fun _ _ h => absurd h List.not_mem_nil⟩

section Inv

variable {T : Type} {s s' : State T} {m : Msg}

/-- A step of the network thread that writes a result. -/
theorem Inv.finish (h : Inv s) {s₁ : State T} {g : Stage} (r : Answer)
    (hg : s.stage m = some g) (h_new : g ≠ .new) (h_no : answeredStage (some g) = false)
    (h_thread : s₁.thread = s.thread) (h_calls : s₁.calls = s.calls) (h_owner : s₁.owner = s.owner)
    (h_stage : s₁.stage = s.stage) (h_sems : Sems s₁) (h_sem : s₁.sem = s.sem)
    (h_token : s₁.token = s.token) (h_history : History s₁)
    (h_referenced : Referenced (s₁.finish m r)) : Inv (s₁.finish m r) where
  threads := h.threads.advance hg h_new (by decide : Stage.give ≠ .new) h_thread h_calls h_owner
    (by rw [← h_stage]; rfl)
  sems := h_sems.congr rfl rfl rfl rfl rfl
  referenced := h_referenced
  tokens := by
    refine h.tokens.congr (fun d => ?_) (fun d _ => by rw [← h_sem]; rfl) h_token
    show Function.update s₁.stage m (some .give) d = _ ↔ _
    rw [h_stage]
    -- the token is given by `sys_sem_signal` only
    refine given_update hg (fun h_eq => ?_) (by simp) d
    rw [h_eq] at h_no
    exact absurd h_no (by decide)
  history := h_history.finish (h.threads.congr h_thread h_calls.ge h_owner h_stage) r
    (by rw [h_stage]; exact hg) h_no

/-! #### The steps of the network thread -/

/-- The message waits at its connection for a datagram or the timeout. -/
theorem Inv.receive (h : Inv s) {q : List (Option Msg)} {pcb : Pcb} {len timeout : ℕ}
    (h_loop : s.tcpip = .loop) (h_queue : s.queue = some m :: q)
    (hf : s.func m = .udpRecv pcb len timeout) :
    Inv (({ s with queue := q }.doUdpRecv m pcb timeout).inProgress m .udp) := by
  have h_stage : s.stage m = some .queued := h.referenced.of_queue (by simp [h_queue])
  refine ⟨h.threads.advance h_stage (by decide) (by decide : Stage.udp ≠ .new) rfl rfl rfl rfl,
    h.sems.congr rfl rfl rfl rfl rfl, h.referenced.receive h_loop h_queue hf,
    h.tokens.congr (given_update h_stage (by simp) (by simp)) (fun _ _ => rfl) rfl, ?_⟩
  have h_history : History ({ s with queue := q }.doUdpRecv m pcb timeout) :=
    h.history.frame rfl rfl rfl rfl rfl
  exact h_history.inProgress h_stage rfl rfl

/-- The message waits for the resolver. -/
theorem Inv.resolve (h : Inv s) {q : List (Option Msg)} (h_loop : s.tcpip = .loop)
    (h_queue : s.queue = some m :: q) :
    Inv ({ s with queue := q, dns := s.dns ++ [m] }.inProgress m .dns) := by
  have h_stage : s.stage m = some .queued := h.referenced.of_queue (by simp [h_queue])
  refine ⟨h.threads.advance h_stage (by decide) (by decide : Stage.dns ≠ .new) rfl rfl rfl rfl,
    h.sems.congr rfl rfl rfl rfl rfl, h.referenced.resolve h_loop h_queue,
    h.tokens.congr (given_update h_stage (by simp) (by simp)) (fun _ _ => rfl) rfl, ?_⟩
  have h_history : History { s with queue := q, dns := s.dns ++ [m] } :=
    h.history.frame rfl rfl rfl rfl rfl
  exact h_history.inProgress h_stage rfl rfl

/-- The connection forgets the message, so no datagram answers it again. -/
theorem Inv.timeout (h : Inv s) (h_loop : s.tcpip = .loop) (h_mem : m ∈ s.timeouts) :
    Inv (s.gotUdpTimedout m) := by
  have h_stage := h.referenced.of_timeouts h_mem
  obtain ⟨pcb, h_pcb⟩ := Option.ne_none_iff_exists'.mp (h.referenced.receives m h_stage)
  have h_referenced := h.referenced.finishUdp { ret := errTimeout } h_stage h_pcb h_loop
  rw [State.gotUdpTimedout, h_pcb]
  exact h.finish _ h_stage (by decide) rfl rfl rfl rfl rfl (h.sems.congr rfl rfl rfl rfl rfl)
    rfl rfl (h.history.frame rfl rfl rfl rfl rfl) h_referenced

/-- The token and the stage `given` come together. -/
theorem Inv.give (h : Inv s) {sem : Sem} (h_give : s.tcpip = .give m)
    (h_sem : s.sem m = some sem) :
    Inv { s.advance m (some .given) with
      tcpip := .loop, token := Function.update s.token sem true } := by
  have h_stage := h.referenced.of_give h_give
  exact ⟨h.threads.advance h_stage (by decide) (by decide : Stage.given ≠ .new) rfl rfl rfl rfl,
    h.sems.congr rfl rfl rfl rfl rfl, h.referenced.give h_give, h.tokens.give h_sem,
    h.history.advance h_stage (rfl : answeredStage (some .given) = true) rfl (fun _ _ => rfl)
      rfl rfl rfl⟩

/-- A call from the network thread itself is answered at once. -/
theorem Inv.inline (h : Inv s) (f : Func) (r : Answer) : Inv (s.inline f r) := by
  refine ⟨h.threads.congr rfl (Nat.le_succ _) rfl rfl, h.sems.congr rfl rfl rfl rfl rfl,
    h.referenced.congr (fun d hd => ?_) rfl (fun _ => rfl),
    h.tokens.congr (fun _ => Iff.rfl) (fun _ _ => rfl) rfl, h.history.inline h.threads f r⟩
  refine Function.update_of_ne ?_ _ _
  rintro rfl
  exact hd (h.threads.fresh _ le_rfl)

/-- Frames of the driver have no message. -/
theorem Inv.queue (h : Inv s) {q : List (Option Msg)}
    (h_count : ∀ d, q.count (some d) = s.queue.count (some d)) : Inv { s with queue := q } := by
  refine ⟨h.threads.congr rfl le_rfl rfl rfl, h.sems.congr rfl rfl rfl rfl rfl,
    h.referenced.congr (fun _ _ => rfl) rfl (fun d => ?_),
    h.tokens.congr (fun _ => Iff.rfl) (fun _ _ => rfl) rfl, h.history.frame rfl rfl rfl rfl rfl⟩
  simp [State.refs, h_count d]

/-! #### The steps of a thread -/

variable [DecidableEq T] {a : Action T}

/-- A step of a thread within its call, which changes no stage. -/
theorem Inv.local (h : Inv s) {t : T} {pc : Pc T} (ht : (s.thread t).msg = some m)
    (h_wait : s.thread t ≠ .wait m) (hpc : pc.msg = some m) (h_wait' : pc ≠ .wait m)
    (h_sems : Sems s') (h_thread : s'.thread = Function.update s.thread t pc)
    (h_sem : ∀ d, d ≠ m → s'.sem d = s.sem d) (h_calls : s'.calls = s.calls)
    (h_owner : s'.owner = s.owner) (h_stage : s'.stage = s.stage) (h_func : s'.func = s.func)
    (h_refs : ∀ d, s'.refs d = s.refs d) (h_token : s'.token = s.token)
    (h_answer : s'.answer = s.answer) (h_answered : s'.answered = s.answered)
    (h_returned : s'.returned = s.returned) : Inv s' where
  threads := h.threads.goto ht h_wait hpc h_wait' h_thread h_calls h_owner h_stage
  sems := h_sems
  referenced := h.referenced.congr (fun _ _ => by rw [h_func]) h_stage h_refs
  tokens := h.tokens.congr (fun _ => by rw [h_stage]) (fun d hd => h_sem d fun h_eq => by
    rw [h_eq, h.threads.stage_new ht h_wait] at hd
    exact absurd hd (by simp)) h_token
  history := h.history.frame h_stage h_answer h_calls h_answered h_returned

/-- A call begins with a fresh message, which no other part of the state knows. -/
theorem Inv.call (h : Inv s) {t : T} {f : Func} (hG : OneReceiver s (.call t f))
    (ht : s.thread t = .out) : Inv (s.call t f) := by
  refine ⟨h.threads.call f ht, h.sems.call h.threads f ht, h.referenced.call h.threads hG, ?_,
    h.history.call h.threads t f⟩
  have h_fresh : s.stage s.calls = none := h.threads.fresh _ le_rfl
  refine h.tokens.congr (given_update h_fresh (by simp) (by simp)) (fun d hd => ?_) rfl
  refine Function.update_of_ne ?_ _ _
  rintro rfl
  exact absurd (h_fresh.symm.trans hd) (by simp)

/-- The semaphore is in the list, and the lock keeps it the thread's own. -/
theorem Inv.found (h : Inv s) {t : T} {sem : Sem} (ht : s.thread t = .find m)
    (h_mem : (t, sem) ∈ s.semlist) :
    Inv { s.goto t (.release m) with sem := Function.update s.sem m (some sem) } := by
  have h_msg : (s.thread t).msg = some m := by rw [ht]; rfl
  have h_sems : Sems { s.goto t (.release m) with
      sem := Function.update s.sem m (some sem) } := by
    refine h.sems.goto t (.release m) rfl rfl rfl (h.threads.sem_of_ne h_msg _)
      (h.sems.locked_goto (by rw [ht]; rfl)) (fun _ _ _ => by simp) fun d hd _ => ?_
    obtain rfl := Option.some.inj hd
    exact ⟨sem, Function.update_self _ _ _, h_mem⟩
  exact h.local h_msg (by simp [ht]) rfl (by simp) h_sems rfl
    (fun _ h_ne => Function.update_of_ne h_ne _ _) rfl rfl rfl rfl (fun _ => rfl) rfl rfl rfl rfl

/-- It is not in the list. -/
theorem Inv.missing (h : Inv s) {t : T} (ht : s.thread t = .find m) :
    Inv (s.goto t (.create m)) := by
  have h_sems : Sems (s.goto t (.create m)) :=
    h.sems.goto t (.create m) rfl rfl rfl (fun _ _ _ _ => rfl)
      (h.sems.locked_goto (by rw [ht]; rfl)) (fun _ _ _ => by simp)
      fun _ _ hl => absurd hl Bool.false_ne_true
  exact h.local (m := m) (by rw [ht]; rfl) (by simp [ht]) rfl (by simp) h_sems rfl
    (fun _ _ => rfl) rfl rfl rfl rfl (fun _ => rfl) rfl rfl rfl rfl

/-- From here on the message is in the queue. -/
theorem Inv.send (h : Inv s) {t : T} (ht : s.thread t = .send m) :
    Inv { (s.goto t (.wait m)).advance m (some .queued) with
      queue := s.queue ++ [some m] } := by
  have h_msg : (s.thread t).msg = some m := by rw [ht]; rfl
  have h_new : s.stage m = some .new := h.threads.stage_new h_msg (by simp [ht])
  refine ⟨h.threads.send ht rfl rfl rfl rfl, ?_, h.referenced.send h_new, ?_, ?_⟩
  · refine h.sems.goto t (.wait m) rfl rfl rfl (fun _ _ _ _ => rfl)
      (h.sems.locked_goto (by rw [ht]; rfl)) (fun _ _ _ => by simp) fun d hd _ => ?_
    obtain rfl := Option.some.inj hd
    exact h.sems.sem t m h_msg (by rw [ht]; rfl)
  · exact h.tokens.congr (given_update h_new (by simp) (by simp)) (fun _ _ => rfl) rfl
  · exact h.history.advance h_new (rfl : answeredStage (some .queued) = false) rfl
      (fun _ _ => rfl) rfl rfl rfl

/-- A token of the semaphore is for the message that was given back with it. -/
theorem Inv.wake (h : Inv s) {t : T} {sem : Sem} (ht : s.thread t = .wait m)
    (h_sem : s.sem m = some sem) (h_token : s.token sem = true) :
    Inv { (s.goto t .out).advance m none with
      token := Function.update s.token sem false
      returned := s.returned ++ [(m, s.answer m)] } := by
  obtain ⟨k, hk, h_mem⟩ := h.sems.of_wait ht
  obtain rfl := Option.some.inj (h_sem.symm.trans hk)
  have h_given : s.stage m = some .given :=
    h.tokens.given_of_wait h.threads h.sems ht h_mem h_token
  refine ⟨h.threads.wake ht rfl rfl rfl rfl, ?_, h.referenced.wake h_given,
    h.tokens.wake h.threads h.sems h_given h_sem, h.history.wake h.threads h_given⟩
  exact h.sems.goto t .out rfl rfl rfl (fun _ _ _ _ => rfl)
    (h.sems.locked_goto (by rw [ht]; rfl)) (fun _ _ _ => by simp)
    fun _ hd => absurd hd (by simp [Pc.msg])

theorem Inv.step (h : Inv s) (hG : OneReceiver s a) (hs : Step s a s') : Inv s' := by
  cases hs with
  | call t f ht => exact h.call hG ht
  -- up to `send` a thread moves within its call
  | take t m ht h_free =>
    exact h.local (m := m) (by rw [ht]; rfl) (by simp [ht]) rfl (by simp) (h.sems.take h_free) rfl
      (fun _ _ => rfl) rfl rfl rfl rfl (fun _ => rfl) rfl rfl rfl rfl
  | found t m sem ht h_mem => exact h.found ht h_mem
  | missing t m ht => exact h.missing ht
  | create t m ht =>
    exact h.local (m := m) (by rw [ht]; rfl) (by simp [ht]) rfl (by simp)
      (h.sems.create h.threads ht) rfl (fun _ h_ne => Function.update_of_ne h_ne _ _) rfl rfl rfl
      rfl (fun _ => rfl) rfl rfl rfl rfl
  | link t m sem next ht =>
    exact h.local (m := m) (by rw [ht]; rfl) (by simp [ht]) rfl (by simp) (h.sems.insert ht) rfl
      (fun _ _ => rfl) rfl rfl rfl rfl (fun _ => rfl) rfl rfl rfl rfl
  | release t m ht =>
    exact h.local (m := m) (by rw [ht]; rfl) (by simp [ht]) rfl (by simp) (h.sems.release ht) rfl
      (fun _ _ => rfl) rfl rfl rfl rfl (fun _ => rfl) rfl rfl rfl rfl
  | send t m ht h_room => exact h.send ht
  | wake t m sem ht h_sem h_token => exact h.wake ht h_sem h_token
  -- the network thread takes a message from the queue
  | null r q h_loop h_queue => exact h.queue fun d => by simp [h_queue]
  | answer r m q h_loop h_queue =>
    have h_stage : s.stage m = some .queued := h.referenced.of_queue (by simp [h_queue])
    exact h.finish r h_stage (by decide) rfl rfl rfl rfl rfl (h.sems.congr rfl rfl rfl rfl rfl)
      rfl rfl (h.history.frame rfl rfl rfl rfl rfl) (h.referenced.answer r h_loop h_queue)
  | receive r m q pcb len timeout h_loop h_queue hf => exact h.receive h_loop h_queue hf
  | resolve r m q h_loop h_queue => exact h.resolve h_loop h_queue
  -- a message that waits gets its result
  | datagram m pcb bytes h_loop h_udp =>
    obtain ⟨h_stage, h_pcb⟩ := h.referenced.of_udp h_udp
    exact h.finish _ h_stage (by decide) rfl rfl rfl rfl rfl (h.sems.congr rfl rfl rfl rfl rfl)
      rfl rfl (h.history.frame rfl rfl rfl rfl rfl)
      (h.referenced.finishUdp _ h_stage h_pcb h_loop)
  | timeout m h_loop h_mem => exact h.timeout h_loop h_mem
  | dnsAnswer m addr h_loop h_mem =>
    exact h.finish _ (h.referenced.of_dns h_mem) (by decide) rfl rfl rfl rfl rfl
      (h.sems.congr rfl rfl rfl rfl rfl) rfl rfl (h.history.frame rfl rfl rfl rfl rfl)
      (h.referenced.dnsAnswer _ h_loop h_mem)
  | give m sem h_give h_sem => exact h.give h_give h_sem
  | inline f r h_loop => exact h.inline f r
  | frame => exact h.queue fun d => by simp [List.count_append]
  | lost => exact h

theorem Inv.reach (h : (machine T).Reach OneReceiver s) : Inv s :=
  h.invariant (inv_start T) fun _ _ _ hI hG hn => hI.step hG (step_of_next hn)

end Inv

/-! ### What is left to do -/

/-- The steps of a thread before it waits. -/
def Pc.work {T : Type} : Pc T → ℕ
  | .take _ => 11
  | .find _ => 10
  | .create _ => 9
  | .link _ _ _ => 8
  | .release _ => 7
  | .send _ => 6
  | _ => 0

/-- The steps of a call after its message is posted. -/
def Stage.work : Stage → ℕ
  | .new => 0
  | .queued => 4
  | .udp | .dns => 3
  | .give => 2
  | .given => 1

/-- The steps that a call can still take. -/
def State.callWork {T : Type} (s : State T) (m : Msg) : ℕ :=
  match s.stage m with
  | none => 0
  | some .new => (s.owner m).elim 0 fun t => (s.thread t).work
  | some g => g.work

/-- The steps that all calls can still take. -/
def State.work {T : Type} (s : State T) : ℕ :=
  ∑ m ∈ Finset.range s.calls, s.callWork m + s.queue.length

/-- A step of a call that is under way, or an event that such a call waits for. -/
def Action.goesOn {T : Type} : Action T → Bool
  | .call _ _ | .inline _ _ | .frame => false
  | _ => true

/-- The steps that an action adds. -/
def Action.cost {T : Type} : Action T → ℕ
  | .call _ _ => 11
  | .frame => 1
  | _ => 0

section Work

variable {T : Type} {s s' : State T} {m : Msg}

/-- One term of a sum changes. -/
theorem sum_move {f f' : ℕ → ℕ} {n k : ℕ} (hk : k < n) (h_others : ∀ d, d ≠ k → f' d = f d) :
    ∑ d ∈ Finset.range n, f' d + f k = ∑ d ∈ Finset.range n, f d + f' k := by
  have h_mem : k ∈ Finset.range n := Finset.mem_range.mpr hk
  have h_rest : ∑ d ∈ (Finset.range n).erase k, f' d = ∑ d ∈ (Finset.range n).erase k, f d :=
    Finset.sum_congr rfl fun d hd => h_others d (Finset.ne_of_mem_erase hd)
  rw [← Finset.add_sum_erase _ f h_mem, ← Finset.add_sum_erase _ f' h_mem, h_rest]
  omega

theorem Threads.lt_calls (h : Threads s) (hm : s.stage m ≠ none) : m < s.calls := by
  by_contra h_le
  exact hm (h.fresh m (Nat.le_of_not_lt h_le))

theorem callWork_of_stage {g : Stage} (hg : s.stage m = some g) (h_ne : g ≠ .new) :
    s.callWork m = g.work := by
  unfold State.callWork
  rw [hg]
  cases g <;> first | exact absurd rfl h_ne | rfl

theorem callWork_of_none (hg : s.stage m = none) : s.callWork m = 0 := by
  unfold State.callWork
  rw [hg]

theorem Threads.callWork_new (h : Threads s) {t : T} (ht : (s.thread t).msg = some m)
    (h_wait : s.thread t ≠ .wait m) : s.callWork m = (s.thread t).work := by
  unfold State.callWork
  rw [h.stage_new ht h_wait, (h.place t m ht).1]
  rfl

/-- A call that the step does not concern. -/
theorem Threads.callWork_eq (h : Threads s) (h_stage : s'.stage m = s.stage m)
    (h_owner : s'.owner m = s.owner m)
    (h_thread : ∀ u, (s.thread u).msg = some m → s'.thread u = s.thread u) :
    s'.callWork m = s.callWork m := by
  unfold State.callWork
  rw [h_stage, h_owner]
  cases hg : s.stage m with
  | none => rfl
  | some g =>
    cases g <;> try rfl
    obtain ⟨u, hu⟩ := h.busy m (by simp [hg])
    rw [(h.place u m hu).1]
    show (s'.thread u).work = (s.thread u).work
    rw [h_thread u hu]

/-- The work changes with that of one call and with the queue. -/
theorem Threads.work_move (h : Threads s) (hm : s.stage m ≠ none) (h_calls : s'.calls = s.calls)
    (h_others : ∀ d, d ≠ m → s'.callWork d = s.callWork d) :
    s'.work + (s.callWork m + s.queue.length) = s.work + (s'.callWork m + s'.queue.length) := by
  have h_sum := sum_move (f := s.callWork) (k := m) (h.lt_calls hm) h_others
  unfold State.work
  rw [h_calls]
  omega

/-- A step of the network thread. -/
theorem Threads.work_advance (h : Threads s) {g g' : Stage} (hg : s.stage m = some g)
    (h_ne : g ≠ .new) (h_ne' : g' ≠ .new) (h_thread : s'.thread = s.thread)
    (h_calls : s'.calls = s.calls) (h_owner : s'.owner = s.owner)
    (h_stage : s'.stage = Function.update s.stage m (some g'))
    (h_lt : g'.work + s'.queue.length < g.work + s.queue.length) : s'.work < s.work := by
  have h_move := h.work_move (m := m) (by simp [hg]) h_calls fun d h_ne =>
    h.callWork_eq (by rw [h_stage, Function.update_of_ne h_ne]) (by rw [h_owner])
      fun _ _ => by rw [h_thread]
  have h_after : s'.stage m = some g' := by rw [h_stage, Function.update_self]
  rw [callWork_of_stage hg h_ne, callWork_of_stage h_after h_ne'] at h_move
  omega

theorem Threads.work_inline (h : Threads s) (f : Func) (r : Answer) :
    (s.inline f r).work = s.work := by
  show ∑ d ∈ Finset.range (s.calls + 1), s.callWork d + s.queue.length = s.work
  rw [Finset.sum_range_succ, callWork_of_none (h.fresh _ le_rfl), State.work, Nat.add_zero]

variable [DecidableEq T]

/-- A step of a thread. -/
theorem Threads.work_thread (h : Threads s) (t : T) (pc : Pc T) (g : Option Stage)
    (ht : (s.thread t).msg = some m) (h_thread : s'.thread = Function.update s.thread t pc)
    (h_calls : s'.calls = s.calls) (h_owner : s'.owner = s.owner)
    (h_stage : s'.stage = Function.update s.stage m g)
    (h_lt : s'.callWork m + s'.queue.length < s.callWork m + s.queue.length) :
    s'.work < s.work := by
  have h_move := h.work_move (h.place t m ht).2.1 h_calls fun d h_ne =>
    h.callWork_eq (by rw [h_stage, Function.update_of_ne h_ne]) (by rw [h_owner]) fun u hu => by
      have h_other : u ≠ t := by
        rintro rfl
        exact h_ne (Option.some.inj (hu.symm.trans ht))
      rw [h_thread, Function.update_of_ne h_other]
  omega

/-- A step of a thread within its call before it waits. -/
theorem Threads.work_goto (h : Threads s) (h' : Threads s') {t : T} {pc : Pc T}
    (ht : (s.thread t).msg = some m) (h_wait : s.thread t ≠ .wait m) (hpc : pc.msg = some m)
    (h_wait' : pc ≠ .wait m) (h_thread : s'.thread = Function.update s.thread t pc)
    (h_calls : s'.calls = s.calls) (h_owner : s'.owner = s.owner) (h_stage : s'.stage = s.stage)
    (h_queue : s'.queue = s.queue) (h_lt : pc.work < (s.thread t).work) : s'.work < s.work := by
  have h_pc : s'.thread t = pc := by rw [h_thread, Function.update_self]
  have h_after : s'.callWork m = pc.work := by
    rw [h'.callWork_new (t := t) (by rw [h_pc, hpc]) (by rwa [h_pc]), h_pc]
  refine h.work_thread t pc (s.stage m) ht h_thread h_calls h_owner ?_ ?_
  · rw [h_stage, Function.update_eq_self]
  · rw [h_after, h.callWork_new ht h_wait, h_queue]
    omega

theorem Threads.work_call (h : Threads s) {t : T} (f : Func) (ht : s.thread t = .out) :
    (s.call t f).work ≤ s.work + 11 := by
  -- the work that is left of the older calls does not change
  have h_old : ∑ d ∈ Finset.range s.calls, (s.call t f).callWork d =
      ∑ d ∈ Finset.range s.calls, s.callWork d := by
    refine Finset.sum_congr rfl fun d hd => ?_
    have h_ne : d ≠ s.calls := (Finset.mem_range.mp hd).ne
    refine h.callWork_eq (Function.update_of_ne h_ne _ _) (Function.update_of_ne h_ne _ _)
      fun u hu => Function.update_of_ne ?_ _ _
    rintro rfl
    rw [ht] at hu
    exact absurd hu (by simp [Pc.msg])
  -- the new call has eleven steps before it
  have h_new : (s.call t f).callWork s.calls = 11 := by
    have h_pc : (s.call t f).thread t = .take s.calls := Function.update_self _ _ _
    rw [(h.call f ht).callWork_new (t := t) (by rw [h_pc]; rfl) (by simp [h_pc]), h_pc]
    rfl
  show ∑ d ∈ Finset.range (s.calls + 1), (s.call t f).callWork d + s.queue.length ≤ s.work + 11
  rw [Finset.sum_range_succ, h_old, h_new, State.work]
  omega

/-- Every step of a call takes something from the work. -/
theorem Inv.work_step (h : Inv s) {a : Action T} (hG : OneReceiver s a) (hs : Step s a s') :
    s'.work + a.goesOn.toNat ≤ s.work + a.cost := by
  have h' := (h.step hG hs).threads
  have hT := h.threads
  have hR := h.referenced
  cases hs with
  | call t f ht => exact hT.work_call f ht
  | take t m ht h_free =>
    -- before `send` each step of the thread is one unit
    exact hT.work_goto h' (t := t) (m := m) (by rw [ht]; rfl) (by simp [ht]) rfl
      (by simp) rfl rfl rfl rfl rfl (by simp [ht, Pc.work])
  | found t m sem ht h_mem =>
    exact hT.work_goto h' (t := t) (m := m) (by rw [ht]; rfl) (by simp [ht]) rfl
      (by simp) rfl rfl rfl rfl rfl (by simp [ht, Pc.work])
  | missing t m ht =>
    exact hT.work_goto h' (t := t) (m := m) (by rw [ht]; rfl) (by simp [ht]) rfl
      (by simp) rfl rfl rfl rfl rfl (by simp [ht, Pc.work])
  | create t m ht =>
    exact hT.work_goto h' (t := t) (m := m) (by rw [ht]; rfl) (by simp [ht]) rfl
      (by simp) rfl rfl rfl rfl rfl (by simp [ht, Pc.work])
  | link t m sem next ht =>
    exact hT.work_goto h' (t := t) (m := m) (by rw [ht]; rfl) (by simp [ht]) rfl
      (by simp) rfl rfl rfl rfl rfl (by simp [ht, Pc.work])
  | release t m ht =>
    exact hT.work_goto h' (t := t) (m := m) (by rw [ht]; rfl) (by simp [ht]) rfl
      (by simp) rfl rfl rfl rfl rfl (by simp [ht, Pc.work])
  | send t m ht h_room =>
    -- the queue gets longer by one, and the call less by two
    have h_msg : (s.thread t).msg = some m := by rw [ht]; rfl
    have h_before : s.callWork m = 6 := by
      rw [hT.callWork_new h_msg (by simp [ht]), ht]
      rfl
    refine hT.work_thread t (.wait m) (some .queued) h_msg rfl rfl rfl rfl ?_
    rw [h_before, callWork_of_stage (g := .queued) (Function.update_self _ _ _) (by decide)]
    show 4 + (s.queue ++ [some m]).length < 6 + s.queue.length
    rw [List.length_append, List.length_singleton]
    omega
  | wake t m sem ht h_sem h_token =>
    -- the call is over
    obtain ⟨k, hk, h_mem⟩ := h.sems.of_wait ht
    obtain rfl := Option.some.inj (h_sem.symm.trans hk)
    have h_given := h.tokens.given_of_wait hT h.sems ht h_mem h_token
    refine hT.work_thread t .out none (by rw [ht]; rfl) rfl rfl rfl rfl ?_
    rw [callWork_of_stage h_given (by decide), callWork_of_none (Function.update_self _ _ _)]
    exact Nat.add_lt_add_right (by decide) _
  | null r q h_loop h_queue =>
    show ∑ d ∈ Finset.range s.calls, s.callWork d + q.length + 1 ≤ s.work
    rw [State.work, h_queue, List.length_cons]
    exact Nat.le_refl _
  | answer r m q h_loop h_queue =>
    -- a message that leaves the queue takes a unit with it
    have h_stage : s.stage m = some .queued := hR.of_queue (by simp [h_queue])
    exact hT.work_advance h_stage (by decide) (by decide : Stage.give ≠ .new) rfl rfl rfl rfl
      (by rw [h_queue]; show 2 + q.length < 4 + (q.length + 1); omega)
  | receive r m q pcb len timeout h_loop h_queue hf =>
    have h_stage : s.stage m = some .queued := hR.of_queue (by simp [h_queue])
    exact hT.work_advance h_stage (by decide) (by decide : Stage.udp ≠ .new) rfl rfl rfl rfl
      (by rw [h_queue]; show 3 + q.length < 4 + (q.length + 1); omega)
  | resolve r m q h_loop h_queue =>
    have h_stage : s.stage m = some .queued := hR.of_queue (by simp [h_queue])
    exact hT.work_advance h_stage (by decide) (by decide : Stage.dns ≠ .new) rfl rfl rfl rfl
      (by rw [h_queue]; show 3 + q.length < 4 + (q.length + 1); omega)
  | datagram m pcb bytes h_loop h_udp =>
    exact hT.work_advance (hR.of_udp h_udp).1 (by decide) (by decide : Stage.give ≠ .new)
      rfl rfl rfl rfl (Nat.add_lt_add_right (by decide) _)
  | timeout m h_loop h_mem =>
    exact hT.work_advance (hR.of_timeouts h_mem) (by decide) (by decide : Stage.give ≠ .new)
      rfl rfl rfl rfl (Nat.add_lt_add_right (by decide) _)
  | dnsAnswer m addr h_loop h_mem =>
    exact hT.work_advance (hR.of_dns h_mem) (by decide) (by decide : Stage.give ≠ .new)
      rfl rfl rfl rfl (Nat.add_lt_add_right (by decide) _)
  | give m sem h_give h_sem =>
    exact hT.work_advance (hR.of_give h_give) (by decide) (by decide : Stage.given ≠ .new)
      rfl rfl rfl rfl (Nat.add_lt_add_right (by decide) _)
  | inline f r h_loop => exact (hT.work_inline f r).le
  | frame =>
    show ∑ d ∈ Finset.range s.calls, s.callWork d + (s.queue ++ [none]).length ≤ s.work + 1
    rw [List.length_append, State.work]
    exact Nat.le_refl _
  | lost => exact Nat.le_succ _

end Work

/-! ### Every call goes on -/

section GoesOn

variable {T : Type} {s : State T} {m : Msg}

theorem Referenced.mem_queue (h : Referenced s) (hm : s.stage m = some .queued) :
    some m ∈ s.queue := by
  have h_refs := h.refs m
  rw [hm, Refs.ext_iff] at h_refs
  exact List.count_pos_iff.mp (by rw [show s.queue.count (some m) = 1 from h_refs.1]; decide)

theorem Referenced.mem_dns (h : Referenced s) (hm : s.stage m = some .dns) : m ∈ s.dns := by
  have h_refs := h.refs m
  rw [hm, Refs.ext_iff] at h_refs
  exact List.count_pos_iff.mp (by rw [show s.dns.count m = 1 from h_refs.2.2.2.2]; decide)

theorem Referenced.gives (h : Referenced s) (hm : s.stage m = some .give) : s.tcpip = .give m := by
  have h_refs := h.refs m
  rw [hm, Refs.ext_iff] at h_refs
  exact h_refs.2.1.mpr trivial

variable [DecidableEq T]

/-- The holder of `api_mutex` goes on. -/
theorem thread_of_locked {t : T} (ht : (s.thread t).locked = true) :
    (s.next (.thread t)).isSome := by
  simp only [State.next, State.threadNext]
  cases hpc : s.thread t <;> simp only [hpc, Pc.locked, Bool.false_eq_true] at ht ⊢
  case find => split <;> rfl
  all_goals rfl

/-- While a call has not returned, there is a step to take. -/
theorem Inv.goesOn (h : Inv s) (hm : s.stage m ≠ none) :
    ∃ a : Action T, a.goesOn = true ∧ (s.next a).isSome := by
  obtain ⟨hT, hS, hR, hK, -⟩ := h
  cases h_tcpip : s.tcpip with
  | give d =>
    -- the network thread gives the token
    obtain ⟨t, ht⟩ := hT.waits (hR.of_give h_tcpip) (by decide)
    obtain ⟨sem, h_sem, -⟩ := hS.of_wait ht
    exact ⟨.give, rfl, by simp [State.next, h_tcpip, h_sem]⟩
  | loop =>
    cases h_queue : s.queue with
    | cons o q =>
      -- it takes what is first in the queue
      refine ⟨.accept { ret := errOk }, rfl, ?_⟩
      cases o with
      | none => simp [State.next, h_tcpip, h_queue]
      | some d =>
        have h_allows : (s.func d).Allows { ret := errOk } := .inr (by decide)
        simp [State.next, h_tcpip, h_queue, h_allows]
    | nil =>
      obtain ⟨g, hg⟩ := Option.ne_none_iff_exists'.mp hm
      obtain ⟨t, ht⟩ := hT.busy m hm
      -- an empty queue: what the call waits for goes on
      cases g with
      | new =>
        have h_wait : s.thread t ≠ .wait m := fun h_eq =>
          (hT.place t m ht).2.2.mp h_eq hg
        cases hpc : s.thread t with
        | out => simp [hpc, Pc.msg] at ht
        | take d =>
          -- the mutex is free, or its holder goes on
          cases h_mutex : s.mutex with
          | none => exact ⟨.thread t, rfl, by simp [State.next, State.threadNext, hpc, h_mutex]⟩
          | some u => exact ⟨.thread u, rfl, thread_of_locked ((hS.locked u).mpr h_mutex)⟩
        | find d | create d | link d | release d =>
          exact ⟨.thread t, rfl, thread_of_locked (by rw [hpc]; rfl)⟩
        | send d =>
          have h_room : s.queue.length < queueLength := by simp [h_queue, queueLength]
          exact ⟨.thread t, rfl, by simp [State.next, State.threadNext, hpc, h_room]⟩
        | wait d =>
          rw [hpc] at ht h_wait
          exact absurd (congrArg Pc.wait (Option.some.inj ht)) h_wait
      | queued =>
        have h_mem := hR.mem_queue hg
        rw [h_queue] at h_mem
        exact absurd h_mem List.not_mem_nil
      | udp =>
        obtain ⟨pcb, h_pcb⟩ := Option.ne_none_iff_exists'.mp (hR.receives m hg)
        have h_udp := hR.udp_of_stage hg h_pcb
        exact ⟨.datagram pcb [], rfl, by simp [State.next, h_tcpip, h_udp]⟩
      | dns => exact ⟨.dnsAnswer m none, rfl, by simp [State.next, h_tcpip, hR.mem_dns hg]⟩
      | give => exact absurd (h_tcpip.symm.trans (hR.gives hg)) (by simp)
      | given =>
        -- the token is there
        obtain ⟨u, hu⟩ := hT.waits hg (by decide)
        obtain ⟨sem, h_sem, -⟩ := hS.of_wait hu
        have h_token : s.token sem = true := (hK.token sem).mpr ⟨m, hg, h_sem⟩
        exact ⟨.thread u, rfl, by simp [State.next, State.threadNext, hu, h_sem, h_token]⟩

end GoesOn

/-! ### Calls return once -/

/-- What holds of the calls that have returned, and of the semaphores. -/
structure ReturnsOnce {T : Type} (s : State T) : Prop where
  once : (s.returned.map Prod.fst).Nodup
  /-- It returned the result that was written for it, and no other was written. -/
  own : ∀ m a, (m, a) ∈ s.returned →
    ∃ r, a = some r ∧ (m, r) ∈ s.answered ∧ ∀ r', (m, r') ∈ s.answered → r' = r
  /-- A semaphore is given only while its thread waits, with its own result written. -/
  token : ∀ t sem, (t, sem) ∈ s.semlist → s.token sem = true →
    ∃ m r, s.thread t = .wait m ∧ s.answer m = some r ∧ (m, r) ∈ s.answered
  /-- Nothing refers to its message. -/
  gone : ∀ m a, (m, a) ∈ s.returned → some m ∉ s.queue ∧ s.tcpip ≠ .give m ∧
    (∀ pcb, s.udp pcb ≠ some m) ∧ m ∉ s.timeouts ∧ m ∉ s.dns

section Returns

variable {T : Type} {s : State T}

theorem nodup_of_count {l : List ℕ} {p : ℕ → Prop} [DecidablePred p]
    (h : ∀ m, l.count m = if p m then 1 else 0) : l.Nodup := by
  rw [List.nodup_iff_count_le_one]
  intro m
  rw [h]
  split_ifs <;> omega

theorem History.stage_of_returned (h : History s) {m : Msg} {a : Option Answer}
    (hm : (m, a) ∈ s.returned) : s.stage m = none := by
  have h_pos : 0 < (s.returned.map Prod.fst).count m :=
    List.count_pos_iff.mpr (List.mem_map_of_mem hm)
  rw [h.returned m] at h_pos
  split_ifs at h_pos with h_if
  · exact h_if.2
  · exact absurd h_pos (by decide)

theorem Inv.returnsOnce (h : Inv s) : ReturnsOnce s := by
  obtain ⟨hT, hS, hR, hK, hH⟩ := h
  have h_answered : (s.answered.map Prod.fst).Nodup := nodup_of_count hH.answered
  refine ⟨nodup_of_count hH.returned, fun m a hm => ?_, fun t sem h_mem h_token => ?_,
    fun m a hm => ?_⟩
  -- a result was written once, so what is returned is the only one
  · obtain ⟨r, h_eq, h_mem⟩ := hH.own m a hm
    refine ⟨r, h_eq, h_mem, fun r' h_mem' => ?_⟩
    exact (Prod.mk.inj (List.inj_on_of_nodup_map h_answered h_mem' h_mem rfl)).2
  -- a token belongs to the call that the thread is waiting in
  · obtain ⟨m, hm, h_sem⟩ := (hK.token sem).mp h_token
    obtain ⟨u, hu⟩ := hT.waits hm (by decide)
    obtain ⟨k, hk, h_mem'⟩ := hS.of_wait hu
    obtain rfl := Option.some.inj (h_sem.symm.trans hk)
    obtain rfl := hS.unique t u sem h_mem h_mem'
    obtain ⟨r, h_answer, h_mem⟩ := hH.result m (.inr hm)
    exact ⟨m, r, hu, h_answer, h_mem⟩
  -- a message that has returned is nowhere any more
  · have h_stage := hH.stage_of_returned hm
    refine ⟨fun h' => ?_, fun h' => ?_, fun pcb h' => ?_, fun h' => ?_, fun h' => ?_⟩
    · exact absurd (h_stage.symm.trans (hR.of_queue h')) (by simp)
    · exact absurd (h_stage.symm.trans (hR.of_give h')) (by simp)
    · exact absurd (h_stage.symm.trans (hR.of_udp h').1) (by simp)
    · exact absurd (h_stage.symm.trans (hR.of_timeouts h')) (by simp)
    · exact absurd (h_stage.symm.trans (hR.of_dns h')) (by simp)

variable [DecidableEq T]

theorem Inv.work_path (h : Inv s) {as : List (Action T)} {t : State T}
    (h_path : (machine T).Path OneReceiver s as t) :
    (as.filter Action.goesOn).length + t.work ≤ s.work + (as.map Action.cost).sum := by
  induction h_path with
  | nil => simp
  | @cons s s' t a as hG hn _ ih =>
    have hs := step_of_next hn
    have h_rest := ih (h.step hG hs)
    have h_step := h.work_step hG hs
    rw [List.map_cons, List.sum_cons, List.filter_cons]
    cases ha : a.goesOn
    · simp only [ha, Bool.toNat_false, Bool.false_eq_true, if_false] at h_step ⊢
      omega
    · simp only [ha, Bool.toNat_true, if_true, List.length_cons] at h_step ⊢
      omega

/-- **Calls return once.** In every run in which at most one `api_udp_recv` is outstanding on a
socket. A run has only so many steps besides the calls and the frames, and where there is
nothing left to do or to wait for, every call has returned. -/
theorem api_call_returns (h : (machine T).Reach OneReceiver s) :
    ReturnsOnce s ∧
    (∀ as t, (machine T).Path OneReceiver s as t →
      (as.filter Action.goesOn).length + t.work ≤ s.work + (as.map Action.cost).sum) ∧
    ((∀ a : Action T, a.goesOn = true → s.next a = none) →
      ∀ m < s.calls, m ∈ s.returned.map Prod.fst) := by
  have hI : Inv s := .reach h
  refine ⟨hI.returnsOnce, fun as t h_path => hI.work_path h_path, fun h_none m hm => ?_⟩
  -- a call that has not returned has a stage, and then some step is possible
  by_contra h_not
  have h_stage : s.stage m ≠ none := by
    intro h_stage
    have h_count := hI.history.returned m
    rw [if_pos ⟨hm, h_stage⟩, List.count_eq_zero_of_not_mem h_not] at h_count
    exact absurd h_count (by decide)
  obtain ⟨a, ha, h_some⟩ := hI.goesOn h_stage
  rw [h_none a ha] at h_some
  exact absurd h_some (by simp)

instance [Fintype T] (s : State T) (a : Action T) : Decidable (OneReceiver s a) :=
  match a with
  | .call _ f =>
    inferInstanceAs (Decidable
      (∀ pcb ∈ f.pcb, ∀ t, ∀ m ∈ (s.thread t).msg, (s.func m).pcb ≠ some pcb))
  | .thread _ | .accept _ | .datagram _ _ | .timeout _ | .dnsAnswer _ _ | .give | .inline _ _
  | .frame => inferInstanceAs (Decidable True)

end Returns

/-- One thread waits for a datagram and another one for the resolver. -/
def twoCalls : List (Action Bool) :=
  [Action.call true (.udpRecv 7 16 1000), .call false .gethostbyname] ++
    List.replicate 6 (Action.thread true) ++ List.replicate 6 (Action.thread false) ++
    [Action.accept { ret := errOk }, .accept { ret := errInprogress }, .datagram 7 [1, 2, 3], .give,
      .dnsAnswer 1 (some [10, 0, 0, 1]), .thread true, .give, .thread false]

/-- Both return with their results. -/
theorem api_call_returns_both :
    ReturnsOnce ((machine Bool).after OneReceiver twoCalls) ∧
    ((machine Bool).after OneReceiver twoCalls).returned =
      [(0, some { ret := errOk, out := [1, 2, 3] }),
        (1, some { ret := errOk, out := [10, 0, 0, 1] })] :=
  ⟨(api_call_returns ((machine Bool).reach_after OneReceiver (by decide))).1, by decide⟩

end Api

end Laureline
