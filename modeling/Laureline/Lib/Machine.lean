import Mathlib.Data.List.Basic

/-!
# Deterministic machines with guarded actions

A machine has one initial state and, for every action, at most one successor
(`Machine.next`; `none` means that the action is not enabled). What the
environment promises is kept apart from the machine itself: it is a predicate
`G : σ → α → Prop` on the state before an action, and `Machine.Reach G` collects
the states of the runs all of whose actions meet it. One machine can thus be
studied under several promises.

* `Machine.Reach.invariant` is the induction rule: what holds initially and
  survives every guarded step holds of every reachable state.
* `Machine.Path` is the run itself, with its list of actions.
* `Machine.exec` computes the end of a run and fails on an action that is not
  enabled or not promised. `Machine.reach_after` turns such a computation into
  a reachability proof.
-/

namespace Laureline

/-- A deterministic machine over the states `σ` and the actions `α`. -/
structure Machine (σ α : Type*) where
  /-- The unique initial state. -/
  init : σ
  /-- The successor under an action, if the action is enabled. -/
  next : σ → α → Option σ

namespace Machine

variable {σ α : Type*} {M : Machine σ α} {G G' : σ → α → Prop}

/-- The states of the runs from `M.init` whose actions all meet the guard. -/
inductive Reach (M : Machine σ α) (G : σ → α → Prop) : σ → Prop
  | init : Reach M G M.init
  | step {s s' : σ} {a : α} (h : Reach M G s) (hg : G s a) (hn : M.next s a = some s') :
      Reach M G s'

/-- **Invariants.** A predicate that holds initially and survives every guarded
step holds of every reachable state. -/
theorem Reach.invariant {I : σ → Prop} (h_init : I M.init)
    (h_step : ∀ s a s', I s → G s a → M.next s a = some s' → I s')
    {s : σ} (h : M.Reach G s) : I s := by
  induction h with
  | init => exact h_init
  | step _ hg hn ih => exact h_step _ _ _ ih hg hn

/-- A weaker guard reaches at least as much. -/
theorem Reach.mono (hG : ∀ s a, G s a → G' s a) {s : σ} (h : M.Reach G s) : M.Reach G' s := by
  induction h with
  | init => exact .init
  | step _ hg hn ih => exact ih.step (hG _ _ hg) hn

/-- The runs of the machine between two states, with their actions. -/
inductive Path (M : Machine σ α) (G : σ → α → Prop) : σ → List α → σ → Prop
  | nil (s : σ) : Path M G s [] s
  | cons {s s' t : σ} {a : α} {as : List α} (hg : G s a) (hn : M.next s a = some s')
      (h : Path M G s' as t) : Path M G s (a :: as) t

/-- A run that starts in a reachable state ends in one. -/
theorem Path.reach {s t : σ} {as : List α} (h : M.Path G s as t) (hs : M.Reach G s) :
    M.Reach G t := by
  induction h with
  | nil => exact hs
  | cons hg hn _ ih => exact ih (hs.step hg hn)

/-- A run meets every weaker guard. -/
theorem Path.mono (hG : ∀ s a, G s a → G' s a) {s t : σ} {as : List α} (h : M.Path G s as t) :
    M.Path G' s as t := by
  induction h with
  | nil s => exact .nil s
  | cons hg hn _ ih => exact .cons (hG _ _ hg) hn ih

/-- A run that meets two guards meets both at once: its actions determine it. -/
theorem Path.both {s t t' : σ} {as : List α} (h : M.Path G s as t) (h' : M.Path G' s as t') :
    M.Path (fun s a => G s a ∧ G' s a) s as t := by
  induction h with
  | nil s => exact .nil s
  | cons hg hn _ ih =>
    cases h' with
    | cons hg' hn' h' =>
      obtain rfl := Option.some.inj (hn.symm.trans hn')
      exact .cons ⟨hg, hg'⟩ hn (ih h')

/-- Two runs one after the other. -/
theorem Path.append {s t u : σ} {as bs : List α} (h : M.Path G s as t) (h' : M.Path G t bs u) :
    M.Path G s (as ++ bs) u := by
  induction h with
  | nil => exact h'
  | cons hg hn _ ih => exact .cons hg hn (ih h')

/-- What the actions of a run preserve holds at its end. -/
theorem Path.invariant {I : σ → Prop} (h_step : ∀ s a s', I s → G s a → M.next s a = some s' → I s')
    {s t : σ} {as : List α} (h : M.Path G s as t) (hs : I s) : I t := by
  induction h with
  | nil => exact hs
  | cons hg hn _ ih => exact ih (h_step _ _ _ hs hg hn)

/-- The same for a predicate on the actions so far and the state. -/
theorem Path.history_append {I : List α → σ → Prop}
    (h_step : ∀ bs s a s', I bs s → G s a → M.next s a = some s' → I (bs ++ [a]) s')
    {s t : σ} {as bs : List α} (h : M.Path G s as t) (hs : I bs s) : I (bs ++ as) t := by
  induction h generalizing bs with
  | nil => rwa [List.append_nil]
  | @cons s s' t a as hg hn _ ih =>
    rw [← List.singleton_append, ← List.append_assoc]
    exact ih (h_step _ _ _ _ hs hg hn)

theorem Path.history {I : List α → σ → Prop}
    (h_step : ∀ bs s a s', I bs s → G s a → M.next s a = some s' → I (bs ++ [a]) s')
    {s t : σ} {as : List α} (h : M.Path G s as t) (hs : I [] s) : I as t :=
  h.history_append h_step hs

section Exec

variable (M G) [∀ s a, Decidable (G s a)]

/-- The end of the run with the given actions, if every one of them is enabled
and meets the guard. -/
def exec : σ → List α → Option σ
  | s, [] => some s
  | s, a :: as =>
    if G s a then
      match M.next s a with
      | some s' => exec s' as
      | none => none
    else none

/-- What computes is a run. -/
theorem path_of_exec : ∀ {as : List α} {s t : σ}, M.exec G s as = some t → M.Path G s as t
  | [], s, t, h => by
    obtain rfl := Option.some.inj h
    exact .nil _
  | a :: as, s, t, h => by
    simp only [exec] at h
    split at h
    · next hg =>
      split at h
      · next s' hn => exact .cons hg hn (path_of_exec h)
      · -- not enabled
        exact absurd h (by simp)
    · -- not promised
      exact absurd h (by simp)

/-- A run that computes shows its end state reachable. -/
theorem reach_of_exec {as : List α} {t : σ} (h : M.exec G M.init as = some t) : M.Reach G t :=
  (path_of_exec M G h).reach .init

/-- The end of a run from the initial state; the initial state if it is not a run. -/
def after (as : List α) : σ := (M.exec G M.init as).getD M.init

theorem reach_after {as : List α} (h : (M.exec G M.init as).isSome) :
    M.Reach G (M.after G as) := by
  obtain ⟨t, ht⟩ := Option.isSome_iff_exists.mp h
  have h_after : M.after G as = t := by rw [after, ht, Option.getD_some]
  rw [h_after]
  exact reach_of_exec M G ht

end Exec

end Machine

end Laureline
