import Mathlib.Tactic.Common
import Mathlib.Logic.Function.Basic
import Mathlib.Order.Basic

/-!
# Programs by their accesses

A program sees a memory only through its loads and stores, one cell at a time. A loop that has
used up its rounds hangs.

* `Access.run` is the result and the memory after it, `Access.touched` the addresses on the way;
* `Access.Within k c m Q`: the program does not hang, touches no address from `k` on, and leaves
  a result and a memory for which `Q` holds. There is one rule for each way to make a program
  (`within_pure`, `within_fetch`, `within_put`, `within_bind`).
-/

namespace Laureline

/-- A program on a memory of cells `β`. -/
inductive Access (β α : Type)
  | ret (a : α)
  | load (i : ℕ) (k : β → Access β α)
  | store (i : ℕ) (v : β) (k : Access β α)
  | hang

namespace Access

variable {β α γ : Type}

/-- One program after the other. -/
def bind : Access β α → (α → Access β γ) → Access β γ
  | ret a, f => f a
  | load i k, f => load i fun v => (k v).bind f
  | store i v k, f => store i v (k.bind f)
  | hang, _ => hang

instance : Monad (Access β) where
  pure := ret
  bind := bind

/-- The cell at an address. -/
def fetch (i : ℕ) : Access β β := load i ret

/-- A cell is overwritten. -/
def put (i : ℕ) (v : β) : Access β Unit := store i v (ret ())

/-- The result, and the memory after it; `none` if the program hangs. -/
def run : Access β α → (ℕ → β) → Option (α × (ℕ → β))
  | ret a, m => some (a, m)
  | load i k, m => (k (m i)).run m
  | store i v k, m => k.run (Function.update m i v)
  | hang, _ => none

/-- The addresses that are loaded or stored. -/
def touched : Access β α → (ℕ → β) → List ℕ
  | ret _, _ => []
  | load i k, m => i :: (k (m i)).touched m
  | store i v k, m => i :: k.touched (Function.update m i v)
  | hang, _ => []

/-- All addresses are below `k`, and the program ends with `Q`. -/
def Within (k : ℕ) (c : Access β α) (m : ℕ → β) (Q : α → (ℕ → β) → Prop) : Prop :=
  (∀ i ∈ c.touched m, i < k) ∧ ∃ a m', c.run m = some (a, m') ∧ Q a m'

variable {k : ℕ} {m : ℕ → β} {Q R : α → (ℕ → β) → Prop}

/-! ### The rules -/

@[simp] theorem within_pure {a : α} : Within k (pure a : Access β α) m Q ↔ Q a m := by
  constructor
  · rintro ⟨-, _, _, h_run, h⟩
    obtain ⟨rfl, rfl⟩ := Prod.mk.inj (Option.some.inj h_run)
    exact h
  · intro h
    exact ⟨fun i hi => absurd hi List.not_mem_nil, a, m, rfl, h⟩

theorem within_load {i : ℕ} {f : β → Access β α} :
    Within k (load i f) m Q ↔ i < k ∧ Within k (f (m i)) m Q := by
  unfold Within
  rw [touched, List.forall_mem_cons, run, and_assoc]

theorem within_store {i : ℕ} {v : β} {c : Access β α} :
    Within k (store i v c) m Q ↔ i < k ∧ Within k c (Function.update m i v) Q := by
  unfold Within
  rw [touched, List.forall_mem_cons, run, and_assoc]

/-- **Composition.** What follows is asked of the memory that the first program leaves. -/
@[simp] theorem within_bind {c : Access β γ} {f : γ → Access β α} :
    Within k (c >>= f) m Q ↔ Within k c m fun a m' => Within k (f a) m' Q := by
  change Within k (c.bind f) m Q ↔ _
  -- on the first program: each access passes the question on
  induction c generalizing m with
  | ret a => exact (within_pure (Q := fun a m' => Within k (f a) m' Q)).symm
  | load i g ih => rw [bind, within_load, within_load, ih]
  | store i v c ih => rw [bind, within_store, within_store, ih]
  | hang =>
    -- a program that hangs has no result to go on with
    constructor
    · rintro ⟨-, _, _, h, -⟩
      exact absurd h (by simp [bind, run])
    · rintro ⟨-, _, _, h, -⟩
      exact absurd h (by simp [run])

@[simp] theorem within_fetch {i : ℕ} {Q : β → (ℕ → β) → Prop} :
    Within k (fetch i) m Q ↔ i < k ∧ Q (m i) m := by
  rw [fetch, within_load]
  exact and_congr_right fun _ => within_pure

@[simp] theorem within_put {i : ℕ} {v : β} {Q : Unit → (ℕ → β) → Prop} :
    Within k (put i v) m Q ↔ i < k ∧ Q () (Function.update m i v) := by
  rw [put, within_store]
  exact and_congr_right fun _ => within_pure

theorem Within.mono {c : Access β α} (h : Within k c m Q) (h_imp : ∀ a m', Q a m' → R a m') :
    Within k c m R := by
  obtain ⟨h_touched, a, m', h_run, h_post⟩ := h
  exact ⟨h_touched, a, m', h_run, h_imp a m' h_post⟩

/-- A program that leaves the memory as it is and whose result is known. -/
theorem Within.then {c : Access β γ} {f : γ → Access β α} {v : γ}
    (h : Within k c m fun a m' => a = v ∧ m' = m) (h_next : Within k (f v) m Q) :
    Within k (c >>= f) m Q := by
  rw [within_bind]
  refine h.mono fun a m' h_eq => ?_
  rw [h_eq.1, h_eq.2]
  exact h_next

end Access
end Laureline
