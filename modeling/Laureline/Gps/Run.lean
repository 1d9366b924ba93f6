import Laureline.Gps.Feed

/-!
# A parser fed with one byte after the other

A parser takes its state, the buffer and an input to an `Out`. `Run.after` is what it and the
buffer are after a list of inputs, `Run.outs` are the results on the way.

`Run.after_induction` is the induction rule for what holds after every list of inputs. The
predicate may speak about the inputs, so an invariant can relate the state to what was fed.
-/

namespace Laureline
namespace Gps
namespace Run

variable {σ ι : Type} (feed : σ → Pbuf → ι → Out σ)

/-- The parser and the buffer after one input. -/
def next (c : σ × Pbuf) (x : ι) : σ × Pbuf :=
  let out := feed c.1 c.2 x
  (out.st, (c.2.store out.writes).cut out.cuts)

/-- The parser and the buffer after a list of inputs. -/
def after (c : σ × Pbuf) (xs : List ι) : σ × Pbuf := xs.foldl (next feed) c

/-- The results, one for each input. -/
def outs (c : σ × Pbuf) : List ι → List (Out σ)
  | [] => []
  | x :: xs => feed c.1 c.2 x :: outs (next feed c x) xs

variable {feed} (c : σ × Pbuf) (x : ι) (xs ys : List ι)

@[simp] theorem after_nil : after feed c [] = c := rfl

@[simp] theorem after_cons : after feed c (x :: xs) = after feed (next feed c x) xs := rfl

theorem after_append : after feed c (xs ++ ys) = after feed (after feed c xs) ys :=
  List.foldl_append

theorem after_concat : after feed c (xs ++ [x]) = next feed (after feed c xs) x := by
  rw [after_append, after_cons, after_nil]

@[simp] theorem outs_nil : outs feed c [] = [] := rfl

@[simp] theorem outs_cons :
    outs feed c (x :: xs) = feed c.1 c.2 x :: outs feed (next feed c x) xs := rfl

theorem outs_append :
    outs feed c (xs ++ ys) = outs feed c xs ++ outs feed (after feed c xs) ys := by
  induction xs generalizing c with
  | nil => rfl
  | cons x xs ih => rw [List.cons_append, outs_cons, outs_cons, ih, after_cons, List.cons_append]

variable (feed) {c} {xs}

/-- **Induction over a run.** What holds of the start and no inputs, and survives every input,
holds after every list of inputs. -/
theorem after_induction {I : List ι → σ × Pbuf → Prop} (h_nil : I [] c)
    (h_step : ∀ xs c x, I xs c → I (xs ++ [x]) (next feed c x)) (xs : List ι) :
    I xs (after feed c xs) := by
  suffices h : ∀ (ys : List ι) c, I ys c → I (ys ++ xs) (after feed c xs) from h [] c h_nil
  induction xs with
  | nil => exact fun ys c h => by rwa [List.append_nil]
  | cons x xs ih =>
    intro ys c h
    have h_rest := ih (ys ++ [x]) (next feed c x) (h_step ys c x h)
    rwa [List.append_assoc] at h_rest

/-- What comes before the end of a sequence with one input more. -/
theorem split_concat {xs pre post : List ι} {x : ι} (h : xs ++ [x] = pre ++ post) :
    pre = xs ++ [x] ∨ ∃ post', xs = pre ++ post' := by
  rcases List.eq_nil_or_concat post with rfl | ⟨post', x', rfl⟩
  · exact Or.inl (by rw [h, List.append_nil])
  · rw [List.concat_eq_append, ← List.append_assoc] at h
    exact Or.inr ⟨post', List.append_inj_left' h rfl⟩

end Run
end Gps
end Laureline
