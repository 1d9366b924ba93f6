import Laureline.Util.Parse
import Mathlib.Algebra.GroupWithZero.Nat

/-!
# The pieces that `strtok_s` returns

`strtokCall` is the n-th of a chain of calls: the first with the string, the others with the null
pointer.

* `pieces_eq_splitOn` — the pieces of a text are those of the library;
* `passed` — the text with its first delimiters overwritten, which is all that the calls change;
* `ChainOn.first` — the first call of a chain;
* `ChainOn.mem_call`, `ChainOn.ptr_call`, `ChainOn.text_call` — the n-th call;
* `strtokCall_splitOn` — the pieces in order, and the null pointer behind them.
-/

namespace Laureline

/-! ### Texts -/

/-- A NUL behind the end of a text changes nothing. -/
theorem text_set {m : List UInt8} {i : ℕ} (h : (text m).length ≤ i) :
    text (m.set i 0) = text m := by
  induction m generalizing i with
  | nil => rfl
  | cons c m ih =>
    by_cases hc : c = 0
    · cases i <;> simp [text, hc]
    · cases i with
      | zero => simp [text, hc] at h
      | succ i =>
        simp only [text, hc, if_false, List.length_cons, Nat.add_le_add_iff_right] at h
        rw [List.set_cons_succ, text, text, if_neg hc, if_neg hc, ih h]

/-- A NUL ends the text. -/
theorem length_text_set (m : List UInt8) (i : ℕ) : (text (m.set i 0)).length ≤ i := by
  induction m generalizing i with
  | nil => exact Nat.zero_le i
  | cons c m ih =>
    cases i with
    | zero => simp [text]
    | succ i =>
      rw [List.set_cons_succ, text]
      split
      · exact Nat.zero_le _
      · exact Nat.succ_le_succ (ih i)

theorem length_cut_le (delim : UInt8) (s : List UInt8) : (cut delim s).1.length ≤ s.length := by
  induction s with
  | nil => exact Nat.le_refl _
  | cons c s ih =>
    rw [cut]
    split
    · exact Nat.zero_le _
    · exact Nat.succ_le_succ ih

/-- The pieces are those of the library. -/
theorem pieces_eq_splitOn (delim : UInt8) (s : List UInt8) : pieces delim s = s.splitOn delim := by
  induction s with
  | nil => rfl
  | cons c s ih =>
    rw [pieces, List.splitOn_cons_eq_if_modifyHead, ih]
    by_cases h : c = delim
    · simp [h]
    · rw [if_neg h, if_neg (by simpa using h)]
      cases h_rest : s.splitOn delim with
      | nil => exact absurd h_rest (List.splitOn_ne_nil _ _)
      | cons f fs => rfl

/-- Pieces joined with the delimiter are found again. -/
theorem pieces_intercalate {delim : UInt8} {fields : List (List UInt8)} (h_some : fields ≠ [])
    (h : ∀ f ∈ fields, delim ∉ f) : pieces delim ([delim].intercalate fields) = fields := by
  rw [pieces_eq_splitOn, List.splitOn_intercalate delim h h_some]

/-! ### A chain of calls -/

/-- The `n`-th call after `strtok_s(str, delim)`; it and those between have the null pointer. -/
def strtokCall (delim : UInt8) (t : Strtok) (str : Option ℕ) : ℕ → Option ℕ × Strtok
  | 0 => strtokS t str delim
  | n + 1 => strtokCall delim (strtokS t str delim).2 none n

/-- The text with its first `n` delimiters overwritten. -/
def passed (delim : UInt8) : ℕ → List UInt8 → List UInt8
  | 0, s => s
  | _ + 1, [] => []
  | n + 1, c :: s => if c = delim then 0 :: passed delim n s else c :: passed delim (n + 1) s

section
variable {delim : UInt8}

theorem passed_of_not_mem {s : List UInt8} (h : delim ∉ s) (n : ℕ) : passed delim n s = s := by
  cases n with
  | zero => rw [passed]
  | succ n =>
    induction s with
    | nil => rfl
    | cons c s ih =>
      obtain ⟨h_c, h_s⟩ := List.ne_and_not_mem_of_not_mem_cons h
      rw [passed, if_neg h_c.symm, ih h_s]

theorem passed_append {f : List UInt8} (h : delim ∉ f) (n : ℕ) (s : List UInt8) :
    passed delim (n + 1) (f ++ delim :: s) = f ++ 0 :: passed delim n s := by
  induction f with
  | nil => rw [List.nil_append, passed, if_pos rfl, List.nil_append]
  | cons c f ih =>
    obtain ⟨h_c, h_f⟩ := List.ne_and_not_mem_of_not_mem_cons h
    rw [List.cons_append, passed, if_neg h_c.symm, ih h_f, List.cons_append]

/-- Only delimiters are overwritten. -/
theorem passed_getElem? (n : ℕ) (s : List UInt8) (k : ℕ) :
    (passed delim n s)[k]? = s[k]? ∨ s[k]? = some delim ∧ (passed delim n s)[k]? = some 0 := by
  induction s generalizing n k with
  | nil => cases n <;> exact Or.inl rfl
  | cons c s ih =>
    cases n with
    | zero => exact Or.inl rfl
    | succ n =>
      rw [passed]
      split
      · -- a delimiter: one less to overwrite behind it
        next h_c =>
        cases k with
        | zero => exact Or.inr ⟨congrArg some h_c, rfl⟩
        | succ k => exact ih n k
      · cases k with
        | zero => exact Or.inl rfl
        | succ k => exact ih (n + 1) k

theorem length_passed (n : ℕ) (s : List UInt8) : (passed delim n s).length = s.length := by
  induction s generalizing n with
  | nil => cases n <;> rfl
  | cons c s ih =>
    cases n with
    | zero => rw [passed]
    | succ n =>
      rw [passed]
      split <;> rw [List.length_cons, List.length_cons, ih]

/-- The same inside a memory. -/
theorem passed_between (pre s post : List UInt8) (n k : ℕ) :
    (pre ++ (passed delim n s ++ 0 :: post))[k]? = (pre ++ (s ++ 0 :: post))[k]? ∨
      pre.length ≤ k ∧ k < pre.length + s.length ∧
        (pre ++ (s ++ 0 :: post))[k]? = some delim ∧
        (pre ++ (passed delim n s ++ 0 :: post))[k]? = some 0 := by
  by_cases h_pre : k < pre.length
  · -- before the text
    rw [List.getElem?_append_left h_pre, List.getElem?_append_left h_pre]
    exact Or.inl rfl
  · have h_le := Nat.not_lt.mp h_pre
    rw [List.getElem?_append_right h_le, List.getElem?_append_right h_le]
    by_cases h_s : k - pre.length < s.length
    · rw [List.getElem?_append_left h_s,
        List.getElem?_append_left (by rwa [length_passed])]
      rcases @passed_getElem? delim n s (k - pre.length) with h | ⟨h, h'⟩
      · exact Or.inl h
      · exact Or.inr ⟨h_le, by omega, h, h'⟩
    · -- behind it: the overwritten text is as long as the text
      have h_le' := Nat.not_lt.mp h_s
      rw [List.getElem?_append_right h_le',
        List.getElem?_append_right (by rwa [length_passed]), length_passed]
      exact Or.inl rfl

/-- The first delimiter of a text. -/
theorem findDelim_append {f : List UInt8} (h_delim : delim ≠ 0) (h : delim ∉ f) (h_nul : 0 ∉ f)
    (m : List UInt8) : findDelim delim (f ++ delim :: m) = some f.length := by
  induction f with
  | nil => rw [List.nil_append, findDelim, if_neg h_delim, if_pos rfl, List.length_nil]
  | cons c f ih =>
    obtain ⟨h_c, h_f⟩ := List.ne_and_not_mem_of_not_mem_cons h
    obtain ⟨h_c', h_f'⟩ := List.ne_and_not_mem_of_not_mem_cons h_nul
    rw [List.cons_append, findDelim, if_neg h_c'.symm, if_neg h_c.symm, ih h_f h_f',
      Option.map_some, List.length_cons]

/-- A text without delimiter. -/
theorem findDelim_append_nul {f : List UInt8} (h : delim ∉ f) (m : List UInt8) :
    findDelim delim (f ++ 0 :: m) = none := by
  induction f with
  | nil => rw [List.nil_append, findDelim, if_pos rfl]
  | cons c f ih =>
    obtain ⟨h_c, h_f⟩ := List.ne_and_not_mem_of_not_mem_cons h
    rw [List.cons_append, findDelim, if_neg h_c.symm, ih h_f, Option.map_none, ite_self]

/-- With nothing left, every further call returns the null pointer. -/
theorem strtokCall_none {t : Strtok} (h : t.last = none) (n : ℕ) :
    strtokCall delim t none n = (none, t) := by
  have h_call : strtokS t none delim = (none, t) := by rw [strtokS, h, Option.none_or]
  induction n with
  | zero => exact h_call
  | succ n ih => rw [strtokCall, h_call, ih]

variable {t : Strtok} {str : Option ℕ} {pre post : List UInt8}

/-- A chain of calls on the text `s`. -/
structure ChainOn (delim : UInt8) (pre s post : List UInt8) (t : Strtok) (str : Option ℕ) :
    Prop where
  nul : 0 ∉ s
  mem : t.mem = pre ++ (s ++ 0 :: post)
  start : str.or t.last = some pre.length

/-- The first call of a chain: its piece is the last one, or ends with a delimiter, and the chain
goes on behind that. -/
theorem ChainOn.first {s : List UInt8} (h : ChainOn delim pre s post t str)
    (h_delim : delim ≠ 0) :
    (delim ∉ s ∧ strtokS t str delim = (some pre.length, { t with last := none })) ∨
      ∃ f s' t', s = f ++ delim :: s' ∧ delim ∉ f ∧ 0 ∉ f ∧
        strtokS t str delim = (some pre.length, t') ∧
        ChainOn delim (pre ++ f ++ [0]) s' post t' none := by
  obtain ⟨h_nul, h_mem, h_start⟩ := h
  by_cases h_s : delim ∈ s
  · -- the piece ends at the first delimiter, which becomes a NUL
    obtain ⟨f, s', rfl, h_f⟩ := List.eq_append_cons_of_mem h_s
    obtain ⟨h_nul_f, h_nul_s⟩ := not_or.mp (fun h_or => h_nul (List.mem_append.mpr h_or))
    refine Or.inr ⟨f, s', { mem := pre ++ f ++ [0] ++ (s' ++ 0 :: post)
                            last := some (pre ++ f ++ [0]).length
                            zeroed := (pre.length + f.length) :: t.zeroed },
      rfl, h_f, h_nul_f, ?_, ?_⟩
    · unfold strtokS
      rw [h_start, h_mem]
      dsimp only
      rw [List.drop_left, List.append_assoc f, List.cons_append,
        findDelim_append h_delim h_f h_nul_f]
      simp [Nat.add_assoc]
    · exact ⟨fun h => h_nul_s (List.mem_cons_of_mem _ h), rfl, Option.none_or⟩
  · -- the search ends at the NUL behind the text
    refine Or.inl ⟨h_s, ?_⟩
    unfold strtokS
    rw [h_start, h_mem]
    dsimp only
    rw [List.drop_left, findDelim_append_nul h_s]

/-- **The memory after each call.** -/
theorem ChainOn.mem_call {s : List UInt8} (h : ChainOn delim pre s post t str)
    (h_delim : delim ≠ 0) (n : ℕ) :
    (strtokCall delim t str n).2.mem = pre ++ (passed delim (n + 1) s ++ 0 :: post) := by
  -- the other calls are a chain on the text behind the first piece
  induction n generalizing t str pre s with
  | zero =>
    rw [strtokCall]
    obtain ⟨h_s, h_call⟩ | ⟨f, s', t', rfl, h_f, -, h_call, h_next⟩ := h.first h_delim
    · rw [h_call, passed_of_not_mem h_s]
      exact h.mem
    · rw [h_call, h_next.mem, passed_append h_f, passed]
      simp
  | succ n ih =>
    rw [strtokCall]
    obtain ⟨h_s, h_call⟩ | ⟨f, s', t', rfl, h_f, -, h_call, h_next⟩ := h.first h_delim
    · -- the last piece: the calls behind it find the null pointer
      rw [h_call, strtokCall_none rfl, passed_of_not_mem h_s]
      exact h.mem
    · rw [h_call, ih h_next, passed_append h_f]
      simp

/-- **The pointer that each call returns** is the start of its piece. -/
theorem ChainOn.ptr_call {s : List UInt8} (h : ChainOn delim pre s post t str)
    (h_delim : delim ≠ 0) (n : ℕ) :
    (strtokCall delim t str n).1 = (s.splitOn delim)[n]?.map fun _ =>
      pre.length + (((s.splitOn delim).take n).map fun f => f.length + 1).sum := by
  induction n generalizing t str pre s with
  | zero =>
    rw [strtokCall]
    -- the last piece has no delimiter behind it; any other is cut there
    obtain ⟨h_s, h_call⟩ | ⟨f, s', t', rfl, h_f, -, h_call, -⟩ := h.first h_delim
    · rw [h_call, List.splitOn_eq_singleton h_s]
      rfl
    · rw [h_call, List.splitOn_append_cons_self_of_not_mem h_f]
      rfl
  | succ n ih =>
    rw [strtokCall]
    obtain ⟨h_s, h_call⟩ | ⟨f, s', t', rfl, h_f, -, h_call, h_next⟩ := h.first h_delim
    · rw [h_call, strtokCall_none rfl, List.splitOn_eq_singleton h_s]
      rfl
    · rw [h_call, ih h_next, List.splitOn_append_cons_self_of_not_mem h_f]
      simp [Nat.add_assoc]

/-- **The text at each pointer** is the piece, when the call returns and at any later time. -/
theorem ChainOn.text_call {s : List UInt8} (h : ChainOn delim pre s post t str)
    (h_delim : delim ≠ 0) {i j : ℕ} (h_le : i ≤ j) :
    (strtokCall delim t str i).1.map (cstr (strtokCall delim t str j).2.mem) =
      (s.splitOn delim)[i]? := by
  induction i generalizing t str pre s j with
  | zero =>
    -- the later calls overwrite nothing before the end of the first piece
    rw [h.mem_call h_delim, strtokCall]
    obtain ⟨h_s, h_call⟩ | ⟨f, s', t', rfl, h_f, h_nul, h_call, -⟩ := h.first h_delim
    · rw [h_call, passed_of_not_mem h_s, List.splitOn_eq_singleton h_s, Option.map_some, cstr,
        List.drop_left, text_append_nul h.nul]
      rfl
    · rw [h_call, passed_append h_f, List.splitOn_append_cons_self_of_not_mem h_f,
        Option.map_some, cstr, List.drop_left, List.append_assoc, List.cons_append,
        text_append_nul h_nul]
      rfl
  | succ i ih =>
    obtain ⟨j, rfl⟩ := Nat.exists_eq_add_one_of_ne_zero (Nat.ne_zero_of_lt h_le)
    rw [strtokCall, strtokCall]
    obtain ⟨h_s, h_call⟩ | ⟨f, s', t', rfl, h_f, -, h_call, h_next⟩ := h.first h_delim
    · rw [h_call, strtokCall_none rfl, strtokCall_none rfl, List.splitOn_eq_singleton h_s]
      rfl
    · rw [h_call, ih h_next (Nat.le_of_succ_le_succ h_le),
        List.splitOn_append_cons_self_of_not_mem h_f]
      rfl

end

/-- **The pieces in order.** On every text in every memory the chain of calls that starts with it
returns the pieces between the delimiters, the empty ones too, each from where it lies in the text,
and behind them the null pointer for ever; no call changes a byte other than a delimiter of the
text. -/
theorem strtokCall_splitOn (delim : UInt8) (h_delim : delim ≠ 0) (pre s post : List UInt8)
    (h_nul : 0 ∉ s) (t : Strtok) (h_mem : t.mem = pre ++ (s ++ 0 :: post)) (i j : ℕ)
    (h_le : i ≤ j) :
    (strtokCall delim t (some pre.length) i).1.map
        (cstr (strtokCall delim t (some pre.length) j).2.mem) = (s.splitOn delim)[i]? ∧
      (strtokCall delim t (some pre.length) i).1 = (s.splitOn delim)[i]?.map (fun _ =>
        pre.length + (((s.splitOn delim).take i).map fun f => f.length + 1).sum) ∧
      ∀ k, (strtokCall delim t (some pre.length) j).2.mem[k]? = t.mem[k]? ∨
        pre.length ≤ k ∧ k < pre.length + s.length ∧ t.mem[k]? = some delim ∧
          (strtokCall delim t (some pre.length) j).2.mem[k]? = some 0 := by
  have h_chain : ChainOn delim pre s post t (some pre.length) := ⟨h_nul, h_mem, Option.some_or⟩
  refine ⟨h_chain.text_call h_delim h_le, h_chain.ptr_call h_delim i, fun k => ?_⟩
  rw [h_chain.mem_call h_delim j, h_mem]
  exact passed_between pre s post (j + 1) k

/-- Empty pieces at the start, in the middle and at the end. -/
theorem strtokCall_splitOn_empty :
    let t : Strtok := ⟨[0x2C, 0x41, 0x2C, 0x2C, 0], none, []⟩
    (strtokCall 0x2C t (some 0) 3).1.map (cstr (strtokCall 0x2C t (some 0) 5).2.mem) = some [] ∧
      (strtokCall 0x2C t (some 0) 3).1 = some 4 :=
  have h := strtokCall_splitOn 0x2C (by decide) [] [0x2C, 0x41, 0x2C, 0x2C] [] (by decide)
    ⟨[0x2C, 0x41, 0x2C, 0x2C, 0], none, []⟩ rfl 3 5 (by decide)
  ⟨h.1, h.2.1⟩

end Laureline
