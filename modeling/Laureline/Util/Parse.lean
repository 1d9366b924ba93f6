import Mathlib.Tactic.Common
import Mathlib.Algebra.Group.Nat.Defs
import Mathlib.Data.Nat.Notation

/-!
# Text fields

`parse.c`: hexadecimal and decimal digits, and `strtok_s`. Text lies in a memory
of bytes and ends at the first NUL. `strtokS` keeps its position between calls and
overwrites each delimiter it passes with NUL; the history variable `zeroed`
records where.

What a chain of calls returns depends only on the text from the position on:
`strtokS_rest` says that one call is one `cut` of that text. `Reader` is a program
that fetches one piece after the other and gives up where `strtok_s` returns the
null pointer; run on a memory it returns what it returns on the list of pieces
(`Reader.run_eq`).
-/

namespace Laureline

/-- `parse_hex`. -/
def parseHex (dat : UInt8) : UInt8 :=
  if dat ≥ 0x30 ∧ dat ≤ 0x39 then dat - 0x30
  else if dat ≥ 0x41 ∧ dat ≤ 0x46 then dat - (0x41 - 10)
  else if dat ≥ 0x61 ∧ dat ≤ 0x66 then dat - (0x61 - 10)
  else 0

/-- A decimal digit. -/
def isDigit (c : UInt8) : Bool := 0x30 ≤ c && c ≤ 0x39

/-- `atoi_2dig` on a text; what follows its second character is not read. -/
def atoi2dig : List UInt8 → ℕ
  | c :: d :: _ =>
    if isDigit c ∧ isDigit d then (d - 0x30).toNat + (c - 0x30).toNat * 10 else 0
  | _ => 0

/-- The loop of `atoi_decimal`. -/
def atoiDecimalFrom (ret : ℕ) : List UInt8 → ℕ
  | [] => ret
  | c :: s =>
    if c = 0x2E then ret
    else if !isDigit c then 0
    else atoiDecimalFrom ((ret * 10 + (c - 0x30).toNat) % 2 ^ 32) s

/-- `atoi_decimal`. -/
def atoiDecimal (s : List UInt8) : ℕ := atoiDecimalFrom 0 s

/-! ### `strtok_s` -/

/-- The bytes before the first NUL. -/
def text : List UInt8 → List UInt8
  | [] => []
  | c :: s => if c = 0 then [] else c :: text s

/-- The text at a position of the memory. -/
def cstr (mem : List UInt8) (p : ℕ) : List UInt8 := text (mem.drop p)

/-- The memory, and the static variable of `strtok_s`. -/
structure Strtok where
  mem : List UInt8
  /-- `last`; `none` is the null pointer. -/
  last : Option ℕ
  /-- The positions that were overwritten, newest first. -/
  zeroed : List ℕ

/-- The distance to the first delimiter, if it comes before the first NUL. -/
def findDelim (delim : UInt8) : List UInt8 → Option ℕ
  | [] => none
  | c :: s =>
    if c = 0 then none
    else if c = delim then some 0
    else (findDelim delim s).map (· + 1)

/-- `strtok_s`: the position of the piece, or `none` for the null pointer. -/
def strtokS (t : Strtok) (str : Option ℕ) (delim : UInt8) : Option ℕ × Strtok :=
  match str.or t.last with
  | none => (none, t)
  | some p =>
    match findDelim delim (t.mem.drop p) with
    | some k =>
      (some p,
        { mem := t.mem.set (p + k) 0, last := some (p + k + 1), zeroed := (p + k) :: t.zeroed })
    | none => (some p, { t with last := none })

/-! ### `strtok_s` on the text alone -/

/-- The text up to the first delimiter, and the text after it. -/
def cut (delim : UInt8) : List UInt8 → List UInt8 × Option (List UInt8)
  | [] => ([], none)
  | c :: s => if c = delim then ([], some s) else (c :: (cut delim s).1, (cut delim s).2)

/-- The pieces of a text between the delimiters. -/
def pieces (delim : UInt8) : List UInt8 → List (List UInt8)
  | [] => [[]]
  | c :: s =>
    if c = delim then [] :: pieces delim s
    else
      match pieces delim s with
      | [] => [[c]]
      | f :: fs => (c :: f) :: fs

/-- The text that the next call starts at. -/
def Strtok.rest (t : Strtok) : Option (List UInt8) := t.last.map (cstr t.mem)

theorem text_append_nul {s : List UInt8} (h : 0 ∉ s) (rest : List UInt8) :
    text (s ++ 0 :: rest) = s := by
  induction s with
  | nil => simp [text]
  | cons c s ih =>
    obtain ⟨h_c, h_s⟩ := List.ne_and_not_mem_of_not_mem_cons h
    rw [List.cons_append, text, if_neg h_c.symm, ih h_s]

/-- A text lies in its memory. -/
theorem text_isPrefix (m : List UInt8) : text m <+: m := by
  induction m with
  | nil => exact List.prefix_refl []
  | cons c m ih =>
    rw [text]
    split
    · exact List.nil_prefix
    · exact (List.prefix_cons_inj c).mpr ih

/-- A delimiter lies in the text. -/
theorem findDelim_lt {delim : UInt8} {m : List UInt8} {k : ℕ} (h : findDelim delim m = some k) :
    k < (text m).length := by
  induction m generalizing k with
  | nil => cases h
  | cons c m ih =>
    rw [findDelim] at h
    split at h
    · cases h
    · next hc =>
      rw [text, if_neg hc, List.length_cons]
      split at h
      · obtain rfl := Option.some.inj h
        exact Nat.succ_pos _
      · obtain ⟨k, h_k, rfl⟩ := Option.map_eq_some_iff.mp h
        exact Nat.succ_lt_succ (ih h_k)

/-- A delimiter that is overwritten ends the piece before it. -/
theorem findDelim_some {delim : UInt8} {m : List UInt8} {k : ℕ}
    (h : findDelim delim m = some k) :
    cut delim (text m) = (text (m.set k 0), some (text ((m.set k 0).drop (k + 1)))) := by
  induction m generalizing k with
  | nil => exact absurd h (by simp [findDelim])
  | cons c m ih =>
    unfold findDelim at h
    split at h
    · exact absurd h (by simp)
    · next hc =>
      split at h
      · next hd =>
        -- the delimiter itself: it becomes the end of the text
        obtain rfl := Option.some.inj h
        subst hd
        simp [text, hc, cut]
      · next hd =>
        obtain ⟨k, hk, rfl⟩ := Option.map_eq_some_iff.mp h
        simp [text, hc, cut, hd, ih hk]

theorem findDelim_none {delim : UInt8} {m : List UInt8} (h : findDelim delim m = none) :
    cut delim (text m) = (text m, none) := by
  induction m with
  | nil => rfl
  | cons c m ih =>
    unfold findDelim at h
    split at h
    · next hc => simp [text, hc, cut]
    · next hc =>
      split at h
      · exact absurd h (by simp)
      · next hd => simp [text, hc, cut, hd, ih (Option.map_eq_none_iff.mp h)]

/-- **One call.** On the text `s` it returns the piece before the first delimiter
and goes on after it. -/
theorem strtokS_rest {t : Strtok} (str : Option ℕ) (delim : UInt8) {p : ℕ}
    (h : str.or t.last = some p) :
    ∃ t', strtokS t str delim = (some p, t') ∧
      cstr t'.mem p = (cut delim (cstr t.mem p)).1 ∧
      t'.rest = (cut delim (cstr t.mem p)).2 := by
  unfold strtokS cstr
  rw [h]
  dsimp only
  split
  · next k hk =>
    -- the write lies behind the piece and before the rest
    refine ⟨_, rfl, ?_, ?_⟩
    · rw [findDelim_some hk, List.drop_set, if_neg (by omega), Nat.add_sub_cancel_left]
    · rw [findDelim_some hk, Strtok.rest, Option.map_some, cstr]
      congr 2
      rw [List.drop_set, if_pos (by omega), List.drop_set, if_pos (by omega), List.drop_drop,
        Nat.add_assoc]
  · next hk =>
    refine ⟨_, rfl, ?_, ?_⟩ <;> rw [findDelim_none hk]
    rfl

/-- The pieces of a text, one by one. -/
theorem pieces_eq (delim : UInt8) (s : List UInt8) :
    pieces delim s = (cut delim s).1 :: (cut delim s).2.elim [] (pieces delim) := by
  induction s with
  | nil => rfl
  | cons c s ih =>
    unfold pieces cut
    split
    · rfl
    · rw [ih]

/-! ### Programs that fetch pieces -/

/-- A program that fetches pieces with `strtok_s(NULL, delim)`. -/
inductive Reader (α : Type)
  | ret (a : α)
  | fail
  | next (k : List UInt8 → Reader α)

namespace Reader

variable {α : Type} (delim : UInt8)

/-- The program on a memory. It gives up where `strtok_s` returns the null pointer. -/
def run : Reader α → Strtok → Option α × Strtok
  | ret a, t => (some a, t)
  | fail, t => (none, t)
  | next k, t =>
    match strtokS t none delim with
    | (none, t') => (none, t')
    | (some ptr, t') => (k (cstr t'.mem ptr)).run t'

/-- The program on a list of pieces. -/
def runPieces : Reader α → List (List UInt8) → Option α
  | ret a, _ => some a
  | fail, _ => none
  | next _, [] => none
  | next k, f :: fs => (k f).runPieces fs

theorem runPieces_next {k : List UInt8 → Reader α} {fs : List (List UInt8)} {a : α} :
    (next k).runPieces fs = some a ↔ ∃ f fs', fs = f :: fs' ∧ (k f).runPieces fs' = some a := by
  cases fs with
  | nil => simp [runPieces]
  | cons f fs => simp [runPieces]

theorem runPieces_ret {b : α} {fs : List (List UInt8)} {a : α} :
    (ret b).runPieces fs = some a ↔ b = a := by simp [runPieces]

/-- **The pieces decide.** On a memory the program returns what it returns on the
pieces of the text there. -/
theorem run_eq (r : Reader α) (t : Strtok) :
    (r.run delim t).1 = r.runPieces (t.rest.elim [] (pieces delim)) := by
  induction r generalizing t with
  | ret a => rfl
  | fail => rfl
  | next k ih =>
    unfold run
    cases h : t.last with
    | none => simp [strtokS, h, Strtok.rest, runPieces]
    | some p =>
      -- the first piece by the call, the others by induction from where it stopped
      obtain ⟨t', h_call, h_piece, h_rest⟩ :=
        strtokS_rest (t := t) (p := p) none delim (by simp [h])
      rw [h_call, ih, h_piece, h_rest, Strtok.rest, h, Option.map_some, Option.elim_some,
        pieces_eq, runPieces]

end Reader

end Laureline
