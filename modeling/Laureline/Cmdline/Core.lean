import Laureline.Util.Parse

/-!
# The command line

`cmdline/core.c`: characters from the console are collected in `cl_buf`, and a line is looked
up in `cmd_table` when Enter is pressed. What is printed is left out. Of the commands only
`exit` changes the variables of the editor (`cli_cmd_exit`); one that resets the processor
ends the run.

History variables record where `cl_buf` is written, the lines that are looked up, and the
functions that are called with the rest of the line. A write behind the buffer is recorded,
and changes nothing else here: what lies there is up to the linker, so a run says nothing
about the program from then on.

* `cliFeed_cases` — what one character does;
* `written_lt_iff` — the writes stay in the buffer if and only if no line of 64 characters
  is entered.
-/

namespace Laureline
namespace Cmdline

/-- The bytes of an ASCII text. -/
def ascii (s : String) : List UInt8 := s.toList.map fun c => UInt8.ofNat c.toNat

/-- `tolower`. -/
def toLower (c : UInt8) : UInt8 := if 0x41 ≤ c ∧ c ≤ 0x5A then c + 0x20 else c

/-- `strcasecmp` finds no difference. -/
def strcaseEq (s t : List UInt8) : Bool := s.map toLower == t.map toLower

/-- The functions in `cmd_table`. -/
inductive Command
  | cliDefaults
  | cliCmdExit
  | cliCmdFsnum
  | cliCmdHelp
  | cliInfo
  | cliSave
  | cliCmdSet
  | cliUptime
  | cliVersion
deriving DecidableEq, Repr

/-- `cmd_table`. -/
def cmdTable : List (List UInt8 × Command) :=
  [(ascii "defaults", .cliDefaults), (ascii "exit", .cliCmdExit), (ascii "fsnum", .cliCmdFsnum),
    (ascii "help", .cliCmdHelp), (ascii "info", .cliInfo), (ascii "save", .cliSave),
    (ascii "set", .cliCmdSet), (ascii "uptime", .cliUptime), (ascii "version", .cliVersion)]

/-- The function of a command. -/
def lookup (cmd : List UInt8) : Option Command :=
  (cmdTable.find? fun entry => strcaseEq cmd entry.1).map Prod.snd

/-- `sizeof(cl_buf)`. -/
abbrev clBufSize : ℕ := 64

/-- The variables of `core.c`. -/
structure Cli where
  clEnabled : Bool
  clBuf : Vector UInt8 clBufSize
  clCount : ℕ
  /-- The indices at which `cl_buf` has been written. -/
  written : List ℕ
  /-- The lines that have been looked up. -/
  lookups : List (List UInt8)
  /-- The functions that have been called, each with the rest of its line. -/
  calls : List (Command × List UInt8)
deriving DecidableEq

namespace Cli

/-- Power-up; `main` sets `cl_enabled`. -/
def powerUp (clEnabled : Bool) : Cli := ⟨clEnabled, Vector.replicate clBufSize 0, 0, [], [], []⟩

/-- `cl_buf[i] = c`. -/
def store (s : Cli) (i : ℕ) (c : UInt8) : Cli :=
  { s with clBuf := s.clBuf.setIfInBounds i c, written := s.written ++ [i] }

/-- The text in `cl_buf`. -/
def text (s : Cli) : List UInt8 := cstr s.clBuf.toList 0

/-- `cli_prompt`. -/
def prompt (s : Cli) : Cli := { s with clCount := 0, clEnabled := true }

/-- `cli_cmd_exit`. -/
def cmdExit (s : Cli) : Cli := { s with clEnabled := false }

/-- The line is looked up, and its function called with the rest of it. -/
def dispatch (s : Cli) : Cli :=
  let s := { s with lookups := s.lookups ++ [s.text] }
  let (cmd, t) := strtokS ⟨s.clBuf.toList, none, []⟩ (some 0) 0x20
  let s := { s with written := s.written ++ t.zeroed }
  match lookup (cmd.elim [] (cstr t.mem)) with
  | some func =>
    -- the rest of the command line
    let (rest, t) := strtokS t none 0
    let s := { s with calls := s.calls ++ [(func, rest.elim [] (cstr t.mem))] }
    if func = .cliCmdExit then s.cmdExit else s
  | none => s

/-- `memset(cl_buf, 0, sizeof(cl_buf))`. -/
def clear (s : Cli) : Cli :=
  { s with
    clBuf := Vector.replicate clBufSize 0
    written := s.written ++ List.range clBufSize }

/-- Enter is pressed on a line. -/
def enter (s : Cli) : Cli := (s.store s.clCount 0).dispatch.clear

/-- The end of the branch for CR and LF. -/
def afterEnter (s : Cli) (c : UInt8) : Cli := (if s.clEnabled then s.prompt else s).store 0 c

end Cli

/-- `cli_feed`. -/
def cliFeed (s : Cli) (c : UInt8) : Cli :=
  if s.clEnabled = false ∧ c ≠ 0x0D ∧ c ≠ 0x0A then s
  else
    let s := { s with clEnabled := true }
    if c = 0x09 ∨ c = 0x3F then
      -- tab completion
      s
    else if s.clCount = 0 ∧ c = 4 then s.cmdExit
    else if c = 12 then s.prompt
    else if c = 0x0A ∨ c = 0x0D then
      if s.clCount ≠ 0 then s.enter.afterEnter c
      else if c = 0x0A ∧ s.clBuf[0] = 0x0D then
        -- "Ignore \n after \r"
        s
      else s.afterEnter c
    else if c = 8 ∨ c = 127 then
      if s.clCount ≠ 0 then { s.store (s.clCount - 1) 0 with clCount := s.clCount - 1 } else s
    else if s.clCount < clBufSize ∧ 32 ≤ c ∧ c ≤ 126 then
      if s.clCount = 0 ∧ c = 32 then s
      else { s.store s.clCount c with clCount := s.clCount + 1 }
    else s

/-- The characters of a console, one after the other. -/
def Cli.run (s : Cli) (cs : List UInt8) : Cli := cs.foldl cliFeed s

/-! ### One character -/

/-- Enter. -/
def IsEnter (c : UInt8) : Prop := c = 0x0D ∨ c = 0x0A

instance (c : UInt8) : Decidable (IsEnter c) := inferInstanceAs (Decidable (_ ∨ _))

/-- A character that goes into the line; `?` does not. -/
def Printable (c : UInt8) : Prop := 32 ≤ c ∧ c ≤ 126 ∧ c ≠ 0x3F

instance (c : UInt8) : Decidable (Printable c) := inferInstanceAs (Decidable (_ ∧ _ ∧ _))

theorem Printable.not_control {c : UInt8} (h : Printable c) :
    ¬ IsEnter c ∧ c ≠ 4 ∧ c ≠ 12 ∧ ¬ (c = 8 ∨ c = 127) := by
  refine ⟨?_, ?_, ?_, ?_⟩
  · rintro (rfl | rfl) <;> exact absurd h (by decide)
  · rintro rfl; exact absurd h (by decide)
  · rintro rfl; exact absurd h (by decide)
  · rintro (rfl | rfl) <;> exact absurd h (by decide)

/-- What a character can do. -/
inductive FeedCase (s : Cli) (c : UInt8) : Cli → Prop
  | ignored (h_off : s.clEnabled = false) (h_key : ¬ IsEnter c) : FeedCase s c s
  | enter (h_key : IsEnter c) (h_line : s.clCount ≠ 0) :
      FeedCase s c ({ s with clEnabled := true }.enter.afterEnter c)
  | blank (h_key : IsEnter c) (h_empty : s.clCount = 0) :
      FeedCase s c ({ s with clEnabled := true }.prompt.store 0 c)
  | skipped (h_key : c = 0x0A) (h_empty : s.clCount = 0) :
      FeedCase s c { s with clEnabled := true }
  | eof (h_on : s.clEnabled = true) (h_key : c = 4) (h_empty : s.clCount = 0) :
      FeedCase s c s.cmdExit
  | formFeed (h_on : s.clEnabled = true) (h_key : c = 12) : FeedCase s c s.prompt
  | backspace (h_on : s.clEnabled = true) (h_key : c = 8 ∨ c = 127) (h_line : s.clCount ≠ 0) :
      FeedCase s c { s.store (s.clCount - 1) 0 with clCount := s.clCount - 1 }
  | append (h_on : s.clEnabled = true) (h_key : Printable c) (h_room : s.clCount < clBufSize)
      (h_space : ¬ (s.clCount = 0 ∧ c = 32)) :
      FeedCase s c { s.store s.clCount c with clCount := s.clCount + 1 }
  | unused (h_on : s.clEnabled = true) (h_key : ¬ IsEnter c) (h_clear : c ≠ 12)
      (h_eof : c = 4 → s.clCount ≠ 0) (h_back : c = 8 ∨ c = 127 → s.clCount = 0)
      (h_print : Printable c → s.clCount = 0 ∧ c = 32 ∨ clBufSize ≤ s.clCount) :
      FeedCase s c s

/-- **One character.** -/
theorem cliFeed_case (s : Cli) (c : UInt8) : FeedCase s c (cliFeed s c) := by
  unfold cliFeed
  by_cases h_off : s.clEnabled = false ∧ c ≠ 0x0D ∧ c ≠ 0x0A
  · rw [if_pos h_off]
    exact .ignored h_off.1 (not_or.mpr h_off.2)
  rw [if_neg h_off]
  dsimp only
  by_cases h_key : IsEnter c
  · -- Enter is none of the keys before it
    have h_tab : ¬ (c = 0x09 ∨ c = 0x3F) := by rcases h_key with rfl | rfl <;> decide
    have h_four : c ≠ 4 := by rcases h_key with rfl | rfl <;> decide
    have h_clear : c ≠ 12 := by rcases h_key with rfl | rfl <;> decide
    rw [if_neg h_tab, if_neg (fun h => h_four h.2), if_neg h_clear, if_pos h_key.symm]
    split_ifs with h_line h_skip
    · exact .enter h_key h_line
    · exact .skipped h_skip.1 (not_not.mp h_line)
    · exact .blank h_key (not_not.mp h_line)
  · have h_on : s.clEnabled = true := by
      by_contra h
      exact h_off ⟨Bool.eq_false_iff.mpr h, not_or.mp h_key⟩
    have h_same : { s with clEnabled := true } = s := by rw [← h_on]
    simp only [h_same]
    rw [if_neg (show ¬ (c = 0x0A ∨ c = 0x0D) from fun h => h_key h.symm)]
    split_ifs with h_tab h_eof h_clear h_back h_line h_print h_space
    · rcases h_tab with rfl | rfl <;>
        exact .unused h_on h_key (by decide) (fun h => absurd h (by decide))
          (fun h => absurd h (by decide)) (fun h => absurd h (by decide))
    · exact .eof h_on h_eof.2 h_eof.1
    · exact .formFeed h_on h_clear
    · exact .backspace h_on h_back h_line
    · refine .unused h_on h_key h_clear (fun h h' => h_eof ⟨h', h⟩) (fun _ => not_not.mp h_line) ?_
      rcases h_back with rfl | rfl <;> exact fun h => absurd h (by decide)
    · exact .unused h_on h_key h_clear (fun h h' => h_eof ⟨h', h⟩)
        (fun h => absurd h h_back) (fun _ => Or.inl h_space)
    · exact .append h_on ⟨h_print.2.1, h_print.2.2, fun h => h_tab (Or.inr h)⟩ h_print.1 h_space
    · refine .unused h_on h_key h_clear (fun h h' => h_eof ⟨h', h⟩) (fun h => absurd h h_back) ?_
      exact fun h => Or.inr (Nat.not_lt.mp fun h_room => h_print ⟨h_room, h.1, h.2.1⟩)

/-! ### Where the buffer is written -/

/-- A line has no NUL. -/
theorem findDelim_nul (m : List UInt8) : findDelim 0 m = none := by
  induction m with
  | nil => rfl
  | cons c m ih =>
    unfold findDelim
    split_ifs
    · rfl
    · rw [ih, Option.map_none]

/-- `strtok_s` writes into the memory. -/
theorem strtokS_zeroed {t t' : Strtok} {str p : Option ℕ} {delim : UInt8}
    (h : strtokS t str delim = (p, t')) {i : ℕ} (hi : i ∈ t'.zeroed) :
    i ∈ t.zeroed ∨ i < t.mem.length := by
  unfold strtokS at h
  split at h
  -- no string to go on with
  · obtain ⟨-, rfl⟩ := Prod.mk.inj h
    exact Or.inl hi
  · next p _ =>
    split at h
    · next k hk =>
      -- the delimiter that was found is overwritten
      obtain ⟨-, rfl⟩ := Prod.mk.inj h
      have h_lt := Nat.lt_of_lt_of_le (findDelim_lt hk) (text_isPrefix _).length_le
      rw [List.length_drop] at h_lt
      rcases List.mem_cons.mp hi with rfl | hi
      · exact Or.inr (by omega)
      · exact Or.inl hi
    · obtain ⟨-, rfl⟩ := Prod.mk.inj h
      exact Or.inl hi

namespace Cli

@[simp] theorem store_written (s : Cli) (i : ℕ) (c : UInt8) :
    (s.store i c).written = s.written ++ [i] := rfl

@[simp] theorem store_clCount (s : Cli) (i : ℕ) (c : UInt8) : (s.store i c).clCount = s.clCount :=
  rfl

/-- The line that is looked up, and the pieces that `strtok_s` makes of it. -/
theorem dispatch_eq (s : Cli) :
    ∃ zeroed, (∀ i ∈ zeroed, i < clBufSize) ∧
      let func := lookup (cut 0x20 s.text).1
      s.dispatch = { s with
        clEnabled := s.clEnabled && func != some .cliCmdExit
        written := s.written ++ zeroed
        lookups := s.lookups ++ [s.text]
        calls := s.calls ++
          func.toList.map fun func => (func, (cut 0x20 s.text).2.getD []) } := by
  obtain ⟨t, h_call, h_cmd, h_rest⟩ :=
    strtokS_rest (t := ⟨s.clBuf.toList, none, []⟩) (some 0) 0x20 rfl
  refine ⟨t.zeroed, fun i hi => ?_, ?_⟩
  · rcases strtokS_zeroed h_call hi with h | h
    · exact absurd h List.not_mem_nil
    · rwa [Vector.length_toList] at h
  · -- the rest of the line is what `strtok_s` would go on with
    have h_arg : (strtokS t none 0).1.elim [] (cstr (strtokS t none 0).2.mem) =
        (cut 0x20 s.text).2.getD [] := by
      rw [text, ← h_rest, Strtok.rest, strtokS]
      cases t.last with
      | none => rfl
      | some p => simp [findDelim_nul]
    simp only [dispatch, h_call, Option.elim_some, h_cmd, h_arg]
    rw [text]
    cases lookup (cut 0x20 (cstr s.clBuf.toList 0)).1 with
    | none => simp
    | some func => by_cases h : func = .cliCmdExit <;> simp [h, cmdExit]

/-- The line that Enter looks up. -/
def line (s : Cli) : List UInt8 := (s.store s.clCount 0).text

/-- What Enter does to a line. -/
theorem enter_eq (s : Cli) :
    ∃ zeroed, (∀ i ∈ zeroed, i < clBufSize) ∧
      let func := lookup (cut 0x20 s.line).1
      s.enter = { s with
        clEnabled := s.clEnabled && func != some .cliCmdExit
        clBuf := Vector.replicate clBufSize 0
        written := s.written ++ (s.clCount :: (zeroed ++ List.range clBufSize))
        lookups := s.lookups ++ [s.line]
        calls := s.calls ++ func.toList.map fun func => (func, (cut 0x20 s.line).2.getD []) } := by
  obtain ⟨zeroed, h_zeroed, h_dispatch⟩ := (s.store s.clCount 0).dispatch_eq
  refine ⟨zeroed, h_zeroed, ?_⟩
  dsimp only at h_dispatch ⊢
  rw [enter, h_dispatch]
  simp [clear, store, line]

/-- One character: it writes in the buffer, unless it enters a line that fills it. -/
theorem cliFeed_written {s : Cli} (h : s.clCount ≤ clBufSize) (c : UInt8) :
    ∃ ws, (cliFeed s c).written = s.written ++ ws ∧ (cliFeed s c).clCount ≤ clBufSize ∧
      ((∀ i ∈ ws, i < clBufSize) ↔ (IsEnter c → s.clCount ≠ clBufSize)) := by
  have h_pos : 0 < clBufSize := by decide
  -- a character that is not Enter has nothing to show but its writes
  have h_other : ∀ ws : List ℕ, (∀ i ∈ ws, i < clBufSize) → ¬ IsEnter c →
      ((∀ i ∈ ws, i < clBufSize) ↔ (IsEnter c → s.clCount ≠ clBufSize)) :=
    fun ws h_ws h_key => iff_of_true h_ws fun h => absurd h h_key
  have h_case := cliFeed_case s c
  generalize cliFeed s c = s' at h_case ⊢
  cases h_case with
  | ignored h_off h_key => exact ⟨[], by simp, h, h_other [] (by simp) h_key⟩
  | unused h_on h_key => exact ⟨[], by simp, h, h_other [] (by simp) h_key⟩
  | eof h_on h_key h_empty =>
    exact ⟨[], by simp [cmdExit], h, h_other [] (by simp) (by rw [h_key]; decide)⟩
  | formFeed h_on h_key =>
    exact ⟨[], by simp [prompt], Nat.zero_le _, h_other [] (by simp) (by rw [h_key]; decide)⟩
  | skipped h_key h_empty =>
    refine ⟨[], by simp, h, iff_of_true (by simp) fun _ => ?_⟩
    rw [h_empty]; exact Nat.ne_of_lt h_pos
  | blank h_key h_empty =>
    refine ⟨[0], rfl, Nat.zero_le _, iff_of_true (by simp) fun _ => ?_⟩
    rw [h_empty]; exact Nat.ne_of_lt h_pos
  | backspace h_on h_key h_line =>
    refine ⟨[s.clCount - 1], rfl, Nat.le_trans (Nat.sub_le _ _) h, h_other _ ?_ ?_⟩
    · simp only [List.mem_singleton, forall_eq]; omega
    · rcases h_key with rfl | rfl <;> decide
  | append h_on h_key h_room h_space =>
    refine ⟨[s.clCount], rfl, h_room, h_other _ (by simpa using h_room) ?_⟩
    rintro (rfl | rfl) <;> exact absurd h_key (by decide)
  | enter h_key h_line =>
    obtain ⟨zeroed, h_zeroed, h_enter⟩ := enter_eq { s with clEnabled := true }
    refine ⟨s.clCount :: (zeroed ++ List.range clBufSize) ++ [0], ?_, ?_, ?_⟩
    · rw [h_enter]; simp only [afterEnter]; split <;> simp [prompt]
    · rw [h_enter]; simp only [afterEnter]; split
      · exact Nat.zero_le _
      · exact h
    · -- of its writes only the NUL behind the line can be outside
      have h_inside : ∀ i ∈ zeroed ++ List.range clBufSize ++ [0], i < clBufSize := by
        intro i hi
        simp only [List.mem_append, List.mem_range, List.mem_singleton] at hi
        rcases hi with (hi | hi) | rfl
        · exact h_zeroed i hi
        · exact hi
        · exact h_pos
      rw [List.cons_append, List.forall_mem_cons, iff_of_true (b := True) h_inside trivial]
      constructor
      · exact fun h_lt _ => Nat.ne_of_lt h_lt.1
      · exact fun h_ne => ⟨Nat.lt_of_le_of_ne h (h_ne h_key), trivial⟩

theorem run_cons (s : Cli) (c : UInt8) (cs : List UInt8) : s.run (c :: cs) = (cliFeed s c).run cs :=
  rfl

/-- **Writes of a run.** -/
theorem run_written {s : Cli} (h : s.clCount ≤ clBufSize) (cs : List UInt8) :
    ∃ ws, (s.run cs).written = s.written ++ ws ∧
      ((∀ i ∈ ws, i < clBufSize) ↔
        ∀ pre c post, cs = pre ++ c :: post → IsEnter c → (s.run pre).clCount ≠ clBufSize) := by
  induction cs generalizing s with
  | nil =>
    refine ⟨[], by simp [run], iff_of_true (by simp) ?_⟩
    intro pre c post h_nil
    exact absurd h_nil (by simp)
  | cons c cs ih =>
    -- the first character writes inside the buffer unless it ends a full line
    obtain ⟨ws, h_ws, h_count, h_first⟩ := cliFeed_written h c
    obtain ⟨ws', h_ws', h_rest⟩ := ih h_count
    refine ⟨ws ++ ws', ?_, ?_⟩
    · rw [run_cons, h_ws', h_ws, List.append_assoc]
    · rw [List.forall_mem_append, h_first, h_rest]
      constructor
      -- an Enter of the input is the first character or one of the rest
      · rintro ⟨h_now, h_later⟩ (_ | ⟨c', pre⟩) d post h_eq
        · obtain ⟨rfl, -⟩ := List.cons.inj h_eq
          exact h_now
        · obtain ⟨rfl, h_tail⟩ := List.cons.inj h_eq
          exact h_later pre d post h_tail
      · intro h_all
        exact ⟨h_all [] c cs rfl,
          fun pre d post h_eq => h_all (c :: pre) d post (by rw [h_eq]; rfl)⟩

/-- **The writes of `cl_buf`.** For every sequence of characters after power-up, they stay in
the buffer if and only if Enter is never pressed on a line of 64 characters. -/
theorem written_lt_iff (clEnabled : Bool) (cs : List UInt8) :
    (∀ i ∈ ((powerUp clEnabled).run cs).written, i < clBufSize) ↔
      ∀ pre c post, cs = pre ++ c :: post → IsEnter c →
        ((powerUp clEnabled).run pre).clCount ≠ clBufSize := by
  obtain ⟨ws, h_ws, h_iff⟩ := run_written (s := powerUp clEnabled) (Nat.zero_le _) cs
  rw [h_ws]
  exact h_iff

/-- A line of 64 characters. -/
theorem written_sixtyFour :
    ¬ ∀ clEnabled cs, ∀ i ∈ ((powerUp clEnabled).run cs).written, i < clBufSize := by
  intro h_all
  exact absurd (h_all true (List.replicate 64 0x61 ++ [0x0D]) 64 (by decide +kernel)) (by decide)

end Cli

end Cmdline
end Laureline
