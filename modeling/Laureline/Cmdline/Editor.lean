import Laureline.Cmdline.Core
import Mathlib.Data.List.Induction

/-!
# The line editor

`Editor` is what the console is meant to be: a line of at most 63 characters, whether commands
are accepted, and the lines that were entered. `cli_feed` differs from it in two ways. The
buffer takes a 64th character, and `exit` leaves the length of its line behind, so the next
CR or LF, be it the LF of the exit line itself, enters a line again.

* `Agrees` relates the two; `Agrees.feed` is one character;
* `run_agrees` — in every run without these two, the lines looked up and the calls are those
  of the editor;
* `run_typed` — a line of printable characters, typed at a prompt;
* `stale_line` — what Enter does after `exit`.
-/

namespace Laureline
namespace Cmdline

/-- A line leaves command mode: its first word is `exit`. -/
def isExit (line : List UInt8) : Bool := strcaseEq (cut 0x20 line).1 (ascii "exit")

/-- The longest line. -/
abbrev maxLine : ℕ := 63

/-- The line editor. -/
structure Editor where
  line : List UInt8
  enabled : Bool
  /-- The last character was the CR of an exit line. -/
  exitCr : Bool
  /-- The lines that have been entered. -/
  lookups : List (List UInt8)

namespace Editor

/-- A prompt has just been printed. -/
def start : Editor := ⟨[], true, false, []⟩

/-- One character. -/
def feed (e : Editor) (c : UInt8) : Editor :=
  if e.enabled = false then
    -- only Enter is heard, unless it completes the exit line
    { e with enabled := IsEnter c ∧ ¬ (c = 0x0A ∧ e.exitCr), exitCr := false }
  else if IsEnter c then
    if e.line = [] then e
    else
      { line := []
        enabled := !isExit e.line
        exitCr := isExit e.line ∧ c = 0x0D
        lookups := e.lookups ++ [e.line] }
  else if c = 4 ∧ e.line = [] then { e with enabled := false, exitCr := false }
  else if c = 12 then { e with line := [] }
  else if c = 8 ∨ c = 127 then { e with line := e.line.dropLast }
  else if Printable c ∧ ¬ (c = 32 ∧ e.line = []) ∧ e.line.length < maxLine then
    { e with line := e.line ++ [c] }
  else e

/-- The characters, one after the other. -/
def run (e : Editor) (cs : List UInt8) : Editor := cs.foldl feed e

end Editor

/-- The calls for the lines that are looked up. -/
def callOf (line : List UInt8) : Option (Command × List UInt8) :=
  (lookup (cut 0x20 line).1).map fun func => (func, (cut 0x20 line).2.getD [])

/-- A character that `cli_feed` treats as the editor does. -/
def Allowed (s : Cli) (c : UInt8) : Prop :=
  (s.clEnabled = true → Printable c → s.clCount < maxLine) ∧
    (s.clEnabled = false → IsEnter c → s.clCount = 0)

instance (s : Cli) (c : UInt8) : Decidable (Allowed s c) := inferInstanceAs (Decidable (_ ∧ _))

/-- Every character of a run is, in the state that it is fed in. -/
def AllAllowed (s : Cli) : List UInt8 → Prop
  | [] => True
  | c :: cs => Allowed s c ∧ AllAllowed (cliFeed s c) cs

instance AllAllowed.decide : ∀ (s : Cli) (cs : List UInt8), Decidable (AllAllowed s cs)
  | _, [] => isTrue trivial
  | s, c :: cs =>
    have := AllAllowed.decide (cliFeed s c) cs
    inferInstanceAs (Decidable (_ ∧ _))

/-- The variables of `core.c` hold what the editor has. -/
structure Agrees (base : Cli) (s : Cli) (e : Editor) : Prop where
  enabled : s.clEnabled = e.enabled
  count : e.enabled = true → s.clCount = e.line.length
  short : e.line.length ≤ maxLine
  stored : e.enabled = true → s.clBuf.toList.take e.line.length = e.line
  printable : ∀ c ∈ e.line, Printable c
  idle : e.enabled = false → e.line = [] ∧ (s.clCount = 0 → e.exitCr = false)
  lookups : s.lookups = base.lookups ++ e.lookups
  calls : s.calls = base.calls ++ e.lookups.filterMap callOf

/-! ### Lookups -/

/-- Only one name is that of `cli_cmd_exit`. -/
theorem lookup_exit (line : List UInt8) :
    lookup (cut 0x20 line).1 = some .cliCmdExit ↔ isExit line = true := by
  unfold lookup isExit
  constructor
  · intro h
    obtain ⟨⟨name, func⟩, h_find, h_func⟩ := Option.map_eq_some_iff.mp h
    have h_mem := List.mem_of_find?_eq_some h_find
    have h_name := List.find?_some h_find
    -- the other entries have other functions
    have h_entry : ∀ entry ∈ cmdTable, entry.2 = .cliCmdExit → entry.1 = ascii "exit" := by decide
    rwa [h_entry _ h_mem h_func] at h_name
  · intro h
    have h_lower : (cut 0x20 line).1.map toLower = (ascii "exit").map toLower := beq_iff_eq.mp h
    have h_find : (cmdTable.find? fun entry =>
        (ascii "exit").map toLower == entry.1.map toLower).map Prod.snd = some .cliCmdExit := by
      decide
    simp only [strcaseEq, h_lower]
    exact h_find

/-- A NUL behind the line ends the text. -/
theorem text_set_nul {l line : List UInt8} (h : l.take line.length = line)
    (h_nul : ∀ c ∈ line, c ≠ 0) (h_lt : line.length < l.length) :
    Laureline.text (l.set line.length 0) = line := by
  induction line generalizing l with
  | nil =>
    cases l with
    | nil => exact absurd h_lt (Nat.lt_irrefl 0)
    | cons d l => rfl
  | cons c line ih =>
    cases l with
    | nil => exact absurd h_lt (Nat.not_lt_zero _)
    | cons d l =>
      obtain ⟨rfl, h_tail⟩ := List.cons.inj h
      rw [List.length_cons, List.set_cons_succ, Laureline.text, if_neg (h_nul d List.mem_cons_self),
        ih h_tail (fun c hc => h_nul c (List.mem_cons_of_mem d hc)) (Nat.lt_of_succ_lt_succ h_lt)]

namespace Agrees

variable {base s : Cli} {e : Editor} {c : UInt8}

/-- Enter looks up the line of the editor. -/
theorem line_eq (h : Agrees base s e) (h_on : e.enabled = true) : s.line = e.line := by
  have h_nul : ∀ c ∈ e.line, c ≠ 0 := by
    rintro c hc rfl
    exact absurd (h.printable 0 hc) (by decide)
  have h_size : maxLine < clBufSize := by decide
  have h_room : e.line.length < s.clBuf.toList.length := by
    rw [Vector.length_toList]; exact Nat.lt_of_le_of_lt h.short h_size
  rw [Cli.line, Cli.text, Cli.store, cstr, List.drop_zero, h.count h_on,
    Vector.toList_setIfInBounds]
  exact text_set_nul (h.stored h_on) h_nul h_room

/-- The line is empty when its length is. -/
theorem line_nil_iff (h : Agrees base s e) (h_on : e.enabled = true) :
    e.line = [] ↔ s.clCount = 0 := by
  rw [h.count h_on, List.length_eq_zero_iff]

/-- With an empty line, the buffer does not matter. -/
theorem of_empty {s' : Cli} {e' : Editor} (h_line : e'.line = [])
    (h_enabled : s'.clEnabled = e'.enabled) (h_count : e'.enabled = true → s'.clCount = 0)
    (h_idle : e'.enabled = false → s'.clCount = 0 → e'.exitCr = false)
    (h_lookups : s'.lookups = base.lookups ++ e'.lookups)
    (h_calls : s'.calls = base.calls ++ e'.lookups.filterMap callOf) : Agrees base s' e' where
  enabled := h_enabled
  count h := by rw [h_line]; exact h_count h
  short := by rw [h_line]; exact Nat.zero_le _
  stored _ := by rw [h_line]; rfl
  printable := by rw [h_line]; exact fun c hc => absurd hc List.not_mem_nil
  idle h := ⟨h_line, h_idle h⟩
  lookups := h_lookups
  calls := h_calls

/-- Enter on a line. -/
theorem enter (h : Agrees base s e) (h_key : IsEnter c) (h_line : s.clCount ≠ 0)
    (h_allowed : Allowed s c) :
    Agrees base ({ s with clEnabled := true }.enter.afterEnter c) (e.feed c) := by
  have h_on : s.clEnabled = true := by
    by_contra h_off
    exact h_line (h_allowed.2 (Bool.eq_false_iff.mpr h_off) h_key)
  have h_on' : e.enabled = true := h.enabled ▸ h_on
  have h_ne : e.line ≠ [] := fun h_nil => h_line ((h.line_nil_iff h_on').mp h_nil)
  have h_same : { s with clEnabled := true } = s := by rw [← h_on]
  obtain ⟨zeroed, -, h_enter⟩ := s.enter_eq
  rw [h.line_eq h_on', h_on] at h_enter
  have h_exit : (true && lookup (cut 0x20 e.line).1 != some .cliCmdExit) = !isExit e.line := by
    rw [Bool.true_and, Bool.eq_iff_iff, bne_iff_ne, ne_eq, lookup_exit, Bool.not_eq_true',
      Bool.not_eq_true]
  dsimp only at h_enter
  rw [h_same, h_enter, h_exit]
  have h_feed : e.feed c =
      { line := []
        enabled := !isExit e.line
        exitCr := isExit e.line ∧ c = 0x0D
        lookups := e.lookups ++ [e.line] } := by
    rw [Editor.feed, if_neg (by rw [h_on']; decide), if_pos h_key, if_neg h_ne]
  rw [h_feed]
  have h_calls : s.calls ++ (lookup (cut 0x20 e.line).1).toList.map
        (fun func => (func, (cut 0x20 e.line).2.getD [])) =
      base.calls ++ (e.lookups ++ [e.line]).filterMap callOf := by
    rw [h.calls, List.filterMap_append, List.append_assoc]
    congr 2
    simp only [callOf, List.filterMap_cons, List.filterMap_nil]
    cases lookup (cut 0x20 e.line).1 <;> rfl
  cases isExit e.line with
  | true =>
    -- the length of the exit line stays
    refine .of_empty rfl rfl nofun (fun _ h => absurd h h_line) ?_ h_calls
    dsimp only [Cli.afterEnter]
    rw [← List.append_assoc, ← h.lookups]
    rfl
  | false =>
    refine .of_empty rfl rfl (fun _ => rfl) nofun ?_ h_calls
    dsimp only [Cli.afterEnter]
    rw [← List.append_assoc, ← h.lookups]
    rfl

/-- Enter on an empty line. -/
theorem blank (h : Agrees base s e) (h_key : IsEnter c) (h_empty : s.clCount = 0) {s' : Cli}
    (h_enabled : s'.clEnabled = true) (h_count : s'.clCount = 0)
    (h_lookups : s'.lookups = s.lookups) (h_calls : s'.calls = s.calls) :
    Agrees base s' (e.feed c) := by
  -- an empty line is not looked up, whether the editor was on or off
  have h_feed : ∃ b, e.feed c = { e with enabled := true, exitCr := b } ∧ e.line = [] := by
    cases h_off : e.enabled with
    | false =>
      obtain ⟨h_line, h_cr⟩ := h.idle h_off
      refine ⟨false, ?_, h_line⟩
      simp [Editor.feed, h_off, h_key, h_cr h_empty]
    | true =>
      have h_line := (h.line_nil_iff h_off).mpr h_empty
      refine ⟨e.exitCr, ?_, h_line⟩
      rw [Editor.feed, if_neg (by rw [h_off]; decide), if_pos h_key, if_pos h_line, ← h_off]
  obtain ⟨b, h_feed, h_line⟩ := h_feed
  rw [h_feed]
  exact .of_empty h_line h_enabled (fun _ => h_count) nofun
    (h_lookups.trans h.lookups) (h_calls.trans h.calls)

/-- The other keys of an editor that is enabled. -/
theorem feed_of_on (h_on : e.enabled = true) (h_key : ¬ IsEnter c) :
    e.feed c =
      if c = 4 ∧ e.line = [] then { e with enabled := false, exitCr := false }
      else if c = 12 then { e with line := [] }
      else if c = 8 ∨ c = 127 then { e with line := e.line.dropLast }
      else if Printable c ∧ ¬ (c = 32 ∧ e.line = []) ∧ e.line.length < maxLine then
        { e with line := e.line ++ [c] }
      else e := by
  rw [Editor.feed, if_neg (by rw [h_on]; decide), if_neg h_key]

/-- A printable character for which there is room. -/
theorem feed_of_printable (h_on : e.enabled = true) (h_key : Printable c)
    (h_word : ¬ (c = 32 ∧ e.line = [])) (h_less : e.line.length < maxLine) :
    e.feed c = { e with line := e.line ++ [c] } := by
  obtain ⟨h_enter, h_eof, h_clear, h_back⟩ := h_key.not_control
  rw [feed_of_on h_on h_enter, if_neg (fun h => h_eof h.1), if_neg h_clear, if_neg h_back,
    if_pos ⟨h_key, h_word, h_less⟩]

/-- **One character.** -/
theorem feed (h : Agrees base s e) (h_allowed : Allowed s c) :
    Agrees base (cliFeed s c) (e.feed c) := by
  have h_case := cliFeed_case s c
  generalize cliFeed s c = s' at h_case ⊢
  cases h_case with
  | ignored h_off h_key =>
    -- the CR of an exit line is forgotten
    have h_off' : e.enabled = false := h.enabled ▸ h_off
    have h_feed : e.feed c = { e with exitCr := false } := by
      simp [Editor.feed, h_off', h_key]
    rw [h_feed]
    exact { h with idle := fun _ => ⟨(h.idle h_off').1, fun _ => rfl⟩ }
  | enter h_key h_line => exact h.enter h_key h_line h_allowed
  | blank h_key h_empty => exact h.blank h_key h_empty rfl rfl rfl rfl
  | skipped h_key h_empty => exact h.blank (Or.inr h_key) h_empty rfl h_empty rfl rfl
  | eof h_on h_key h_empty =>
    -- Ctrl-D at the start of a line turns commands off
    have h_on' : e.enabled = true := h.enabled ▸ h_on
    have h_line := (h.line_nil_iff h_on').mpr h_empty
    rw [feed_of_on h_on' (by rw [h_key]; decide), if_pos ⟨h_key, h_line⟩]
    exact .of_empty h_line rfl nofun (fun _ _ => rfl) h.lookups h.calls
  | formFeed h_on h_key =>
    have h_on' : e.enabled = true := h.enabled ▸ h_on
    have h_four : ¬ (c = 4 ∧ e.line = []) := by rw [h_key]; exact fun h => absurd h.1 (by decide)
    rw [feed_of_on h_on' (by rw [h_key]; decide), if_neg h_four, if_pos h_key]
    exact .of_empty rfl h_on'.symm (fun _ => rfl) (fun h => absurd (h_on'.symm.trans h) (by decide))
      h.lookups h.calls
  | backspace h_on h_key h_line =>
    have h_on' : e.enabled = true := h.enabled ▸ h_on
    have h_keys : ¬ IsEnter c ∧ c ≠ 4 ∧ c ≠ 12 := by rcases h_key with rfl | rfl <;> decide
    have h_count := h.count h_on'
    rw [feed_of_on h_on' h_keys.1, if_neg (fun h => h_keys.2.1 h.1), if_neg h_keys.2.2,
      if_pos h_key]
    refine ⟨h.enabled, fun _ => ?_, ?_, fun _ => ?_, fun d hd => ?_, ?_, h.lookups, h.calls⟩
    · rw [List.length_dropLast, ← h_count]
    · rw [List.length_dropLast]; exact Nat.le_trans (Nat.sub_le _ _) h.short
    · -- the NUL is written behind the line
      have h_le : e.line.length - 1 ≤ e.line.length := Nat.sub_le _ _
      rw [h_count, Cli.store, Vector.toList_setIfInBounds, List.length_dropLast,
        List.take_set_of_le (Nat.le_refl _), List.dropLast_eq_take]
      conv_rhs => rw [← h.stored h_on']
      rw [List.take_take, List.length_take, Vector.length_toList]
      congr 1
      have h_short := h.short
      simp only [clBufSize, maxLine] at *
      omega
    · exact h.printable d ((List.dropLast_sublist _).subset hd)
    · exact fun h_off => absurd (h_on'.symm.trans h_off) (by decide)
  | append h_on h_key h_room h_space =>
    -- the character goes behind the line, where there is still room for the NUL
    have h_on' : e.enabled = true := h.enabled ▸ h_on
    have h_count := h.count h_on'
    have h_less : e.line.length < maxLine := h_count ▸ h_allowed.1 h_on h_key
    have h_word : ¬ (c = 32 ∧ e.line = []) :=
      fun h_both => h_space ⟨(h.line_nil_iff h_on').mp h_both.2, h_both.1⟩
    rw [feed_of_printable h_on' h_key h_word h_less]
    have h_length : (e.line ++ [c]).length = e.line.length + 1 := by simp
    refine ⟨h.enabled, fun _ => ?_, ?_, fun _ => ?_, fun d hd => ?_, ?_, h.lookups, h.calls⟩
    · rw [h_length, ← h_count]
    · rw [h_length]; exact h_less
    · have h_size : s.clCount < s.clBuf.toList.length := by
        rw [Vector.length_toList]; exact h_room
      rw [Cli.store, Vector.toList_setIfInBounds, h_length, List.take_add_one, ← h_count,
        List.take_set_of_le (Nat.le_refl _), List.getElem?_set_self h_size, h_count,
        h.stored h_on', Option.toList_some]
    · rcases List.mem_append.mp hd with hd | hd
      · exact h.printable d hd
      · rw [List.mem_singleton.mp hd]; exact h_key
    · exact fun h_off => absurd (h_on'.symm.trans h_off) (by decide)
  | unused h_on h_key h_clear h_eof h_back h_print =>
    -- the key does nothing in either
    have h_on' : e.enabled = true := h.enabled ▸ h_on
    have h_four : ¬ (c = 4 ∧ e.line = []) :=
      fun h_both => h_eof h_both.1 ((h.line_nil_iff h_on').mp h_both.2)
    have h_full : ¬ (Printable c ∧ ¬ (c = 32 ∧ e.line = []) ∧ e.line.length < maxLine) := by
      rintro ⟨h_char, h_word, h_less⟩
      rcases h_print h_char with ⟨h_empty, h_space⟩ | h_long
      · exact h_word ⟨h_space, (h.line_nil_iff h_on').mpr h_empty⟩
      · rw [h.count h_on'] at h_long
        exact absurd (Nat.lt_of_le_of_lt h_long h_less) (by decide)
    rw [feed_of_on h_on' h_key, if_neg h_four, if_neg h_clear, if_neg h_full]
    split
    · next h_delete =>
      have h_line := (h.line_nil_iff h_on').mpr (h_back h_delete)
      have h_same : { e with line := e.line.dropLast } = e := by
        rw [h_line, List.dropLast_nil, ← h_line]
      rw [h_same]
      exact h
    · exact h

/-- The relation along a run. -/
theorem run (h : Agrees base s e) {cs : List UInt8} (h_allowed : AllAllowed s cs) :
    Agrees base (s.run cs) (e.run cs) := by
  induction cs generalizing s e with
  | nil => exact h
  | cons c cs ih => exact ih (h.feed h_allowed.1) h_allowed.2

end Agrees

/-! ### Runs -/

/-- **The console is the line editor.** From any point where a prompt was just printed, in
every run whose characters are all allowed, the lines that are looked up and the functions
that are called with the rest of them are those of the editor. -/
theorem run_agrees {s : Cli} (h_on : s.clEnabled = true) (h_empty : s.clCount = 0)
    (cs : List UInt8) (h : AllAllowed s cs) :
    (s.run cs).lookups = s.lookups ++ (Editor.start.run cs).lookups ∧
      (s.run cs).calls = s.calls ++ (Editor.start.run cs).lookups.filterMap callOf := by
  have h_start : Agrees s s Editor.start :=
    .of_empty rfl h_on (fun _ => h_empty) nofun (List.append_nil _).symm (List.append_nil _).symm
  have h_end := h_start.run h
  exact ⟨h_end.lookups, h_end.calls⟩

/-- A command with a typing error, and the LF after its CR. -/
theorem run_agrees_help :
    AllAllowed (.powerUp true) (ascii "helo" ++ [0x7F] ++ ascii "p" ++ [0x0D, 0x0A]) ∧
      ((Cli.powerUp true).run (ascii "helo" ++ [0x7F] ++ ascii "p" ++ [0x0D, 0x0A])).calls =
        [(.cliCmdHelp, [])] := by
  have h_all : AllAllowed (.powerUp true)
      (ascii "helo" ++ [0x7F] ++ ascii "p" ++ [0x0D, 0x0A]) := by decide +kernel
  refine ⟨h_all, ?_⟩
  rw [(run_agrees rfl rfl _ h_all).2]
  decide +kernel

/-- The CR LF of the exit line: the LF enters a line again. -/
theorem lookups_exit :
    ¬ ∀ (s : Cli) (cs : List UInt8), s.clEnabled = true → s.clCount = 0 →
      (s.run cs).lookups = s.lookups ++ (Editor.start.run cs).lookups := by
  intro h_all
  exact absurd (h_all (.powerUp true) (ascii "exit" ++ [0x0D, 0x0A]) rfl rfl) (by decide +kernel)

/-! ### One line -/

/-- A line that can be typed at a prompt. -/
structure Typed (line : List UInt8) : Prop where
  printable : ∀ c ∈ line, Printable c
  word : line.head? ≠ some 0x20
  short : line.length ≤ maxLine

theorem Typed.append_left {line rest : List UInt8} (h : Typed (line ++ rest)) : Typed line where
  printable c hc := h.printable c (List.mem_append_left rest hc)
  word := by
    cases line with
    | nil => simp
    | cons c line => exact h.word
  short := Nat.le_trans (by rw [List.length_append]; exact Nat.le_add_right _ _) h.short

section Typing

variable {s : Cli} {line : List UInt8}

/-- The line while it is typed. -/
theorem Agrees.typed (h_on : s.clEnabled = true) (h_empty : s.clCount = 0) (h : Typed line) :
    Agrees s (s.run line) { Editor.start with line := line } := by
  induction line using List.reverseRecOn with
  | nil =>
    exact .of_empty rfl h_on (fun _ => h_empty) nofun (List.append_nil _).symm
      (List.append_nil _).symm
  | append_singleton line c ih =>
    have h_print : Printable c := h.printable c (by simp)
    -- a line does not begin with a space, which would not be taken
    have h_word : ¬ (c = 32 ∧ line = []) := by
      rintro ⟨rfl, rfl⟩
      exact h.word rfl
    -- and it fits, so the character is
    have h_less : line.length < maxLine := by
      have h_short := h.short
      rwa [List.length_append, List.length_singleton] at h_short
    have h_line := ih h.append_left
    have h_next := h_line.feed (c := c)
      ⟨fun _ _ => by rw [h_line.count rfl]; exact h_less, fun h_off =>
        absurd (h_line.enabled.symm.trans h_off) Bool.noConfusion⟩
    rw [Agrees.feed_of_printable rfl h_print h_word h_less] at h_next
    rw [Cli.run, List.foldl_append]
    exact h_next

/-- **A line that is typed at a prompt is what is called**, with either kind of Enter. -/
theorem run_typed (h_on : s.clEnabled = true) (h_empty : s.clCount = 0) (h : Typed line)
    (h_ne : line ≠ []) {c : UInt8} (h_key : IsEnter c) :
    (s.run (line ++ [c])).calls = s.calls ++ (callOf line).toList := by
  have h_line := Agrees.typed h_on h_empty h
  have h_allowed : Allowed (s.run line) c := by
    refine ⟨fun _ h_print => ?_, fun h_off =>
      absurd (h_line.enabled.symm.trans h_off) Bool.noConfusion⟩
    exact absurd h_key h_print.not_control.1
  have h_next := (h_line.feed h_allowed).calls
  have h_lookups : ({ Editor.start with line := line }.feed c).lookups = [line] := by
    rw [Editor.feed, if_neg Bool.noConfusion, if_pos h_key, if_neg h_ne]
    rfl
  rw [h_lookups] at h_next
  rw [Cli.run, List.foldl_append]
  refine h_next.trans ?_
  cases h_call : callOf line <;> simp [h_call]

end Typing

/-! ### After an exit -/

/-- Enter after an exit line looks up a line that nobody typed. -/
theorem stale_line {s : Cli} {c : UInt8} (h_off : s.clEnabled = false) (h_line : s.clCount ≠ 0)
    (h_key : IsEnter c) : (cliFeed s c).lookups = s.lookups ++ [s.line] := by
  have h_case := cliFeed_case s c
  generalize cliFeed s c = s' at h_case ⊢
  cases h_case with
  | enter _ _ =>
    obtain ⟨zeroed, -, h_enter⟩ := Cli.enter_eq { s with clEnabled := true }
    rw [h_enter]
    dsimp only [Cli.afterEnter]
    split <;> rfl
  | ignored _ h => exact absurd h_key h
  | blank _ h | skipped _ h => exact absurd h h_line
  | eof h_on | formFeed h_on | backspace h_on | append h_on | unused h_on =>
    exact absurd (h_off.symm.trans h_on) (by decide)

end Cmdline
end Laureline
