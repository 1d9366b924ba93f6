import Mathlib.Algebra.Order.Ring.Nat
import Mathlib.Logic.Relation
import Mathlib.Tactic.Common

/-!
# Thumb programs

A part of the 16-bit Thumb instruction set: the registers `r0` to `r12`, `sp` and `lr`, the
arithmetic on them, loads and stores, calls and returns. A program is a list of sections,
each with its label; a label is a place in halfwords from the start of the program, and a
`bl` takes two of them. The memory is little-endian and is kept by words.

Of the flags only `Z` is read, by `beq` and `bne`. It is known after a `cmp`; whether another
instruction sets it depends on its encoding, so any other computation leaves it unknown, and
a branch on an unknown flag is stuck. So is a word access at an address that is not aligned,
and everything outside the program.

`P.Leads p A p' B` is total correctness: from the place `p` and every state with `A` the
program gets to `p'` with `B`. `Leads.loop` is the rule for a loop with a count,
`Leads.straight` that for code without branches, and `Steps.call` that for a subroutine.
-/

namespace Laureline

namespace Thumb

/-- A register or a word of memory. -/
abbrev Word := BitVec 32

/-- The registers without `pc`. -/
inductive Reg
  | r0 | r1 | r2 | r3 | r4 | r5 | r6 | r7 | r8 | r9 | r10 | r11 | r12 | sp | lr
deriving DecidableEq, Repr

/-- The instructions, over the labels `L`. -/
inductive Instr (L : Type)
  | movImm (d : Reg) (n : ℕ)
  | mov (d m : Reg)
  | addImm (d : Reg) (n : ℕ)
  | subImm (d : Reg) (n : ℕ)
  | add (d n m : Reg)
  | lslImm (d m : Reg) (n : ℕ)
  | lsrImm (d m : Reg) (n : ℕ)
  | and (d m : Reg)
  | orr (d m : Reg)
  | eor (d m : Reg)
  | ror (d m : Reg)
  | cmp (n m : Reg)
  /-- A constant that stands behind the code. -/
  | ldrLit (d : Reg) (w : Word)
  | ldr (d n : Reg) (off : ℕ)
  | ldrb (d n : Reg) (off : ℕ)
  /-- `ldmia n!, {rs}`. -/
  | ldmia (n : Reg) (rs : List Reg)
  /-- `stmia n!, {rs}`. -/
  | stmia (n : Reg) (rs : List Reg)
  | push (rs : List Reg)
  | pop (rs : List Reg)
  | b (l : L)
  | beq (l : L)
  | bne (l : L)
  | bl (l : L)
  | bx (m : Reg)
  /-- `mov pc, m`. -/
  | movPc (m : Reg)
deriving DecidableEq

/-- The size in halfwords. -/
def Instr.size {L : Type} : Instr L → ℕ
  | .bl _ => 2
  | _ => 1

theorem Instr.size_pos {L : Type} (i : Instr L) : 0 < i.size := by
  cases i <;> exact Nat.succ_pos _

/-- Where a program is: at a place of its own, or at an address outside. -/
inductive Pc
  | place (h : ℕ)
  | out (a : Word)
deriving DecidableEq, Repr

/-- A byte of a memory of words, the low byte of a word first. -/
def byteAt (mem : ℕ → Word) (a : Word) : Word :=
  (mem (a.toNat / 4) >>> (8 * (a.toNat % 4))) &&& 0xff

/-- An aligned word of the memory. -/
def loadWord (mem : ℕ → Word) (a : Word) : Option Word :=
  if a.toNat % 4 = 0 then some (mem (a.toNat / 4)) else none

/-- A store to an aligned word. -/
def storeWord (mem : ℕ → Word) (a v : Word) : Option (ℕ → Word) :=
  if a.toNat % 4 = 0 then some (Function.update mem (a.toNat / 4) v) else none

/-- The registers, the flag and the memory. -/
structure State where
  r0 : Word
  r1 : Word
  r2 : Word
  r3 : Word
  r4 : Word
  r5 : Word
  r6 : Word
  r7 : Word
  r8 : Word
  r9 : Word
  r10 : Word
  r11 : Word
  r12 : Word
  sp : Word
  lr : Word
  /-- The flag, if it is known. -/
  z : Option Bool
  /-- The words of the memory; the word at the address `4 * n` has the number `n`. -/
  mem : ℕ → Word

namespace State

variable (s : State)

/-- The value of a register. -/
def get : Reg → Word
  | .r0 => s.r0 | .r1 => s.r1 | .r2 => s.r2 | .r3 => s.r3 | .r4 => s.r4 | .r5 => s.r5
  | .r6 => s.r6 | .r7 => s.r7 | .r8 => s.r8 | .r9 => s.r9 | .r10 => s.r10 | .r11 => s.r11
  | .r12 => s.r12 | .sp => s.sp | .lr => s.lr

/-- A register gets a value. -/
def set (v : Word) : Reg → State
  | .r0 => { s with r0 := v } | .r1 => { s with r1 := v } | .r2 => { s with r2 := v }
  | .r3 => { s with r3 := v } | .r4 => { s with r4 := v } | .r5 => { s with r5 := v }
  | .r6 => { s with r6 := v } | .r7 => { s with r7 := v } | .r8 => { s with r8 := v }
  | .r9 => { s with r9 := v } | .r10 => { s with r10 := v } | .r11 => { s with r11 := v }
  | .r12 => { s with r12 := v } | .sp => { s with sp := v } | .lr => { s with lr := v }

/-- The result of a computation. -/
def put (d : Reg) (v : Word) : State := { s.set v d with z := none }

/-- The registers are loaded from the address on. -/
def loadAll : Word → List Reg → State → Option State
  | _, [], s => some s
  | a, r :: rs, s => (loadWord s.mem a).bind fun v => loadAll (a + 4#32) rs (s.set v r)

/-- The registers are stored from the address on. -/
def storeAll : Word → List Reg → State → Option State
  | _, [], s => some s
  | a, r :: rs, s =>
    (storeWord s.mem a (s.get r)).bind fun mem => storeAll (a + 4#32) rs { s with mem }

end State

/-- What an instruction does that is no branch. -/
def Instr.exec {L : Type} (s : State) : Instr L → Option State
  | .movImm d n => some (s.put d (.ofNat 32 n))
  | .mov d m => some (s.put d (s.get m))
  | .addImm d n => some (s.put d (s.get d + .ofNat 32 n))
  | .subImm d n => some (s.put d (s.get d - .ofNat 32 n))
  | .add d n m => some (s.put d (s.get n + s.get m))
  | .lslImm d m n => some (s.put d (s.get m <<< n))
  | .lsrImm d m n => some (s.put d (s.get m >>> n))
  | .and d m => some (s.put d (s.get d &&& s.get m))
  | .orr d m => some (s.put d (s.get d ||| s.get m))
  | .eor d m => some (s.put d (s.get d ^^^ s.get m))
  | .ror d m => some (s.put d ((s.get d).rotateRight ((s.get m).toNat % 256)))
  | .cmp n m => some { s with z := some (s.get n == s.get m) }
  | .ldrLit d w => some (s.put d w)
  | .ldr d n off => (loadWord s.mem (s.get n + .ofNat 32 off)).map (s.put d)
  | .ldrb d n off => some (s.put d (byteAt s.mem (s.get n + .ofNat 32 off)))
  | .ldmia n rs =>
    (State.loadAll (s.get n) rs s).map (·.set (s.get n + .ofNat 32 (4 * rs.length)) n)
  | .stmia n rs =>
    (State.storeAll (s.get n) rs s).map (·.set (s.get n + .ofNat 32 (4 * rs.length)) n)
  | .push rs =>
    let a := s.sp - .ofNat 32 (4 * rs.length)
    (State.storeAll a rs s).map (·.set a .sp)
  | .pop rs => (State.loadAll s.sp rs s).map (·.set (s.sp + .ofNat 32 (4 * rs.length)) .sp)
  | .b _ | .beq _ | .bne _ | .bl _ | .bx _ | .movPc _ => none

/-- A program at an address. -/
structure Program (L : Type) where
  origin : Word
  sections : List (L × List (Instr L))

namespace Program

variable {L : Type}

/-- The length of a piece of code in halfwords. -/
def halfwords (is : List (Instr L)) : ℕ := (is.map Instr.size).sum

/-- The instruction at a place. -/
def fetchIn : List (Instr L) → ℕ → Option (Instr L)
  | [], _ => none
  | i :: _, 0 => some i
  | i :: is, h + 1 => if h + 1 < i.size then none else fetchIn is (h + 1 - i.size)

/-- There is code only where the program is. -/
theorem lt_of_fetchIn {is : List (Instr L)} {h : ℕ} {i : Instr L} (hi : fetchIn is h = some i) :
    h < halfwords is := by
  fun_induction fetchIn is h with
  | case1 h => exact absurd hi (by simp)
  | case2 j is => exact Nat.lt_of_lt_of_le j.size_pos (Nat.le_add_right _ _)
  | case3 j is h h_lt => exact absurd hi (by simp)
  | case4 j is h h_ge ih =>
    have h_rest := ih hi
    show h + 1 < j.size + halfwords is
    omega

variable [DecidableEq L]

/-- The place of a label. -/
def labelIn (l : L) : List (L × List (Instr L)) → ℕ
  | [] => 0
  | (l', is) :: rest => if l = l' then 0 else halfwords is + labelIn l rest

variable (P : Program L)

/-- The code of all sections. -/
def code : List (Instr L) := P.sections.flatMap Prod.snd

/-- The place of a label of the program. -/
def label (l : L) : ℕ := labelIn l P.sections

/-- The address of a place, as a `bl` keeps it. -/
def addr (h : ℕ) : Word := P.origin + .ofNat 32 (2 * h) + 1#32

/-- Where an address is. -/
def target (a : Word) : Pc :=
  let d := (a - 1#32 - P.origin).toNat
  if d % 2 = 0 ∧ d / 2 < halfwords P.code then .place (d / 2) else .out a

/-- One step: where it leads, and the state after it. -/
def step : Pc × State → Option (Pc × State)
  | (.out _, _) => none
  | (.place h, s) =>
    match fetchIn P.code h with
    | none => none
    | some (.b l) => some (.place (P.label l), s)
    | some (.beq l) => s.z.map fun z => (.place (if z then P.label l else h + 1), s)
    | some (.bne l) => s.z.map fun z => (.place (if z then h + 1 else P.label l), s)
    | some (.bl l) => some (.place (P.label l), s.set (P.addr (h + 2)) .lr)
    | some (.bx m) | some (.movPc m) => some (P.target (s.get m), s)
    | some i => (i.exec s).map (.place (h + 1), ·)

/-- Any number of steps. -/
def Steps : Pc × State → Pc × State → Prop :=
  Relation.ReflTransGen fun c c' => P.step c = some c'

/-- **Total correctness.** From the place `p` with `A` the program gets to `p'` with `B`. -/
def Leads (p : Pc) (A : State → Prop) (p' : Pc) (B : State → Prop) : Prop :=
  ∀ s, A s → ∃ s', P.Steps (p, s) (p', s') ∧ B s'

variable {P}

/-! ### Rules -/

section Rules

variable {p q r : Pc} {A A' B B' C : State → Prop}

theorem Leads.refl (h : ∀ s, A s → B s) : P.Leads p A p B :=
  fun s hs => ⟨s, .refl, h s hs⟩

theorem Leads.trans (h : P.Leads p A q B) (h' : P.Leads q B r C) : P.Leads p A r C := by
  intro s hs
  obtain ⟨t, h_steps, ht⟩ := h s hs
  obtain ⟨u, h_steps', hu⟩ := h' t ht
  exact ⟨u, Relation.ReflTransGen.trans h_steps h_steps', hu⟩

theorem Leads.mono (h : P.Leads p A q B) (hA : ∀ s, A' s → A s) (hB : ∀ s, B s → B' s) :
    P.Leads p A' q B' := by
  intro s hs
  obtain ⟨t, h_steps, ht⟩ := h s (hA s hs)
  exact ⟨t, h_steps, hB t ht⟩

/-- **Loops** with a counter that goes from `k` up to `n`: after the last pass the program is
at `q`, after any other at the start again. -/
theorem Leads.loop {I : ℕ → State → Prop} {k n : ℕ} (h_lt : k < n)
    (h_body : ∀ i, k ≤ i → i < n →
      P.Leads p (I i) (if i + 1 = n then q else p) (I (i + 1))) :
    P.Leads p (I k) q (I n) := by
  -- on the passes that are left
  obtain ⟨d, hd⟩ : ∃ d, n - k = d := ⟨_, rfl⟩
  induction d generalizing k with
  | zero => omega
  | succ d ih =>
    have h_pass := h_body k (Nat.le_refl k) h_lt
    by_cases h_last : k + 1 = n
    · rwa [if_pos h_last, h_last] at h_pass
    · rw [if_neg h_last] at h_pass
      exact h_pass.trans (ih (by omega) (fun i hi => h_body i (by omega)) (by omega))

end Rules

/-! ### Code without branches -/

/-- The instructions, which are no calls, stand at the place and behind it. -/
def CodeAt (code : List (Instr L)) (h : ℕ) : List (Instr L) → Prop
  | [] => True
  | i :: is => fetchIn code h = some i ∧ CodeAt code (h + 1) is

instance CodeAt.decidable (code : List (Instr L)) : ∀ (h : ℕ) (is : List (Instr L)),
    Decidable (CodeAt code h is)
  | _, [] => isTrue trivial
  | h, i :: is =>
    have := CodeAt.decidable code (h + 1) is
    inferInstanceAs (Decidable (fetchIn code h = some i ∧ CodeAt code (h + 1) is))

/-- What instructions that are no branches do one after the other. -/
def execAll : List (Instr L) → State → Option State
  | [], s => some s
  | i :: is, s => (i.exec s).bind (execAll is)

variable {s s' : State} {h : ℕ}

/-- A step of an instruction that is no branch. -/
theorem step_exec {i : Instr L} (h_code : fetchIn P.code h = some i) (h_exec : i.exec s = some s') :
    P.step (.place h, s) = some (.place (h + 1), s') := by
  simp only [step, h_code]
  cases i with
  -- a branch is not executed
  | b | beq | bne | bl | bx | movPc => exact absurd h_exec (by simp [Instr.exec])
  | _ => exact congrArg (Option.map (Pc.place (h + 1), ·)) h_exec

/-- **Code without branches.** -/
theorem Steps.straight {c : List (Instr L)} (h_code : CodeAt P.code h c)
    (h_exec : execAll c s = some s') : P.Steps (.place h, s) (.place (h + c.length), s') := by
  induction c generalizing s h with
  | nil =>
    obtain rfl := Option.some.inj h_exec
    exact .refl
  | cons i is ih =>
    obtain ⟨t, h_t, h_rest⟩ := Option.bind_eq_some_iff.mp h_exec
    have h_steps := ih h_code.2 h_rest
    rw [Nat.add_right_comm] at h_steps
    -- the first instruction, and then the rest from the next place
    exact .head (step_exec h_code.1 h_t) h_steps

theorem Leads.straight {A B : State → Prop} {c : List (Instr L)} (h_code : CodeAt P.code h c)
    (h_exec : ∀ s, A s → ∃ s', execAll c s = some s' ∧ B s') :
    P.Leads (.place h) A (.place (h + c.length)) B := by
  intro s hs
  obtain ⟨s', h_s', h_B⟩ := h_exec s hs
  exact ⟨s', Steps.straight h_code h_s', h_B⟩

/-! ### Branches and calls -/

omit [DecidableEq L] in
/-- An address that a call keeps leads back. -/
theorem target_addr (h_size : halfwords P.code ≤ 2 ^ 31) (hh : h < halfwords P.code) :
    P.target (P.addr h) = .place h := by
  have h_diff : P.addr h - 1#32 - P.origin = .ofNat 32 (2 * h) := by
    unfold addr
    rw [BitVec.add_sub_cancel, BitVec.add_comm, BitVec.add_sub_cancel]
  -- the program is shorter than the address space
  have h_nat : (BitVec.ofNat 32 (2 * h)).toNat = 2 * h := by
    rw [BitVec.toNat_ofNat]
    omega
  unfold target
  simp only [h_diff, h_nat]
  rw [if_pos ⟨Nat.mul_mod_right 2 h, by omega⟩, Nat.mul_div_cancel_left h (by decide)]

/-- **Calls.** A subroutine that comes back to `lr` is called and leads behind the call. -/
theorem Steps.call {l : L} (h_code : fetchIn P.code h = some (.bl l))
    (h_size : halfwords P.code ≤ 2 ^ 31) (h_back : h + 2 < halfwords P.code)
    (h_sub : P.Steps (.place (P.label l), s.set (P.addr (h + 2)) .lr)
      (P.target (P.addr (h + 2)), s')) : P.Steps (.place h, s) (.place (h + 2), s') := by
  -- `lr` holds the address behind the call
  rw [target_addr h_size h_back] at h_sub
  have h_step : P.step (.place h, s) = some (.place (P.label l), s.set (P.addr (h + 2)) .lr) := by
    simp only [step, h_code]
  exact .head h_step h_sub

theorem Steps.movPc {m : Reg} (h_code : fetchIn P.code h = some (.movPc m)) :
    P.Steps (.place h, s) (P.target (s.get m), s) := by
  refine .single ?_
  simp only [step, h_code]

theorem Steps.b {l : L} (h_code : fetchIn P.code h = some (.b l)) :
    P.Steps (.place h, s) (.place (P.label l), s) := by
  refine .single ?_
  simp only [step, h_code]

theorem Steps.bx {m : Reg} (h_code : fetchIn P.code h = some (.bx m)) :
    P.Steps (.place h, s) (P.target (s.get m), s) := by
  refine .single ?_
  simp only [step, h_code]

theorem Steps.beq {l : L} {z : Bool} (h_code : fetchIn P.code h = some (.beq l))
    (hz : s.z = some z) :
    P.Steps (.place h, s) (.place (if z then P.label l else h + 1), s) := by
  refine .single ?_
  simp only [step, h_code, hz, Option.map_some]

theorem Steps.bne {l : L} {z : Bool} (h_code : fetchIn P.code h = some (.bne l))
    (hz : s.z = some z) :
    P.Steps (.place h, s) (.place (if z then h + 1 else P.label l), s) := by
  refine .single ?_
  simp only [step, h_code, hz, Option.map_some]

/-- Loops that end with a comparison and a `bne`. -/
theorem Leads.bneLoop {I : ℕ → State → Prop} {l : L} {k n q : ℕ} (h_lt : k < n)
    (h_code : fetchIn P.code q = some (.bne l))
    (h_body : ∀ i, k ≤ i → i < n → P.Leads (.place (P.label l)) (I i) (.place q)
      fun s => I (i + 1) s ∧ s.z = some (i + 1 == n)) :
    P.Leads (.place (P.label l)) (I k) (.place (q + 1)) (I n) := by
  refine Leads.loop h_lt fun i h_ge hi s hs => ?_
  obtain ⟨t, h_steps, ht, hz⟩ := h_body i h_ge hi s hs
  have h_bne := h_steps.trans (Steps.bne h_code hz)
  simp only [beq_iff_eq, apply_ite Pc.place] at h_bne
  exact ⟨t, h_bne, ht⟩

/-- Loops that end with a comparison, a `beq` that leaves and a `b` that does not. -/
theorem Leads.beqLoop {I : ℕ → State → Prop} {l m : L} {k n q : ℕ} (h_lt : k < n)
    (h_beq : fetchIn P.code q = some (.beq m)) (h_b : fetchIn P.code (q + 1) = some (.b l))
    (h_body : ∀ i, k ≤ i → i < n → P.Leads (.place (P.label l)) (I i) (.place q)
      fun s => I (i + 1) s ∧ s.z = some (i + 1 == n)) :
    P.Leads (.place (P.label l)) (I k) (.place (P.label m)) (I n) := by
  refine Leads.loop h_lt fun i h_ge hi s hs => ?_
  obtain ⟨t, h_steps, ht, hz⟩ := h_body i h_ge hi s hs
  have h_branch := h_steps.trans (Steps.beq h_beq hz)
  by_cases h_last : i + 1 = n
  -- the flag is set by the last pass only
  · rw [if_pos (by simpa using h_last)] at h_branch
    rw [if_pos h_last]
    exact ⟨t, h_branch, ht⟩
  · rw [if_neg (by simpa using h_last)] at h_branch
    rw [if_neg h_last]
    exact ⟨t, h_branch.trans (Steps.b h_b), ht⟩

end Program

/-! ### Word pointers -/

/-- The address of the word with the number `n`. -/
def ptr (n : ℕ) : Word := .ofNat 32 (4 * n)

section Pointer

variable {n k : ℕ}

theorem toNat_ptr (h : n < 2 ^ 30) : (ptr n).toNat = 4 * n := by
  rw [ptr, BitVec.toNat_ofNat]
  omega

theorem ptr_inj {m : ℕ} (hm : m < 2 ^ 30) (hn : n < 2 ^ 30) : ptr m = ptr n ↔ m = n := by
  rw [← BitVec.toNat_inj, toNat_ptr hm, toNat_ptr hn]
  omega

theorem ptr_beq {m : ℕ} (hm : m < 2 ^ 30) (hn : n < 2 ^ 30) : (ptr m == ptr n) = (m == n) := by
  rw [Bool.eq_iff_iff, beq_iff_eq, beq_iff_eq, ptr_inj hm hn]

theorem ptr_add (n k : ℕ) : ptr n + .ofNat 32 (4 * k) = ptr (n + k) := by
  rw [ptr, ptr, Nat.mul_add, BitVec.ofNat_add]

theorem ptr_add_four (n : ℕ) : ptr n + 4#32 = ptr (n + 1) := ptr_add n 1

theorem ptr_sub (h : k ≤ n) : ptr n - .ofNat 32 (4 * k) = ptr (n - k) := by
  have h_sum := ptr_add (n - k) k
  rw [Nat.sub_add_cancel h] at h_sum
  rw [← h_sum, BitVec.add_sub_cancel]

theorem ptr_sub_four (h : 1 ≤ n) : ptr n - 4#32 = ptr (n - 1) := ptr_sub (k := 1) h

theorem loadWord_ptr (mem : ℕ → Word) (h : n < 2 ^ 30) : loadWord mem (ptr n) = some (mem n) := by
  unfold loadWord
  rw [toNat_ptr h, Nat.mul_div_cancel_left n (by decide), if_pos (Nat.mul_mod_right 4 n)]

theorem storeWord_ptr (mem : ℕ → Word) (v : Word) (h : n < 2 ^ 30) :
    storeWord mem (ptr n) v = some (Function.update mem n v) := by
  unfold storeWord
  rw [toNat_ptr h, Nat.mul_div_cancel_left n (by decide), if_pos (Nat.mul_mod_right 4 n)]

/-- The words from the number `n` on are written. -/
def writeAll : (ℕ → Word) → ℕ → List Word → ℕ → Word
  | mem, _, [] => mem
  | mem, n, v :: vs => writeAll (Function.update mem n v) (n + 1) vs

theorem writeAll_of_lt {mem : ℕ → Word} {vs : List Word} (h : k < n) :
    writeAll mem n vs k = mem k := by
  induction vs generalizing mem n with
  | nil => rfl
  | cons v vs ih => rw [writeAll, ih (Nat.lt_succ_of_lt h), Function.update_of_ne (Nat.ne_of_lt h)]

theorem writeAll_of_ge {mem : ℕ → Word} {vs : List Word} (h : n + vs.length ≤ k) :
    writeAll mem n vs k = mem k := by
  induction vs generalizing mem n with
  | nil => rfl
  | cons v vs ih =>
    rw [List.length_cons] at h
    -- the first word is below the others
    rw [writeAll, ih (by omega), Function.update_of_ne (by omega)]

theorem writeAll_getD {mem : ℕ → Word} {vs : List Word} (d : Word) (h : k < vs.length) :
    writeAll mem n vs (n + k) = vs.getD k d := by
  induction vs generalizing mem n k with
  | nil => exact absurd h (Nat.not_lt_zero k)
  | cons v vs ih =>
    cases k with
    | zero => exact (writeAll_of_lt (Nat.lt_succ_self n)).trans (Function.update_self ..)
    | succ k =>
      rw [show n + (k + 1) = n + 1 + k by omega]
      exact ih (Nat.lt_of_succ_lt_succ h)

theorem State.get_with_mem (s : State) (mem : ℕ → Word) : { s with mem }.get = s.get :=
  funext fun r => by cases r <;> rfl

theorem State.storeAll_ptr {s : State} {rs : List Reg} (h : n + rs.length ≤ 2 ^ 30) :
    State.storeAll (ptr n) rs s = some { s with mem := writeAll s.mem n (rs.map s.get) } := by
  induction rs generalizing s n with
  | nil => rfl
  | cons r rs ih =>
    rw [List.length_cons] at h
    rw [State.storeAll, storeWord_ptr _ _ (by omega), Option.bind_some, ptr_add_four, ih (by omega)]
    simp only [List.map_cons, writeAll, State.get_with_mem]

end Pointer

end Thumb

end Laureline
