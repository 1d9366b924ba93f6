import Laureline.Lib.Thumb

/-!
# SHA-1

The compression function of SHA-1: 16 words of a block are extended to 80, and one round
for each of them is applied to the five variables.

`sha1_thumb.s` computes it. Its text is `Sha1.code`, label by label; `.align` is left out.
-/

namespace Laureline

namespace Sha1

open Thumb

/-! ### The compression function -/

/-- The five variables, and the chaining value. -/
structure Vars where
  a : Word
  b : Word
  c : Word
  d : Word
  e : Word
deriving DecidableEq, Repr

/-- The function of the rounds 0 to 19. -/
def choose (b c d : Word) : Word := (b &&& c) ||| (~~~b &&& d)

/-- The function of the rounds 20 to 39 and 60 to 79. -/
def parity (b c d : Word) : Word := b ^^^ c ^^^ d

/-- The function of the rounds 40 to 59. -/
def majority (b c d : Word) : Word := (b &&& c) ||| (b &&& d) ||| (c &&& d)

/-- The function of a round. -/
def f (t : ℕ) : Word → Word → Word → Word :=
  if t < 20 then choose else if t < 40 then parity else if t < 60 then majority else parity

/-- The constant of a round. -/
def k (t : ℕ) : Word :=
  if t < 20 then 0x5a827999 else if t < 40 then 0x6ed9eba1
  else if t < 60 then 0x8f1bbcdc else 0xca62c1d6

/-- The first words of the message schedule, the last one first. -/
def schedule (m : ℕ → Word) : ℕ → List Word
  | 0 => []
  | t + 1 =>
    let ws := schedule m t
    (if t < 16 then m t
      else (ws.getD 2 0 ^^^ ws.getD 7 0 ^^^ ws.getD 13 0 ^^^ ws.getD 15 0).rotateLeft 1) :: ws

/-- A word of the message schedule. -/
def w (m : ℕ → Word) (t : ℕ) : Word := (schedule m (t + 1)).headD 0

/-- A round. -/
def round (m : ℕ → Word) (t : ℕ) (v : Vars) : Vars where
  a := v.a.rotateLeft 5 + f t v.b v.c v.d + v.e + k t + w m t
  b := v.a
  c := v.b.rotateLeft 30
  d := v.c
  e := v.d

/-- The first rounds. -/
def rounds (m : ℕ → Word) : ℕ → Vars → Vars
  | 0, v => v
  | t + 1, v => round m t (rounds m t v)

/-- The chaining variables after a block with the words `m`. -/
def compress (m : ℕ → Word) (h : Vars) : Vars :=
  let v := rounds m 80 h
  ⟨h.a + v.a, h.b + v.b, h.c + v.c, h.d + v.d, h.e + v.e⟩

section Schedule

variable {m : ℕ → Word}

/-- The list holds the words that were computed before. -/
theorem schedule_getD {i t : ℕ} (h : i < t) : (schedule m t).getD i 0 = w m (t - 1 - i) := by
  induction t generalizing i with
  | zero => exact absurd h (Nat.not_lt_zero i)
  | succ t ih =>
    cases i with
    -- the newest word is at the head
    | zero => rfl
    | succ i =>
      rw [show t + 1 - 1 - (i + 1) = t - 1 - i by omega, ← ih (Nat.lt_of_succ_lt_succ h)]
      rfl

theorem w_of_lt {t : ℕ} (h : t < 16) : w m t = m t := if_pos h

theorem w_of_ge {t : ℕ} (h : 16 ≤ t) :
    w m t = (w m (t - 3) ^^^ w m (t - 8) ^^^ w m (t - 14) ^^^ w m (t - 16)).rotateLeft 1 := by
  have h_if : w m t = ((schedule m t).getD 2 0 ^^^ (schedule m t).getD 7 0 ^^^
      (schedule m t).getD 13 0 ^^^ (schedule m t).getD 15 0).rotateLeft 1 :=
    if_neg (Nat.not_lt.mpr h)
  -- the offsets of the list are those of the recurrence, less one
  rw [h_if, schedule_getD (by omega), schedule_getD (by omega), schedule_getD (by omega),
    schedule_getD (by omega)]
  simp only [Nat.sub_sub, Nat.reduceAdd]

/-- The schedule depends on 16 words. -/
theorem w_congr {m m' : ℕ → Word} (h : ∀ t < 16, m t = m' t) (t : ℕ) : w m t = w m' t := by
  have h_schedule (t : ℕ) : schedule m t = schedule m' t := by
    induction t with
    | zero => rfl
    | succ t ih =>
      simp only [schedule, ih]
      by_cases ht : t < 16
      · rw [if_pos ht, if_pos ht, h t ht]
      · rw [if_neg ht, if_neg ht]
  unfold w
  rw [h_schedule]

theorem compress_congr {m m' : ℕ → Word} (h : ∀ t < 16, m t = m' t) (v : Vars) :
    compress m v = compress m' v := by
  have h_rounds (t : ℕ) : rounds m t v = rounds m' t v := by
    induction t with
    | zero => rfl
    | succ t ih => rw [rounds, rounds, ih, round, round, w_congr h]
  unfold compress
  rw [h_rounds]

end Schedule

/-! ### `sha1_thumb.s` -/

/-- The labels of the file. -/
inductive Label
  | sha1BlockDataOrder
  | Lloop
  | LXload
  | LXupdate
  | L_00_19
  | L_20_39_or_60_79
  | L_40_59
  | Ldone
  | Lexit
  | Lcommon
  | Lrotate
deriving DecidableEq, Repr

open Reg in
/-- The code behind each label. -/
def code : Label → List (Instr Label)
  | .sha1BlockDataOrder => [
    .push [r4, r5, r6, r7],
    .mov r3 r8,
    .mov r4 r9,
    .mov r5 r10,
    .mov r6 r11,
    .mov r7 r12,
    .push [r3, r4, r5, r6, r7, lr],
    .lslImm r2 r2 6,
    .mov r9 r0,
    .mov r10 r1,
    .mov r11 r2,
    .add r11 r11 r10]
  | .Lloop => [
    .mov r12 sp,
    .mov r2 sp,
    .subImm r2 (16 * 4)]
  | .LXload => [
    .ldrb r3 r1 0,
    .ldrb r4 r1 1,
    .ldrb r5 r1 2,
    .ldrb r6 r1 3,
    .lslImm r3 r3 24,
    .lslImm r4 r4 16,
    .lslImm r5 r5 8,
    .orr r3 r4,
    .orr r3 r5,
    .orr r3 r6,
    .addImm r1 4,
    .push [r3],
    .cmp sp r2,
    .bne .LXload,
    .mov r10 r1,
    .subImm r2 (32 * 4),
    .subImm r2 (32 * 4),
    .movImm r7 31]
  | .LXupdate => [
    .ldr r3 sp (15 * 4),
    .ldr r4 sp (13 * 4),
    .ldr r5 sp (7 * 4),
    .ldr r6 sp (2 * 4),
    .eor r3 r4,
    .eor r3 r5,
    .eor r3 r6,
    .ror r3 r7,
    .push [r3],
    .cmp sp r2,
    .bne .LXupdate,
    .ldmia r0 [r3, r4, r5, r6, r7],
    .mov r0 r12,
    .ldrLit r2 0x5a827999,
    .mov r1 r0,
    .subImm r1 (20 * 4),
    .mov r12 r1,
    .mov r8 r2]
  | .L_00_19 => [
    .bl .Lcommon,
    .mov r1 r5,
    .eor r1 r6,
    .and r1 r4,
    .eor r1 r6,
    .bl .Lrotate,
    .cmp r12 r0,
    .bne .L_00_19,
    .ldrLit r2 0x6ed9eba1,
    .mov r1 r0,
    .subImm r1 (20 * 4),
    .mov r12 r1,
    .mov r8 r2]
  | .L_20_39_or_60_79 => [
    .bl .Lcommon,
    .mov r1 r4,
    .eor r1 r5,
    .eor r1 r6,
    .bl .Lrotate,
    .cmp r12 r0,
    .bne .L_20_39_or_60_79,
    .cmp sp r0,
    .beq .Ldone,
    .ldrLit r2 0x8f1bbcdc,
    .mov r1 r0,
    .subImm r1 (20 * 4),
    .mov r12 r1,
    .mov r8 r2]
  | .L_40_59 => [
    .bl .Lcommon,
    .mov r1 r4,
    .and r1 r5,
    .mov r7 r4,
    .orr r7 r5,
    .and r7 r6,
    .orr r1 r7,
    .bl .Lrotate,
    .cmp r12 r0,
    .bne .L_40_59,
    .ldrLit r2 0xca62c1d6,
    .mov r12 sp,
    .mov r8 r2,
    .b .L_20_39_or_60_79]
  | .Ldone => [
    .mov r0 r9,
    .ldr r1 r0 0,
    .ldr r2 r0 4,
    .add r3 r3 r1,
    .ldr r1 r0 8,
    .add r4 r4 r2,
    .ldr r2 r0 12,
    .add r5 r5 r1,
    .ldr r1 r0 16,
    .add r6 r6 r2,
    .add r7 r7 r1,
    .stmia r0 [r3, r4, r5, r6, r7],
    .addImm sp (80 * 4),
    .mov r0 r9,
    .mov r1 r10,
    .cmp r1 r11,
    .beq .Lexit,
    .b .Lloop]
  | .Lexit => [
    .pop [r2, r3, r4, r5, r6, r7],
    .mov r8 r2,
    .mov r9 r3,
    .mov r10 r4,
    .mov r11 r5,
    .mov r12 r6,
    .mov lr r7,
    .pop [r4, r5, r6, r7],
    .bx lr]
  | .Lcommon => [
    .subImm r0 4,
    .ldr r1 r0 0,
    .add r7 r7 r8,
    .lslImm r2 r3 5,
    .add r2 r2 r7,
    .lsrImm r7 r3 27,
    .add r2 r2 r7,
    .add r2 r2 r1,
    .movPc lr]
  | .Lrotate => [
    .mov r7 r6,
    .mov r6 r5,
    .lslImm r5 r4 30,
    .lsrImm r4 r4 2,
    .orr r5 r4,
    .mov r4 r3,
    .add r3 r2 r1,
    .movPc lr]

/-- The labels in the order of the text. -/
def labels : List Label :=
  [.sha1BlockDataOrder, .Lloop, .LXload, .LXupdate, .L_00_19, .L_20_39_or_60_79, .L_40_59, .Ldone,
    .Lexit, .Lcommon, .Lrotate]

/-- The routine at an address. -/
def program (origin : Word) : Program Label := ⟨origin, labels.map fun l => (l, code l)⟩

end Sha1

end Laureline
