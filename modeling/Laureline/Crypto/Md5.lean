import Laureline.Crypto.Md32

/-!
# MD5

`md5_block_data_order` is 64 steps written one after the other, with the words of the block read
two steps ahead. The variables stay where they are and the steps go around them, where the
algorithm has one step, of which the variables move on; `pass_eq` says that the two agree.
-/

namespace Laureline

namespace Md5

open Md32 BlockHash

/-- The chaining variables. -/
structure Vars where
  a : Word
  b : Word
  c : Word
  d : Word
deriving DecidableEq, Repr

/-! ### The algorithm -/

/-- The function of a step. -/
def f (i : ℕ) (b c d : Word) : Word :=
  if i < 16 then (b &&& c) ||| (~~~b &&& d)
  else if i < 32 then (d &&& b) ||| (~~~d &&& c)
  else if i < 48 then b ^^^ c ^^^ d
  else c ^^^ (b ||| ~~~d)

/-- The word of a step. -/
def g (i : ℕ) : ℕ :=
  if i < 16 then i
  else if i < 32 then (5 * i + 1) % 16
  else if i < 48 then (3 * i + 5) % 16
  else 7 * i % 16

/-- The rotation of a step. -/
def shift (i : ℕ) : ℕ :=
  (([[7, 12, 17, 22], [5, 9, 14, 20], [4, 11, 16, 23], [6, 10, 15, 21]].getD (i / 16) []).getD
    (i % 4) 0)

/-- The constants, the first 32 bits behind the point of the sines of 1 to 64. -/
def sines : List Word := [
  0xd76aa478, 0xe8c7b756, 0x242070db, 0xc1bdceee, 0xf57c0faf, 0x4787c62a,
  0xa8304613, 0xfd469501, 0x698098d8, 0x8b44f7af, 0xffff5bb1, 0x895cd7be,
  0x6b901122, 0xfd987193, 0xa679438e, 0x49b40821, 0xf61e2562, 0xc040b340,
  0x265e5a51, 0xe9b6c7aa, 0xd62f105d, 0x02441453, 0xd8a1e681, 0xe7d3fbc8,
  0x21e1cde6, 0xc33707d6, 0xf4d50d87, 0x455a14ed, 0xa9e3e905, 0xfcefa3f8,
  0x676f02d9, 0x8d2a4c8a, 0xfffa3942, 0x8771f681, 0x6d9d6122, 0xfde5380c,
  0xa4beea44, 0x4bdecfa9, 0xf6bb4b60, 0xbebfbc70, 0x289b7ec6, 0xeaa127fa,
  0xd4ef3085, 0x04881d05, 0xd9d4d039, 0xe6db99e5, 0x1fa27cf8, 0xc4ac5665,
  0xf4292244, 0x432aff97, 0xab9423a7, 0xfc93a039, 0x655b59c3, 0x8f0ccc92,
  0xffeff47d, 0x85845dd1, 0x6fa87e4f, 0xfe2ce6e0, 0xa3014314, 0x4e0811a1,
  0xf7537e82, 0xbd3af235, 0x2ad7d2bb, 0xeb86d391]

/-- A step. -/
def step (m : ℕ → Word) (i : ℕ) (v : Vars) : Vars where
  a := v.d
  b := v.b + (v.a + f i v.b v.c v.d + sines.getD i 0 + m (g i)).rotateLeft (shift i)
  c := v.b
  d := v.c

/-- The first steps. -/
def steps (m : ℕ → Word) : ℕ → Vars → Vars
  | 0, v => v
  | i + 1, v => step m i (steps m i v)

/-- The chaining variables after a block with the words `m`. -/
def compress (m : ℕ → Word) (h : Vars) : Vars :=
  let v := steps m 64 h
  ⟨h.a + v.a, h.b + v.b, h.c + v.c, h.d + v.d⟩

/-- The words of a block of bytes. -/
def words (block : List UInt8) (t : ℕ) : Word := hostC2l .little (block.drop (4 * t))

/-! ### `md5_block_data_order` -/

/-- The local variables that the macros of a step take. -/
inductive Reg
  | A | B | C | D
deriving DecidableEq, Repr

/-- The macros of `md5_locl.h` for a step. -/
inductive Macro
  | R0 | R1 | R2 | R3
deriving DecidableEq, Repr

/-- A statement of a pass. -/
inductive Op
  /-- `HOST_c2l(data,l); X(k)=l;` -/
  | load (k : ℕ)
  | step (r : Macro) (a b c d : Reg) (k s : ℕ) (t : Word)
deriving DecidableEq, Repr

/-- `ROTATE`. -/
def rotate (a : Word) (n : ℕ) : Word := a <<< n ||| a >>> (32 - n)

/-- The functions `F`, `G`, `H` and `I`. -/
def Macro.fn (b c d : Word) : Macro → Word
  | .R0 => ((c ^^^ d) &&& b) ^^^ d
  | .R1 => ((b ^^^ c) &&& d) ^^^ c
  | .R2 => b ^^^ c ^^^ d
  | .R3 => (~~~d ||| b) ^^^ c

/-- The local variables. -/
structure Locals where
  A : Word
  B : Word
  C : Word
  D : Word
  X : ℕ → Word
  data : List UInt8

namespace Locals

/-- The value of a variable. -/
def get (s : Locals) : Reg → Word
  | .A => s.A | .B => s.B | .C => s.C | .D => s.D

/-- An assignment. -/
def set (s : Locals) (v : Word) : Reg → Locals
  | .A => { s with A := v } | .B => { s with B := v } | .C => { s with C := v }
  | .D => { s with D := v }

@[simp] theorem X_set (s : Locals) (v : Word) (r : Reg) : (s.set v r).X = s.X := by
  cases r <;> rfl

@[simp] theorem data_set (s : Locals) (v : Word) (r : Reg) : (s.set v r).data = s.data := by
  cases r <;> rfl

@[simp] theorem get_with_X (s : Locals) (X : ℕ → Word) (data : List UInt8) (r : Reg) :
    { s with X, data }.get r = s.get r := by
  cases r <;> rfl

end Locals

/-- The effect of a statement. -/
def Op.exec (s : Locals) : Op → Locals
  | .load k => { s with X := Function.update s.X k (hostC2l .little s.data), data := s.data.drop 4 }
  | .step r a b c d k n t =>
    let v := s.get a + (s.X k + t + r.fn (s.get b) (s.get c) (s.get d))
    s.set (rotate v n + s.get b) a

/-- The statements of a pass. -/
def text : List Op := [
  .load 0, .load 1,
  .step .R0 .A .B .C .D 0 7 0xd76aa478, .load 2,
  .step .R0 .D .A .B .C 1 12 0xe8c7b756, .load 3,
  .step .R0 .C .D .A .B 2 17 0x242070db, .load 4,
  .step .R0 .B .C .D .A 3 22 0xc1bdceee, .load 5,
  .step .R0 .A .B .C .D 4 7 0xf57c0faf, .load 6,
  .step .R0 .D .A .B .C 5 12 0x4787c62a, .load 7,
  .step .R0 .C .D .A .B 6 17 0xa8304613, .load 8,
  .step .R0 .B .C .D .A 7 22 0xfd469501, .load 9,
  .step .R0 .A .B .C .D 8 7 0x698098d8, .load 10,
  .step .R0 .D .A .B .C 9 12 0x8b44f7af, .load 11,
  .step .R0 .C .D .A .B 10 17 0xffff5bb1, .load 12,
  .step .R0 .B .C .D .A 11 22 0x895cd7be, .load 13,
  .step .R0 .A .B .C .D 12 7 0x6b901122, .load 14,
  .step .R0 .D .A .B .C 13 12 0xfd987193, .load 15,
  .step .R0 .C .D .A .B 14 17 0xa679438e,
  .step .R0 .B .C .D .A 15 22 0x49b40821,
  .step .R1 .A .B .C .D 1 5 0xf61e2562,
  .step .R1 .D .A .B .C 6 9 0xc040b340,
  .step .R1 .C .D .A .B 11 14 0x265e5a51,
  .step .R1 .B .C .D .A 0 20 0xe9b6c7aa,
  .step .R1 .A .B .C .D 5 5 0xd62f105d,
  .step .R1 .D .A .B .C 10 9 0x02441453,
  .step .R1 .C .D .A .B 15 14 0xd8a1e681,
  .step .R1 .B .C .D .A 4 20 0xe7d3fbc8,
  .step .R1 .A .B .C .D 9 5 0x21e1cde6,
  .step .R1 .D .A .B .C 14 9 0xc33707d6,
  .step .R1 .C .D .A .B 3 14 0xf4d50d87,
  .step .R1 .B .C .D .A 8 20 0x455a14ed,
  .step .R1 .A .B .C .D 13 5 0xa9e3e905,
  .step .R1 .D .A .B .C 2 9 0xfcefa3f8,
  .step .R1 .C .D .A .B 7 14 0x676f02d9,
  .step .R1 .B .C .D .A 12 20 0x8d2a4c8a,
  .step .R2 .A .B .C .D 5 4 0xfffa3942,
  .step .R2 .D .A .B .C 8 11 0x8771f681,
  .step .R2 .C .D .A .B 11 16 0x6d9d6122,
  .step .R2 .B .C .D .A 14 23 0xfde5380c,
  .step .R2 .A .B .C .D 1 4 0xa4beea44,
  .step .R2 .D .A .B .C 4 11 0x4bdecfa9,
  .step .R2 .C .D .A .B 7 16 0xf6bb4b60,
  .step .R2 .B .C .D .A 10 23 0xbebfbc70,
  .step .R2 .A .B .C .D 13 4 0x289b7ec6,
  .step .R2 .D .A .B .C 0 11 0xeaa127fa,
  .step .R2 .C .D .A .B 3 16 0xd4ef3085,
  .step .R2 .B .C .D .A 6 23 0x04881d05,
  .step .R2 .A .B .C .D 9 4 0xd9d4d039,
  .step .R2 .D .A .B .C 12 11 0xe6db99e5,
  .step .R2 .C .D .A .B 15 16 0x1fa27cf8,
  .step .R2 .B .C .D .A 2 23 0xc4ac5665,
  .step .R3 .A .B .C .D 0 6 0xf4292244,
  .step .R3 .D .A .B .C 7 10 0x432aff97,
  .step .R3 .C .D .A .B 14 15 0xab9423a7,
  .step .R3 .B .C .D .A 5 21 0xfc93a039,
  .step .R3 .A .B .C .D 12 6 0x655b59c3,
  .step .R3 .D .A .B .C 3 10 0x8f0ccc92,
  .step .R3 .C .D .A .B 10 15 0xffeff47d,
  .step .R3 .B .C .D .A 1 21 0x85845dd1,
  .step .R3 .A .B .C .D 8 6 0x6fa87e4f,
  .step .R3 .D .A .B .C 15 10 0xfe2ce6e0,
  .step .R3 .C .D .A .B 6 15 0xa3014314,
  .step .R3 .B .C .D .A 13 21 0x4e0811a1,
  .step .R3 .A .B .C .D 4 6 0xf7537e82,
  .step .R3 .D .A .B .C 11 10 0xbd3af235,
  .step .R3 .C .D .A .B 2 15 0x2ad7d2bb,
  .step .R3 .B .C .D .A 9 21 0xeb86d391]

/-- A pass of the loop. -/
@[irreducible] def pass (c : Vars) (data : List UInt8) : Locals :=
  text.foldl Op.exec ⟨c.a, c.b, c.c, c.d, fun _ => 0, data⟩

/-- `md5_block_data_order`. -/
def md5BlockDataOrder : Vars → List UInt8 → ℕ → Vars
  | c, _, 0 => c
  | c, data, num + 1 =>
    let s := pass c data
    md5BlockDataOrder ⟨c.a + s.A, c.b + s.B, c.c + s.C, c.d + s.D⟩ s.data num

/-! ### The steps go around the variables -/

section Steps

theorem choose_eq (b c d : Word) : ((c ^^^ d) &&& b) ^^^ d = (b &&& c) ||| (~~~b &&& d) := by
  apply BitVec.eq_of_getLsbD_eq
  intro i hi
  simp only [BitVec.getLsbD_xor, BitVec.getLsbD_and, BitVec.getLsbD_or, BitVec.getLsbD_not]
  cases b.getLsbD i <;> cases c.getLsbD i <;> cases d.getLsbD i <;> simp [hi]

/-- The macro of a step. -/
def macroOf (i : ℕ) : Macro :=
  if i < 16 then .R0 else if i < 32 then .R1 else if i < 48 then .R2 else .R3

theorem fn_macroOf (i : ℕ) (b c d : Word) : (macroOf i).fn b c d = f i b c d := by
  unfold macroOf f
  split_ifs
  -- the macros save an operation against the text of the algorithm
  · exact choose_eq b c d
  · exact choose_eq d b c
  · rfl
  · show (~~~d ||| b) ^^^ c = _
    rw [BitVec.xor_comm, BitVec.or_comm]

/-- The registers of a step. -/
def regs (i : ℕ) : Reg × Reg × Reg × Reg :=
  match i % 4 with
  | 0 => (.A, .B, .C, .D)
  | 1 => (.D, .A, .B, .C)
  | 2 => (.C, .D, .A, .B)
  | _ => (.B, .C, .D, .A)

/-- The variables after `i` steps. -/
def view (i : ℕ) (s : Locals) : Vars :=
  let r := regs i
  ⟨s.get r.1, s.get r.2.1, s.get r.2.2.1, s.get r.2.2.2⟩

/-- The statement for a step. -/
def stepOp (i : ℕ) : Op :=
  let r := regs i
  .step (macroOf i) r.1 r.2.1 r.2.2.1 r.2.2.2 (g i) (shift i) (sines.getD i 0)

theorem regs_cases (i : ℕ) :
    regs i = (.A, .B, .C, .D) ∧ regs (i + 1) = (.D, .A, .B, .C) ∨
    regs i = (.D, .A, .B, .C) ∧ regs (i + 1) = (.C, .D, .A, .B) ∨
    regs i = (.C, .D, .A, .B) ∧ regs (i + 1) = (.B, .C, .D, .A) ∨
    regs i = (.B, .C, .D, .A) ∧ regs (i + 1) = (.A, .B, .C, .D) := by
  have h_mod : i % 4 = 0 ∨ i % 4 = 1 ∨ i % 4 = 2 ∨ i % 4 = 3 := by omega
  unfold regs
  obtain h | h | h | h := h_mod
  · simp [h, Nat.add_mod]
  · simp [h, Nat.add_mod]
  · simp [h, Nat.add_mod]
  · simp [h, Nat.add_mod]

theorem shift_lt (i : ℕ) : shift i < 32 := by
  have h_table (a b : ℕ) : ([[7, 12, 17, 22], [5, 9, 14, 20], [4, 11, 16, 23],
      [6, 10, 15, 21]].getD a []).getD b 0 < 32 := by
    rcases a with _ | _ | _ | _ | a <;> rcases b with _ | _ | _ | _ | b <;> simp
  exact h_table (i / 16) (i % 4)

theorem rotate_eq {n : ℕ} (a : Word) (hn : n < 32) : rotate a n = a.rotateLeft n := by
  rw [BitVec.rotateLeft_def, Nat.mod_eq_of_lt hn, rotate]

/-- **One step.** -/
theorem view_stepOp {m : ℕ → Word} {i : ℕ} {s : Locals} (h : s.X (g i) = m (g i)) :
    view (i + 1) ((stepOp i).exec s) = step m i (view i s) := by
  -- what the macro stores is the new value of the step
  have h_value (a b c d : Word) :
      rotate (a + (s.X (g i) + sines.getD i 0 + (macroOf i).fn b c d)) (shift i) + b =
        b + (a + f i b c d + sines.getD i 0 + m (g i)).rotateLeft (shift i) := by
    rw [rotate_eq _ (shift_lt i), fn_macroOf, h, BitVec.add_comm b]
    congr 2
    ac_rfl
  unfold view stepOp step
  -- the step writes one register, which is the second variable of the next view
  obtain ⟨h_i, h_succ⟩ | ⟨h_i, h_succ⟩ | ⟨h_i, h_succ⟩ | ⟨h_i, h_succ⟩ := regs_cases i
  all_goals
    rw [h_i, h_succ]
    simp only [Op.exec, Locals.get, Locals.set, h_value]

theorem X_stepOp (i : ℕ) (s : Locals) : ((stepOp i).exec s).X = s.X := s.X_set ..

theorem data_stepOp (i : ℕ) (s : Locals) : ((stepOp i).exec s).data = s.data := s.data_set ..

/-- Behind `n` loads and `i` steps the statements are the loads that are left, in their order,
and the steps that are left, each behind the load of its word. -/
def InOrder : ℕ → ℕ → List Op → Bool
  | n, i, [] => n == 16 && i == 64
  | n, i, .load k :: ops => k == n && InOrder (n + 1) i ops
  | n, i, op :: ops => op == stepOp i && g i < n && InOrder n (i + 1) ops

/-- After `n` loads and `i` steps. -/
structure After (c : Vars) (block : List UInt8) (n i : ℕ) (s : Locals) : Prop where
  X : ∀ k < n, s.X k = words block k
  data : s.data = block.drop (4 * n)
  view : view i s = steps (words block) i c

theorem After.run {c : Vars} {block : List UInt8} {n i : ℕ} {s : Locals} {ops : List Op}
    (h : After c block n i s) (h_ops : InOrder n i ops) :
    After c block 16 64 (ops.foldl Op.exec s) := by
  -- the statements come in order: a load for the next word, a step once its word is there
  induction ops generalizing n i s with
  | nil =>
    obtain ⟨rfl, rfl⟩ : n = 16 ∧ i = 64 := by simpa [InOrder] using h_ops
    exact h
  | cons op ops ih =>
    cases op with
    | load k =>
      obtain ⟨rfl, h_rest⟩ : k = n ∧ InOrder (n + 1) i ops := by simpa [InOrder] using h_ops
      refine ih ⟨fun j hj => ?_, ?_, ?_⟩ h_rest
      · show Function.update s.X k (hostC2l .little s.data) j = _
        -- the new word is the one in front of `data`
        by_cases h_eq : j = k
        · rw [h_eq, Function.update_self, h.data, words]
        · rw [Function.update_of_ne h_eq, h.X j (by omega)]
      · show s.data.drop 4 = _
        rw [h.data, List.drop_drop, Nat.mul_succ]
      · rw [← h.view]
        simp only [Md5.view, Op.exec, Locals.get_with_X]
    | step r a b c d k t w =>
      obtain ⟨⟨h_op, h_g⟩, h_rest⟩ : (Op.step r a b c d k t w = stepOp i ∧ g i < n) ∧
          InOrder n (i + 1) ops := by simpa [InOrder] using h_ops
      rw [List.foldl_cons, h_op]
      refine ih ⟨fun j hj => ?_, ?_, ?_⟩ h_rest
      · rw [X_stepOp, h.X j hj]
      · rw [data_stepOp, h.data]
      · rw [view_stepOp (h.X _ h_g), h.view, steps]

theorem inOrder_text : InOrder 0 0 text := by decide

/-- **A pass** computes the algorithm's function of the next block, and goes on to the block
behind it. -/
theorem pass_spec (c : Vars) (data : List UInt8) :
    After c data 16 64 (pass c data) := by
  unfold pass
  exact After.run ⟨fun _ hk => absurd hk (Nat.not_lt_zero _), rfl, rfl⟩ inOrder_text

theorem words_take {block : List UInt8} {t : ℕ} (ht : t < 16) :
    words (block.take cblock) t = words block t := by
  have h_byte (k : ℕ) (hk : k < 4) :
      ((block.take cblock).drop (4 * t)).getD k 0 = (block.drop (4 * t)).getD k 0 := by
    have h_lt : 4 * t + k < cblock := show 4 * t + k < 64 by omega
    rw [List.getD_eq_getElem?_getD, List.getD_eq_getElem?_getD, List.getElem?_drop,
      List.getElem?_drop, List.getElem?_take_of_lt h_lt]
  simp only [words, hostC2l, h_byte 0 (by decide), h_byte 1 (by decide), h_byte 2 (by decide),
    h_byte 3 (by decide)]

theorem g_lt (i : ℕ) : g i < 16 := by
  unfold g
  split_ifs <;> omega

/-- The steps depend on 16 words. -/
theorem steps_congr {m m' : ℕ → Word} (h : ∀ t < 16, m t = m' t) (i : ℕ) (v : Vars) :
    steps m i v = steps m' i v := by
  induction i with
  | zero => rfl
  | succ i ih => rw [steps, steps, ih, step, step, h _ (g_lt i)]

/-- **The blocks of a text.** -/
theorem md5BlockDataOrder_eq (c : Vars) {data : List UInt8} {num : ℕ}
    (h : cblock * num ≤ data.length) : md5BlockDataOrder c data num =
      blocks (fun v block => compress (words block) v) cblock c data num := by
  induction num generalizing c data with
  | zero => rw [md5BlockDataOrder, blocks]
  | succ num ih =>
    rw [Nat.mul_succ] at h
    have h_pass := pass_spec c data
    have h_steps (v : Vars) : steps (words (data.take cblock)) 64 v = steps (words data) 64 v :=
      steps_congr (fun t ht => words_take ht) 64 v
    have h_cblock : 4 * 16 = cblock := rfl
    rw [blocks_succ (by omega), md5BlockDataOrder, h_pass.data, h_cblock,
      ih _ (by rw [List.length_drop]; omega), compress, h_steps, ← h_pass.view]
    rfl

end Steps

/-! ### The digest -/

/-- What `md5_dgst.c` defines. -/
def alg : Alg Vars where
  order := .little
  init := ⟨0x67452301, 0xefcdab89, 0x98badcfe, 0x10325476⟩
  blockDataOrder := md5BlockDataOrder
  block v data := compress (words data) v
  blockDataOrder_eq v _ _ h := md5BlockDataOrder_eq v h
  words h := [h.a, h.b, h.c, h.d]

/-- **MD5.** `MD5_Init`, any number of calls of `MD5_Update` and `MD5_Final`, with the steps
written one after the other, give the digest of the whole message, and leave no byte of it in
the buffer. -/
theorem md5_pieces {pieces : List (List UInt8)} (h : ∀ xs ∈ pieces, xs.length < 2 ^ 32) :
    let c := pieces.foldl (update alg) (Md32.init alg)
    (final alg c).1 = hash alg pieces.flatten ∧ (final alg c).2.num = 0 ∧
      (final alg c).2.data = List.replicate cblock 0 :=
  final_holds (foldl_update_holds (init_holds alg) h)

theorem md5_pieces_abc :
    (final alg ([[0x61], [], [0x62, 0x63]].foldl (update alg) (Md32.init alg))).1 =
      makeString alg ⟨0x98500190, 0xb04fd23c, 0x7d3f96d6, 0x727fe128⟩ := by
  have h_short : ∀ xs ∈ [[0x61], [], [(0x62 : UInt8), 0x63]], xs.length < 2 ^ 32 := by
    simp
  have h_hash : hash alg [[0x61], [], [0x62, 0x63]].flatten =
      makeString alg ⟨0x98500190, 0xb04fd23c, 0x7d3f96d6, 0x727fe128⟩ := by
    decide +kernel
  exact (md5_pieces h_short).1.trans h_hash

end Md5

end Laureline
