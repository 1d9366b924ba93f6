import Laureline.Crypto.Sha1
import Mathlib.Data.BitVec

/-!
# SHA-1 in Thumb code

`sha1_block_data_order` of `sha1_thumb.s` computes the compression function: called with the
address of a context, of a text of at least one block and the number of its blocks, it comes
back to its caller with the chaining value of the context taken through all the blocks.

A block takes four passes over the frame of 80 words below `T`, where the word `t` of the
schedule has the number `T - 1 - t`. Each loop has its invariant: `Load`, `Update`, `Round`.
-/

namespace Laureline

namespace Sha1

open Thumb Thumb.Program

/-! ### The operations -/

section Word

variable (a b c d x : Word)

theorem shiftLeft_or_shiftRight_five : a <<< 5 + x + a >>> 27 = a.rotateLeft 5 + x := by
  have h_disjoint : a <<< 5 &&& a >>> 27 = 0 := by
    ext i hi
    simp only [BitVec.getElem_and, BitVec.getElem_shiftLeft, BitVec.getElem_ushiftRight]
    grind
  rw [add_right_comm, BitVec.add_eq_or_of_and_eq_zero _ _ h_disjoint]
  rfl

theorem shiftLeft_or_shiftRight_thirty : b <<< 30 ||| b >>> 2 = b.rotateLeft 30 := rfl

theorem rotateRight_thirtyOne : x.rotateRight 31 = x.rotateLeft 1 := by
  rw [BitVec.rotateRight_def, BitVec.rotateLeft_def, BitVec.or_comm]

theorem choose_eq : ((c ^^^ d) &&& b) ^^^ d = choose b c d := by
  apply BitVec.eq_of_getLsbD_eq
  intro i hi
  simp only [choose, BitVec.getLsbD_xor, BitVec.getLsbD_and, BitVec.getLsbD_or, BitVec.getLsbD_not]
  cases b.getLsbD i <;> cases c.getLsbD i <;> cases d.getLsbD i <;> simp [hi]

theorem majority_eq : (b &&& c) ||| ((b ||| c) &&& d) = majority b c d := by
  apply BitVec.eq_of_getLsbD_eq
  intro i hi
  simp only [majority, BitVec.getLsbD_and, BitVec.getLsbD_or]
  cases b.getLsbD i <;> cases c.getLsbD i <;> cases d.getLsbD i <;> rfl

end Word

/-- The constant is the same for 20 rounds. -/
theorem k_eq {n i : ℕ} (hn : n ∈ [20, 40, 60, 80]) (h_ge : n - 20 ≤ i) (h_lt : i < n) :
    k (n - 20) = k i := by
  simp only [List.mem_cons, List.not_mem_nil, or_false] at hn
  obtain rfl | rfl | rfl | rfl := hn <;> (unfold k; grind)

/-! ### A block -/

/-- A big-endian word. -/
def beWord (mem : ℕ → Word) (a : Word) : Word :=
  byteAt mem (a + 0#32) <<< 24 ||| byteAt mem (a + 1#32) <<< 16 ||| byteAt mem (a + 2#32) <<< 8 |||
    byteAt mem (a + 3#32)

/-- The words of a block. -/
def blockAt (mem : ℕ → Word) (a : Word) (t : ℕ) : Word := beWord mem (a + .ofNat 32 (4 * t))

theorem blockAt_congr {mem mem' : ℕ → Word} {a : Word}
    (h : ∀ i < 64, mem ((a + .ofNat 32 i).toNat / 4) = mem' ((a + .ofNat 32 i).toNat / 4)) {t : ℕ}
    (ht : t < 16) : blockAt mem a t = blockAt mem' a t := by
  have h_byte (j : ℕ) (hj : j < 4) : byteAt mem (a + .ofNat 32 (4 * t) + .ofNat 32 j) =
      byteAt mem' (a + .ofNat 32 (4 * t) + .ofNat 32 j) := by
    rw [BitVec.add_assoc, ← BitVec.ofNat_add]
    unfold byteAt
    rw [h _ (by omega)]
  unfold blockAt beWord
  rw [h_byte 0 (by decide), h_byte 1 (by decide), h_byte 2 (by decide), h_byte 3 (by decide)]

/-- The chaining value in a context. -/
def contextAt (mem : ℕ → Word) (n : ℕ) : Vars :=
  ⟨mem n, mem (n + 1), mem (n + 2), mem (n + 3), mem (n + 4)⟩

theorem contextAt_update (mem : ℕ → Word) (n : ℕ) (a b c d e : Word) :
    contextAt (Function.update (Function.update (Function.update (Function.update (Function.update
      mem n a) (n + 1) b) (n + 2) c) (n + 3) d) (n + 4) e) n = ⟨a, b, c, d, e⟩ := by
  simp [contextAt]

theorem compress_of_rounds {m : ℕ → Word} {h v : Vars} (hv : rounds m 80 h = v) :
    compress m h = ⟨v.a + h.a, v.b + h.b, v.c + h.c, v.d + h.d, v.e + h.e⟩ := by
  rw [compress, hv]
  simp only [BitVec.add_comm]

/-- What stays while a block is worked on: the context `c`, the end of the text, and the memory
`M` outside of the frame below `T`. -/
structure Block where
  c : ℕ
  T : ℕ
  a : Word
  stop : Word
  M : ℕ → Word
  le_T : 80 ≤ T
  T_lt : T < 2 ^ 30
  c_lt : c + 4 < 2 ^ 30
  /-- The context is not in the frame. -/
  context : ∀ i < 5, c + i < T - 80 ∨ T ≤ c + i
  /-- Neither is the text. -/
  text : ∀ i < 64, (a + .ofNat 32 i).toNat / 4 < T - 80 ∨ T ≤ (a + .ofNat 32 i).toNat / 4

namespace Block

variable (B : Block)

/-- The words of the block. -/
def m : ℕ → Word := blockAt B.M B.a

/-- The chaining value before the block. -/
def hash : Vars := contextAt B.M B.c

/-- At `.Lloop`. -/
structure Start (s : State) : Prop where
  sp : s.sp = ptr B.T
  r0 : s.r0 = ptr B.c
  r1 : s.r1 = B.a
  r9 : s.r9 = ptr B.c
  r11 : s.r11 = B.stop
  mem : s.mem = B.M

/-- The first `i` words of the schedule are in the frame, and `sp` is below them. -/
structure Frame (i : ℕ) (s : State) : Prop where
  sp : s.sp = ptr (B.T - i)
  words : ∀ t < i, s.mem (B.T - 1 - t) = w B.m t
  mem : ∀ n, n < B.T - 80 ∨ B.T ≤ n → s.mem n = B.M n
  r9 : s.r9 = ptr B.c
  r11 : s.r11 = B.stop

/-- At `.LXload`, with `i` words done. -/
structure Load (i : ℕ) (s : State) : Prop extends B.Frame i s where
  r0 : s.r0 = ptr B.c
  r1 : s.r1 = B.a + .ofNat 32 (4 * i)
  r2 : s.r2 = ptr (B.T - 16)
  r12 : s.r12 = ptr B.T

/-- At `.LXupdate`, with `i` words done. -/
structure Update (i : ℕ) (s : State) : Prop extends B.Frame i s where
  r0 : s.r0 = ptr B.c
  r2 : s.r2 = ptr (B.T - 80)
  r7 : s.r7 = 31#32
  r10 : s.r10 = B.a + .ofNat 32 64
  r12 : s.r12 = ptr B.T

/-- The variables are in `r3` to `r7`. -/
def vars (s : State) : Vars := ⟨s.r3, s.r4, s.r5, s.r6, s.r7⟩

/-- After `i` rounds, in the rounds up to `n`. -/
structure Round (n i : ℕ) (s : State) : Prop extends B.Frame 80 s where
  vars : vars s = rounds B.m i B.hash
  r0 : s.r0 = ptr (B.T - i)
  r8 : s.r8 = k (n - 20)
  r10 : s.r10 = B.a + .ofNat 32 64
  r12 : s.r12 = ptr (B.T - n)

/-- The block is done. -/
structure Done (s : State) : Prop where
  sp : s.sp = ptr B.T
  r0 : s.r0 = ptr B.c
  r1 : s.r1 = B.a + .ofNat 32 64
  r9 : s.r9 = ptr B.c
  r11 : s.r11 = B.stop
  z : s.z = some (B.a + .ofNat 32 64 == B.stop)
  hash : contextAt s.mem B.c = compress B.m B.hash
  mem : ∀ n, n < B.T - 80 ∨ B.T ≤ n → n < B.c ∨ B.c + 5 ≤ n → s.mem n = B.M n

end Block

section Passes

variable {B : Block} {o : Word} {s : State}

/-- One more word is pushed. -/
theorem Block.Frame.push {i : ℕ} {s' : State} (h : B.Frame i s) (hi : i < 80)
    (h_sp : s'.sp = ptr (B.T - (i + 1)))
    (h_mem : s'.mem = Function.update s.mem (B.T - (i + 1)) (w B.m i))
    (h_r9 : s'.r9 = s.r9) (h_r11 : s'.r11 = s.r11) : B.Frame (i + 1) s' where
  sp := h_sp
  words t ht := by
    have h_T := B.le_T
    rw [h_mem]
    -- the new word goes below the last one, and the older ones keep their places
    by_cases h_eq : t = i
    · rw [h_eq, show B.T - 1 - i = B.T - (i + 1) by omega, Function.update_self]
    · rw [Function.update_of_ne (by omega)]
      exact h.words t (by omega)
  mem n hn := by
    have h_T := B.le_T
    rw [h_mem, Function.update_of_ne (by omega)]
    exact h.mem n hn
  r9 := h_r9.trans h.r9
  r11 := h_r11.trans h.r11

/-- The text is beside the frame. -/
theorem Block.Frame.blockAt_eq {i t : ℕ} (h : B.Frame i s) (ht : t < 16) :
    blockAt s.mem B.a t = B.m t :=
  blockAt_congr (fun j hj => h.mem _ (B.text j hj)) ht

theorem fetch_program {h : ℕ} {i : Instr Label} (hi : fetchIn (program 0).code h = some i) :
    fetchIn (program o).code h = some i := hi

theorem codeAt_program {h : ℕ} {c : List (Instr Label)} (hc : CodeAt (program 0).code h c) :
    CodeAt (program o).code h c := hc

theorem halfwords_program (o : Word) : halfwords (program o).code = 142 := by
  have h_zero : halfwords (program 0).code = 142 := by decide +kernel
  exact h_zero

theorem load_start : (program o).Leads (.place 12) B.Start (.place 15) (B.Load 0) := by
  have h_T := B.le_T
  have h_sub : ptr B.T - 64#32 = ptr (B.T - 16) := ptr_sub (k := 16) (by omega)
  refine Leads.straight (codeAt_program (c := Sha1.code .Lloop) (by decide)) fun s h => ?_
  simp only [Sha1.code, execAll, Instr.exec, State.put, State.get, State.set, Option.bind_some,
    Nat.reduceMul, h.sp, h_sub]
  have h_a : s.r1 = B.a + .ofNat 32 (4 * 0) := h.r1.trans (BitVec.add_zero _).symm
  exact ⟨_, rfl, ⟨⟨rfl, fun _ ht => absurd ht (Nat.not_lt_zero _), fun _ _ => congrFun h.mem _,
    h.r9, h.r11⟩, h.r0, h_a, rfl, rfl⟩⟩

theorem load_body {i : ℕ} (hi : i < 16) :
    (program o).Leads (.place 15) (B.Load i) (.place 28)
      fun s => B.Load (i + 1) s ∧ s.z = some (i + 1 == 16) := by
  have h_T := B.le_T
  have h_lt := B.T_lt
  have h_store : B.T - (i + 1) < 2 ^ 30 := by omega
  have h_sub : ptr (B.T - i) - 4#32 = ptr (B.T - (i + 1)) := by
    rw [ptr_sub_four (by omega), Nat.sub_sub]
  -- the thirteen instructions before the branch
  refine Leads.straight (codeAt_program (c := (Sha1.code .LXload).take 13) (by decide))
    fun s h => ?_
  simp only [Sha1.code, List.take_succ_cons, List.take_zero, execAll, Instr.exec, State.put,
      State.get, State.set, Option.bind_some, Option.map_some, State.storeAll, List.length_cons,
      List.length_nil, Nat.reduceAdd, Nat.reduceMul, h.sp, h_sub, storeWord_ptr _ _ h_store]
  -- `r1` is at the word of the text, which is stored below the last one
  have h_word : beWord s.mem s.r1 = w B.m i := by
    rw [w_of_lt hi, ← h.blockAt_eq hi, h.r1]
    rfl
  refine ⟨_, rfl, ⟨h.push (by omega) rfl ?_ rfl rfl, h.r0, ?_, h.r2, h.r12⟩, ?_⟩
  · rw [← h_word]
    rfl
  · show s.r1 + 4#32 = _
    rw [h.r1, BitVec.add_assoc, ← BitVec.ofNat_add]
    rfl
  -- `sp` reaches `r2` with the last word
  · show some (ptr (B.T - (i + 1)) == s.r2) = _
    rw [h.r2, ptr_beq (by omega) (by omega)]
    congr 1
    rw [Bool.eq_iff_iff, beq_iff_eq, beq_iff_eq]
    omega

theorem load_pass : (program o).Leads (.place 15) (B.Load 0) (.place 29) (B.Load 16) :=
  Leads.bneLoop (l := .LXload) (by decide) (fetch_program (by decide)) fun _ _ hi => load_body hi

theorem load_end : (program o).Leads (.place 29) (B.Load 16) (.place 33) (B.Update 16) := by
  have h_T := B.le_T
  refine Leads.straight (codeAt_program (c := ((Sha1.code .LXload).drop 14).take 4) (by decide))
    fun s h => ?_
  simp only [Sha1.code, List.drop_succ_cons, List.drop_zero, List.take_succ_cons, List.take_zero,
    execAll, Instr.exec, State.put, State.get, State.set, Option.bind_some]
  refine ⟨_, rfl, ⟨⟨h.sp, h.words, h.mem, h.r9, h.r11⟩, h.r0, ?_, rfl, h.r1, h.r12⟩⟩
  -- the end of the second loop is 64 words below that of the first
  show s.r2 - .ofNat 32 (4 * 32) - .ofNat 32 (4 * 32) = _
  rw [h.r2, ptr_sub (by omega), ptr_sub (by omega)]
  congr 1

theorem update_body {i : ℕ} (h_ge : 16 ≤ i) (hi : i < 80) :
    (program o).Leads (.place 33) (B.Update i) (.place 43)
      fun s => B.Update (i + 1) s ∧ s.z = some (i + 1 == 80) := by
  have h_T := B.le_T
  have h_lt := B.T_lt
  have h_store : B.T - (i + 1) < 2 ^ 30 := by omega
  have h_sub : ptr (B.T - i) - 4#32 = ptr (B.T - (i + 1)) := by
    rw [ptr_sub_four (by omega), Nat.sub_sub]
  refine Leads.straight (codeAt_program (c := (Sha1.code .LXupdate).take 10) (by decide))
    fun s h => ?_
  -- the word `j + 1` places back in the schedule
  have h_load (j : ℕ) (hj : j < i) (n : ℕ) (hn : n = 4 * j) :
      loadWord s.mem (ptr (B.T - i) + .ofNat 32 n) = some (w B.m (i - 1 - j)) := by
    rw [hn, ptr_add, loadWord_ptr _ (by omega), ← h.words (i - 1 - j) (by omega)]
    congr 2
    omega
  have h_3 := h_load 2 (by omega) _ rfl
  have h_8 := h_load 7 (by omega) _ rfl
  have h_14 := h_load 13 (by omega) _ rfl
  have h_16 := h_load 15 (by omega) _ rfl
  -- a rotation by 31 to the right is one by 1 to the left
  have h_word : (w B.m (i - 1 - 15) ^^^ w B.m (i - 1 - 13) ^^^ w B.m (i - 1 - 7) ^^^
      w B.m (i - 1 - 2)).rotateRight (s.r7.toNat % 256) = w B.m i := by
    rw [h.r7, w_of_ge h_ge]
    show BitVec.rotateRight _ 31 = _
    rw [rotateRight_thirtyOne]
    simp only [Nat.sub_sub, Nat.reduceAdd]
    congr 1
    ac_rfl
  simp only [Sha1.code, List.take_succ_cons, List.take_zero, execAll, Instr.exec, State.put,
    State.get, State.set, Option.bind_some, Option.map_some, State.storeAll,
    List.length_cons, List.length_nil, Nat.reduceAdd, Nat.reduceMul, h.sp, h_3, h_8, h_14, h_16,
    h_sub, storeWord_ptr _ _ h_store, h_word]
  refine ⟨_, rfl, ⟨h.push hi rfl rfl rfl rfl, h.r0, h.r2, h.r7, h.r10, h.r12⟩, ?_⟩
  show some (ptr (B.T - (i + 1)) == s.r2) = _
  rw [h.r2, ptr_beq (by omega) (by omega)]
  congr 1
  rw [Bool.eq_iff_iff, beq_iff_eq, beq_iff_eq]
  omega

theorem update_pass : (program o).Leads (.place 33) (B.Update 16) (.place 44) (B.Update 80) :=
  Leads.bneLoop (l := .LXupdate) (by decide) (fetch_program (by decide)) fun _ h_ge hi =>
    update_body h_ge hi

theorem update_end : (program o).Leads (.place 44) (B.Update 80) (.place 51) (B.Round 20 0) := by
  have h_T := B.le_T
  have h_lt := B.c_lt
  refine Leads.straight (codeAt_program (c := (Sha1.code .LXupdate).drop 11) (by decide))
    fun s h => ?_
  -- the context is not in the frame, so it is as before the block
  have h_ctx (i : ℕ) (hi : i < 5) : loadWord s.mem (ptr (B.c + i)) = some (B.M (B.c + i)) := by
    rw [loadWord_ptr _ (by omega), h.mem _ (B.context i hi)]
  have h_sub : ptr B.T - 80#32 = ptr (B.T - 20) := ptr_sub (k := 20) (by omega)
  have h_ctx0 : loadWord s.mem (ptr B.c) = some (B.M B.c) := h_ctx 0 (by decide)
  simp only [Sha1.code, List.drop_succ_cons, List.drop_zero, execAll, Instr.exec, State.put,
    State.get, State.set, Option.bind_some, Option.map_some, State.loadAll, h.r0, h_ctx0,
    ptr_add_four, Nat.add_assoc, Nat.reduceAdd, h_ctx 1 (by decide), h_ctx 2 (by decide),
    h_ctx 3 (by decide), h_ctx 4 (by decide), h.r12, Nat.reduceMul, h_sub]
  exact ⟨_, rfl, ⟨⟨h.sp, h.words, h.mem, h.r9, h.r11⟩, rfl, rfl, rfl, h.r10, rfl⟩⟩

/-! ### The rounds -/

theorem common_steps {n : ℕ} (h0 : s.r0 = ptr (n + 1)) (hn : n + 1 < 2 ^ 30) :
    (program o).Steps (.place 125, s) ((program o).target s.lr,
      { s with r0 := ptr n, r1 := s.mem n, r2 := s.r3 <<< 5 + (s.r7 + s.r8) + s.r3 >>> 27 + s.mem n,
               r7 := s.r3 >>> 27, z := none }) := by
  have h_sub : ptr (n + 1) - 4#32 = ptr n := ptr_sub_four (Nat.le_add_left 1 n)
  have h_add : ptr n + 0#32 = ptr n := ptr_add n 0
  have h_load : loadWord s.mem (ptr n) = some (s.mem n) := loadWord_ptr _ (by omega)
  -- eight instructions, and the return
  have h_exec : execAll ((Sha1.code .Lcommon).take 8) s = some { s with
      r0 := ptr n, r1 := s.mem n, r2 := s.r3 <<< 5 + (s.r7 + s.r8) + s.r3 >>> 27 + s.mem n,
      r7 := s.r3 >>> 27, z := none } := by
    simp only [Sha1.code, List.take_succ_cons, List.take_zero, execAll, Instr.exec, State.put,
      State.get, State.set, Option.bind_some, Option.map_some, h0, h_sub, h_add, h_load]
  have h_steps := Steps.straight (codeAt_program (o := o) (h := 125) (by decide)) h_exec
  exact h_steps.trans (Steps.movPc (m := .lr) (fetch_program (h := 133) (by decide)))

theorem rotate_steps :
    (program o).Steps (.place 134, s) ((program o).target s.lr,
      { s with r3 := s.r2 + s.r1, r4 := s.r3, r5 := s.r4.rotateLeft 30, r6 := s.r5, r7 := s.r6,
               z := none }) := by
  -- seven instructions, and the return
  have h_exec : execAll ((Sha1.code .Lrotate).take 7) s = some { s with
      r3 := s.r2 + s.r1, r4 := s.r3, r5 := s.r4.rotateLeft 30, r6 := s.r5, r7 := s.r6,
      z := none } := by
    simp only [Sha1.code, List.take_succ_cons, List.take_zero, execAll, Instr.exec, State.put,
      State.get, State.set, Option.bind_some, shiftLeft_or_shiftRight_thirty]
  have h_steps := Steps.straight (codeAt_program (o := o) (h := 134) (by decide)) h_exec
  exact h_steps.trans (Steps.movPc (m := .lr) (fetch_program (h := 141) (by decide)))

/-- The code of the rounds at a label, whose function is the code `c`. -/
def RoundAt (l : Label) (c : List (Instr Label)) : Prop :=
  let P := program 0
  let q := P.label l + 2 + c.length
  fetchIn P.code (P.label l) = some (.bl .Lcommon) ∧ CodeAt P.code (P.label l + 2) c ∧
    fetchIn P.code q = some (.bl .Lrotate) ∧ fetchIn P.code (q + 2) = some (.cmp .r12 .r0) ∧
    fetchIn P.code (q + 3) = some (.bne l)

instance (l : Label) (c : List (Instr Label)) : Decidable (RoundAt l c) :=
  inferInstanceAs (Decidable (_ ∧ _ ∧ _ ∧ _ ∧ _))

theorem round_body {n i : ℕ} {l : Label} {c : List (Instr Label)} (h_c : RoundAt l c)
    (h_f : ∀ s, ∃ x, execAll c s = some { s with r1 := f i s.r4 s.r5 s.r6, r7 := x, z := none })
    (hn : n ≤ 80) (hi : i < n) (h_k : k (n - 20) = k i) :
    (program o).Leads (.place ((program o).label l)) (B.Round n i)
      (.place ((program o).label l + 2 + c.length + 3))
      fun s => B.Round n (i + 1) s ∧ s.z = some (i + 1 == n) := by
  obtain ⟨h_common, h_c, h_rotate, h_cmp, -⟩ := h_c
  intro s h
  have h_T := B.le_T
  have h_lt := B.T_lt
  -- `r0` is one word above the word of the round, which the schedule has put there
  have h_r0 : s.r0 = ptr (B.T - (i + 1) + 1) := by
    rw [h.r0]
    congr 1
    omega
  have h_word : s.mem (B.T - (i + 1)) = w B.m i := by
    rw [← h.words i (by omega)]
    congr 1
    omega
  have h_program : halfwords (program o).code = 142 := halfwords_program o
  have h_size := lt_of_fetchIn (fetch_program (o := o) h_cmp)
  -- the call of `.Lcommon`, the function of the round, the call of `.Lrotate`, the comparison
  have h_steps₁ := Steps.call (s := s) (P := program o) (fetch_program h_common) (by omega)
    (by omega) (common_steps h_r0 (by omega))
  obtain ⟨x, h_exec⟩ := h_f _
  have h_steps₂ := Steps.straight (codeAt_program (o := o) h_c) h_exec
  have h_steps₃ := (h_steps₁.trans h_steps₂).trans
    (Steps.call (P := program o) (fetch_program h_rotate) (by omega) (by omega) rotate_steps)
  have h_steps := h_steps₃.tail (step_exec (i := .cmp .r12 .r0) (fetch_program h_cmp) rfl)
  simp only [State.set, State.get] at h_steps
  refine ⟨_, h_steps, ⟨⟨h.sp, h.words, h.mem, h.r9, h.r11⟩, ?_, rfl, h.r8, h.r10, h.r12⟩, ?_⟩
  -- only the sum is more than a renaming of the variables
  · show Vars.mk _ _ _ _ _ = round B.m i (rounds B.m i B.hash)
    rw [← h.vars]
    refine congrArg (Vars.mk · _ _ _ _) ?_
    -- `.Lcommon` adds the shifted halves, which have no bit in common
    show s.r3 <<< 5 + (s.r7 + s.r8) + s.r3 >>> 27 + s.mem (B.T - (i + 1)) + f i s.r4 s.r5 s.r6 =
      s.r3.rotateLeft 5 + f i s.r4 s.r5 s.r6 + s.r7 + k i + w B.m i
    rw [shiftLeft_or_shiftRight_five, h_word, h.r8, h_k]
    ac_rfl
  -- `r0` reaches `r12` with the last round
  · show some (s.r12 == ptr (B.T - (i + 1))) = _
    rw [h.r12, ptr_beq (by omega) (by omega)]
    refine congrArg some ?_
    rw [Bool.eq_iff_iff, beq_iff_eq, beq_iff_eq]
    omega

/-- The rounds with one function. -/
theorem round_pass {n : ℕ} {l : Label} {c : List (Instr Label)} (h_c : RoundAt l c)
    (h_f : ∀ i, n - 20 ≤ i → i < n → ∀ s, ∃ x, execAll c s =
      some { s with r1 := f i s.r4 s.r5 s.r6, r7 := x, z := none })
    (hn : n ∈ [20, 40, 60, 80]) :
    (program o).Leads (.place ((program o).label l)) (B.Round n (n - 20))
      (.place ((program o).label l + 2 + c.length + 4)) (B.Round n n) := by
  have h_n : 20 ≤ n ∧ n ≤ 80 := by
    simp only [List.mem_cons, List.not_mem_nil, or_false] at hn
    omega
  refine Leads.bneLoop (by omega) (fetch_program h_c.2.2.2.2) fun i h_ge h_lt => ?_
  exact round_body h_c (h_f i h_ge h_lt) h_n.2 h_lt (k_eq hn h_ge h_lt)

/-- The next 20 rounds are set up. -/
theorem round_next {n p : ℕ}
    (h_code : CodeAt (program 0).code p [.ldrLit .r2 (k n), .mov .r1 .r0, .subImm .r1 (20 * 4),
      .mov .r12 .r1, .mov .r8 .r2]) (hn : n ≤ 60) :
    (program o).Leads (.place p) (B.Round n n) (.place (p + 5)) (B.Round (n + 20) n) := by
  have h_T := B.le_T
  have h_sub : ptr (B.T - n) - 80#32 = ptr (B.T - (n + 20)) := by
    rw [show 80#32 = .ofNat 32 (4 * 20) from rfl, ptr_sub (by omega), Nat.sub_sub]
  refine Leads.straight (codeAt_program h_code) fun s h => ?_
  simp only [execAll, Instr.exec, State.put, State.get, State.set, Option.bind_some, Nat.reduceMul,
    h.r0, h_sub]
  refine ⟨_, rfl, ⟨h.sp, h.words, h.mem, h.r9, h.r11⟩, h.vars, rfl, ?_, h.r10, rfl⟩
  rw [Nat.add_sub_cancel]

theorem rounds_20 : (program o).Leads (.place 51) (B.Round 20 0) (.place 61) (B.Round 20 20) := by
  have h_c : RoundAt .L_00_19 [.mov .r1 .r5, .eor .r1 .r6, .and .r1 .r4, .eor .r1 .r6] := by decide
  refine round_pass (n := 20) h_c (fun i _ h_lt s => ⟨s.r7, ?_⟩) (by decide)
  rw [show f i = choose from if_pos h_lt, ← choose_eq]
  simp only [execAll, Instr.exec, State.put, State.get, State.set, Option.bind_some]

theorem rounds_parity {n : ℕ} (hn : n = 40 ∨ n = 80) :
    (program o).Leads (.place 66) (B.Round n (n - 20)) (.place 75) (B.Round n n) := by
  have h_c : RoundAt .L_20_39_or_60_79 [.mov .r1 .r4, .eor .r1 .r5, .eor .r1 .r6] := by decide
  refine round_pass h_c (fun i h_ge h_lt s => ⟨s.r7, ?_⟩) (by obtain rfl | rfl := hn <;> decide)
  have h_f : f i = parity := by
    unfold f
    grind
  rw [h_f]
  simp only [execAll, Instr.exec, State.put, State.get, State.set, Option.bind_some, parity]

theorem rounds_60 : (program o).Leads (.place 82) (B.Round 60 40) (.place 94) (B.Round 60 60) := by
  have h_c : RoundAt .L_40_59 [.mov .r1 .r4, .and .r1 .r5, .mov .r7 .r4, .orr .r7 .r5,
      .and .r7 .r6, .orr .r1 .r7] := by decide
  refine round_pass (n := 60) h_c
    (fun i h_ge h_lt s => ⟨(s.r4 ||| s.r5) &&& s.r6, ?_⟩) (by decide)
  have h_f : f i = majority := by
    unfold f
    grind
  rw [h_f, ← majority_eq]
  simp only [execAll, Instr.exec, State.put, State.get, State.set, Option.bind_some]

/-- `sp` is below the last word, so the second pass of the code goes on to `.Ldone`. -/
theorem parity_end {n : ℕ} (hn : n ≤ 80) :
    (program o).Leads (.place 75) (B.Round n n) (.place (if n = 80 then 98 else 77))
      (B.Round n n) := by
  have h_T := B.le_T
  have h_lt := B.T_lt
  have h_Ldone : (program o).label .Ldone = 98 := show (program 0).label .Ldone = 98 by decide
  intro s h
  -- `cmp` and `beq`: the end of the schedule is in `r0`
  have h_cmp : (program o).step (.place 75, s) =
      some (.place 76, { s with z := some (s.sp == s.r0) }) :=
    step_exec (i := .cmp .sp .r0) (fetch_program (by decide)) rfl
  -- the pointers are equal just after round 80
  have h_z : (s.sp == s.r0) = decide (n = 80) := by
    rw [h.sp, h.r0, ptr_beq (by omega) (by omega), Bool.eq_iff_iff, beq_iff_eq, decide_eq_true_iff]
    omega
  have h_beq := Steps.beq (P := program o) (h := 76) (l := .Ldone) (z := decide (n = 80))
    (s := { s with z := some (s.sp == s.r0) }) (fetch_program (by decide)) (congrArg some h_z)
  simp only [decide_eq_true_iff, h_Ldone, Nat.reduceAdd] at h_beq
  exact ⟨_, .head h_cmp h_beq, ⟨⟨h.sp, h.words, h.mem, h.r9, h.r11⟩, h.vars, h.r0, h.r8, h.r10,
    h.r12⟩⟩

theorem rounds_60_end : (program o).Leads (.place 94) (B.Round 60 60) (.place 66)
    (B.Round 80 60) := by
  intro s h
  have h_steps := Steps.straight (P := program o) (s := s) (h := 94)
    (codeAt_program (c := [.ldrLit .r2 0xca62c1d6, .mov .r12 .sp, .mov .r8 .r2]) (by decide)) rfl
  have h_b := h_steps.trans
    (Steps.b (h := 97) (l := .L_20_39_or_60_79) (fetch_program (by decide)))
  simp only [State.put, State.get, State.set] at h_b
  exact ⟨_, h_b, ⟨⟨h.sp, h.words, h.mem, h.r9, h.r11⟩, h.vars, h.r0, rfl, h.r10, h.sp⟩⟩

/-- **The rounds.** -/
theorem rounds_pass : (program o).Leads (.place 51) (B.Round 20 0) (.place 98) (B.Round 80 80) := by
  have h_20 := rounds_20.trans (round_next (B := B) (o := o) (n := 20) (p := 61) (by decide)
    (by decide))
  have h_40 := (h_20.trans (rounds_parity (.inl rfl))).trans (parity_end (by decide))
  have h_60 := (h_40.trans (round_next (n := 40) (p := 77) (by decide) (by decide))).trans rounds_60
  have h_80 := (h_60.trans rounds_60_end).trans (rounds_parity (.inr rfl))
  exact h_80.trans (parity_end (by decide))

/-! ### The sum -/

theorem done_pass : (program o).Leads (.place 98) (B.Round 80 80) (.place 114) B.Done := by
  have h_T := B.le_T
  have h_lt := B.c_lt
  refine Leads.straight (codeAt_program (c := (Sha1.code .Ldone).take 16) (by decide))
    fun s h => ?_
  -- the context is loaded word by word, and the first word moves the pointer
  have h_load (i : ℕ) (hi : i < 5) (n : ℕ) (hn : n = 4 * i) :
      loadWord s.mem (ptr B.c + .ofNat 32 n) = some (B.M (B.c + i)) := by
    rw [hn, ptr_add, loadWord_ptr _ (by omega), h.mem _ (B.context i hi)]
  have h_0 := h_load 0 (by decide) _ rfl
  have h_1 : loadWord s.mem (ptr (B.c + 1)) = some (B.M (B.c + 1)) := by
    rw [← ptr_add_four, ← h_load 1 (by decide) 4 rfl]
  have h_2 := h_load 2 (by decide) _ rfl
  have h_3 := h_load 3 (by decide) _ rfl
  have h_4 := h_load 4 (by decide) _ rfl
  have h_store (i : ℕ) (hi : i < 5) (mem : ℕ → Word) (v : Word) :
      storeWord mem (ptr (B.c + i)) v = some (Function.update mem (B.c + i) v) :=
    storeWord_ptr _ _ (by omega)
  -- the schedule leaves the stack
  have h_sp : ptr (B.T - 80) + 320#32 = ptr B.T := by
    rw [show 320#32 = .ofNat 32 (4 * 80) from rfl, ptr_add, Nat.sub_add_cancel h_T]
  simp only [Sha1.code, List.take_succ_cons, List.take_zero, execAll, Instr.exec, State.put,
    State.get, State.set, Option.bind_some, Option.map_some, State.storeAll, Nat.reduceMul,
    h.r9, h_0, h_1, h_2, h_3, h_4, Nat.add_zero, storeWord_ptr _ _ (show B.c < 2 ^ 30 by omega),
    ptr_add_four, Nat.add_assoc, Nat.reduceAdd, h_store 1 (by decide), h_store 2 (by decide),
    h_store 3 (by decide), h_store 4 (by decide), h.sp, h_sp, h.r10, h.r11]
  refine ⟨_, rfl, rfl, rfl, rfl, rfl, rfl, rfl, ?_, fun n h_frame h_ctx => ?_⟩
  · rw [compress_of_rounds h.vars.symm]
    exact contextAt_update ..
  · show Function.update _ _ _ n = _
    -- the five stores are all in the context
    iterate 5 rw [Function.update_of_ne (by omega)]
    exact h.mem n h_frame

/-- **One block.** -/
theorem block_pass : (program o).Leads (.place 12) B.Start (.place 114) B.Done :=
  ((load_start.trans load_pass).trans load_end).trans
    ((update_pass.trans update_end).trans (rounds_pass.trans done_pass))

end Passes

end Sha1

end Laureline
