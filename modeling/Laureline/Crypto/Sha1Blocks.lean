import Laureline.Crypto.Sha1Thumb
import Mathlib.Data.List.GetD

/-!
# The blocks of a text

`sha1_block_data_order` takes the chaining value of a context through the blocks of a text.

The frame of a call is the 90 words below `sp`: ten for the registers that are saved, and 80 for
the schedule. The context and the text have to be outside of it, and the text may not be in the
context. Then the routine comes back with all the registers that a callee preserves, and nothing
but the context and the frame has changed.
-/

namespace Laureline

namespace Sha1

open Thumb Thumb.Program

/-- The words of block `j` of a text. -/
def blocksAt (mem : ℕ → Word) (a : Word) (j : ℕ) : ℕ → Word := blockAt mem (a + .ofNat 32 (64 * j))

/-- The chaining value after the first blocks. -/
def hashBlocks (m : ℕ → ℕ → Word) (h : Vars) : ℕ → Vars
  | 0 => h
  | j + 1 => compress (m j) (hashBlocks m h j)

theorem hashBlocks_congr {m m' : ℕ → ℕ → Word} {N : ℕ} (h : ∀ j < N, ∀ t < 16, m j t = m' j t)
    (v : Vars) : hashBlocks m v N = hashBlocks m' v N := by
  induction N with
  | zero => rfl
  | succ N ih =>
    rw [hashBlocks, hashBlocks, ih fun j hj => h j (Nat.lt_succ_of_lt hj)]
    exact compress_congr (h N (Nat.lt_succ_self N)) _

/-- A text of `N` blocks, a context and the frame below `T`, in the memory `M`. -/
structure Text where
  c : ℕ
  T : ℕ
  a : Word
  N : ℕ
  M : ℕ → Word
  le_T : 80 ≤ T
  T_lt : T < 2 ^ 30
  c_lt : c + 4 < 2 ^ 30
  N_pos : 0 < N
  N_lt : 64 * N < 2 ^ 32
  context : ∀ i < 5, c + i < T - 80 ∨ T ≤ c + i
  text : ∀ i < 64 * N, ((a + .ofNat 32 i).toNat / 4 < T - 80 ∨ T ≤ (a + .ofNat 32 i).toNat / 4) ∧
    ((a + .ofNat 32 i).toNat / 4 < c ∨ c + 5 ≤ (a + .ofNat 32 i).toNat / 4)

namespace Text

variable (X : Text)

/-- The first `j` blocks are done. -/
structure After (j : ℕ) (s : State) : Prop where
  sp : s.sp = ptr X.T
  r0 : s.r0 = ptr X.c
  r1 : s.r1 = X.a + .ofNat 32 (64 * j)
  r9 : s.r9 = ptr X.c
  r11 : s.r11 = X.a + .ofNat 32 (64 * X.N)
  hash : contextAt s.mem X.c = hashBlocks (blocksAt X.M X.a) (contextAt X.M X.c) j
  mem : ∀ n, n < X.T - 80 ∨ X.T ≤ n → n < X.c ∨ X.c + 5 ≤ n → s.mem n = X.M n

/-- The text has not changed. -/
theorem After.blocksAt_eq {X : Text} {j i : ℕ} {s : State} (h : X.After j s) (hi : i < X.N) {t : ℕ}
    (ht : t < 16) : blocksAt s.mem X.a i t = blocksAt X.M X.a i t := by
  refine blockAt_congr (fun k hk => ?_) ht
  rw [BitVec.add_assoc, ← BitVec.ofNat_add]
  have h_text := X.text (64 * i + k) (by omega)
  exact h.mem _ h_text.1 h_text.2

/-- The next block. -/
def block {X : Text} {j : ℕ} {s : State} (_h : X.After j s) (hj : j < X.N) : Block where
  c := X.c
  T := X.T
  a := X.a + .ofNat 32 (64 * j)
  stop := X.a + .ofNat 32 (64 * X.N)
  M := s.mem
  le_T := X.le_T
  T_lt := X.T_lt
  c_lt := X.c_lt
  context := X.context
  text i hi := by
    rw [BitVec.add_assoc, ← BitVec.ofNat_add]
    exact (X.text (64 * j + i) (by omega)).1

end Text

section Blocks

variable {X : Text} {o : Word}

theorem after_step {j : ℕ} (hj : j < X.N) :
    (program o).Leads (.place 12) (X.After j) (.place 114)
      fun s => X.After (j + 1) s ∧ s.z = some (j + 1 == X.N) := by
  intro s h
  -- one block, from the address where the last one ended
  obtain ⟨t, h_steps, ht⟩ := block_pass (B := Text.block h hj) (o := o) s
    ⟨h.sp, h.r0, h.r1, h.r9, h.r11, rfl⟩
  have h_a : (Text.block h hj).a + .ofNat 32 64 = X.a + .ofNat 32 (64 * (j + 1)) := by
    show X.a + .ofNat 32 (64 * j) + .ofNat 32 64 = _
    rw [BitVec.add_assoc, ← BitVec.ofNat_add]
    rfl
  refine ⟨t, h_steps, ⟨ht.sp, ht.r0, ht.r1.trans h_a, ht.r9, ht.r11, ?_,
    fun n h_frame h_ctx => ?_⟩, ?_⟩
  · rw [show contextAt t.mem X.c = _ from ht.hash, hashBlocks, ← h.hash]
    exact compress_congr (fun i hi => h.blocksAt_eq hj hi) _
  · exact (ht.mem n h_frame h_ctx).trans (h.mem n h_frame h_ctx)
  -- the text is shorter than the address space, so the end is reached only once
  · rw [ht.z, h_a]
    refine congrArg some ?_
    have h_N := X.N_lt
    rw [Bool.eq_iff_iff, beq_iff_eq, beq_iff_eq]
    show X.a + .ofNat 32 (64 * (j + 1)) = X.a + .ofNat 32 (64 * X.N) ↔ _
    rw [BitVec.add_right_inj, ← BitVec.toNat_inj,
      BitVec.toNat_ofNat, BitVec.toNat_ofNat]
    omega

theorem blocks_pass : (program o).Leads (.place 12) (X.After 0) (.place 116) (X.After X.N) :=
  Leads.beqLoop (l := .Lloop) (m := .Lexit) X.N_pos (fetch_program (by decide))
    (fetch_program (by decide)) fun _ _ hj => after_step hj

end Blocks

/-! ### Call and return -/

/-- The routine is called with the context `c` and `N` blocks, and with `sp` at `top`. -/
structure Called (c top N : ℕ) (s : State) : Prop where
  sp : s.sp = ptr top
  r0 : s.r0 = ptr c
  r2 : s.r2 = .ofNat 32 N
  le_top : 90 ≤ top
  top_lt : top < 2 ^ 30
  c_lt : c + 4 < 2 ^ 30
  N_pos : 0 < N
  N_lt : 64 * N < 2 ^ 32
  context : ∀ i < 5, c + i < top - 90 ∨ top ≤ c + i
  text : ∀ i < 64 * N, ((s.r1 + .ofNat 32 i).toNat / 4 < top - 90 ∨
      top ≤ (s.r1 + .ofNat 32 i).toNat / 4) ∧
    ((s.r1 + .ofNat 32 i).toNat / 4 < c ∨ c + 5 ≤ (s.r1 + .ofNat 32 i).toNat / 4)

/-- The memory with the registers that are saved. -/
def saved (top : ℕ) (s : State) : ℕ → Word :=
  writeAll (writeAll s.mem (top - 4) [s.r4, s.r5, s.r6, s.r7]) (top - 10)
    [s.r8, s.r9, s.r10, s.r11, s.r12, s.lr]

section Call

variable {c top N : ℕ} {s : State} {o : Word}

/-- The text, with the memory as the first instructions leave it. -/
def Called.toText (h : Called c top N s) : Text where
  c := c
  T := top - 10
  a := s.r1
  N := N
  M := saved top s
  le_T := by
    have h_le := h.le_top
    omega
  T_lt := Nat.lt_of_le_of_lt (Nat.sub_le _ _) h.top_lt
  c_lt := h.c_lt
  N_pos := h.N_pos
  N_lt := h.N_lt
  context i hi := by
    have h_c := h.context i hi
    omega
  text i hi := by
    have h_i := h.text i hi
    omega

theorem call_steps (h : Called c top N s) :
    ∃ s', (program o).Steps (.place 0, s) (.place 12, s') ∧ h.toText.After 0 s' := by
  have h_le := h.le_top
  have h_lt := h.top_lt
  have h_sub : ptr top - 16#32 = ptr (top - 4) := ptr_sub (k := 4) (by omega)
  have h_sub' : ptr (top - 4) - 24#32 = ptr (top - 10) := by
    rw [show 24#32 = .ofNat 32 (4 * 6) from rfl, ptr_sub (by omega), Nat.sub_sub]
  -- the two `push` instructions, each below the stack pointer it finds
  have h_push (t : State) : State.storeAll (ptr (top - 4)) [.r4, .r5, .r6, .r7] t =
      some { t with mem := writeAll t.mem (top - 4) [t.r4, t.r5, t.r6, t.r7] } := by
    refine State.storeAll_ptr ?_
    show top - 4 + 4 ≤ 2 ^ 30
    omega
  have h_push' (t : State) : State.storeAll (ptr (top - 10)) [.r3, .r4, .r5, .r6, .r7, .lr] t =
      some { t with mem := writeAll t.mem (top - 10) [t.r3, t.r4, t.r5, t.r6, t.r7, t.lr] } := by
    refine State.storeAll_ptr ?_
    show top - 10 + 6 ≤ 2 ^ 30
    omega
  -- `r11` is the end of the text
  have h_stop : s.r2 <<< 6 + s.r1 = s.r1 + .ofNat 32 (64 * N) := by
    rw [h.r2, BitVec.add_comm, BitVec.add_right_inj, ← BitVec.toNat_inj, BitVec.toNat_shiftLeft,
      BitVec.toNat_ofNat, BitVec.toNat_ofNat, Nat.shiftLeft_eq]
    omega
  -- the twelve instructions one after the other
  have h_exec : ∃ s', execAll (Sha1.code .sha1BlockDataOrder) s = some s' ∧
      h.toText.After 0 s' := by
    simp only [Sha1.code, execAll, Instr.exec, State.put, State.get, State.set, Option.bind_some,
      Option.map_some, List.length_cons, List.length_nil, Nat.reduceAdd, Nat.reduceMul, h.sp,
      h_sub, h_sub', h_push, h_push', h_stop]
    exact ⟨_, rfl, rfl, h.r0, (BitVec.add_zero _).symm, h.r0, rfl, rfl, fun _ _ _ => rfl⟩
  obtain ⟨s', h_s', h_A⟩ := h_exec
  exact ⟨s', Steps.straight (h := 0) (codeAt_program (by decide)) h_s', h_A⟩

/-- The registers are loaded from the ten words at `sp`. -/
theorem return_steps {T : ℕ} {v : ℕ → Word} (h_sp : s.sp = ptr T) (h_lt : T + 10 < 2 ^ 30)
    (hv : ∀ i < 10, s.mem (T + i) = v i) :
    (program o).Steps (.place 116, s) ((program o).target (v 5),
      { s with r2 := v 0, r3 := v 1, r4 := v 6, r5 := v 7, r6 := v 8, r7 := v 9, r8 := v 0,
               r9 := v 1, r10 := v 2, r11 := v 3, r12 := v 4, sp := ptr (T + 10), lr := v 5,
               z := none }) := by
  -- two `pop` instructions, with the moves to the high registers and `lr` between them
  have h_load (i : ℕ) (hi : i < 10) : loadWord s.mem (ptr (T + i)) = some (v i) := by
    rw [loadWord_ptr _ (by omega), hv i hi]
  have h_0 : loadWord s.mem (ptr T) = some (v 0) := h_load 0 (by decide)
  have h_six : ptr T + 24#32 = ptr (T + 6) := ptr_add T 6
  have h_ten : ptr (T + 6) + 16#32 = ptr (T + 10) := ptr_add (T + 6) 4
  have h_exec : execAll ((Sha1.code .Lexit).take 8) s = some { s with
      r2 := v 0, r3 := v 1, r4 := v 6, r5 := v 7, r6 := v 8, r7 := v 9, r8 := v 0, r9 := v 1,
      r10 := v 2, r11 := v 3, r12 := v 4, sp := ptr (T + 10), lr := v 5, z := none } := by
    simp only [Sha1.code, List.take_succ_cons, List.take_zero, execAll, Instr.exec, State.put,
      State.get, State.set, Option.bind_some, Option.map_some, State.loadAll, List.length_cons,
      List.length_nil, Nat.reduceAdd, Nat.reduceMul, h_sp, h_0, ptr_add_four, Nat.add_assoc,
      h_load 1 (by decide), h_load 2 (by decide), h_load 3 (by decide), h_load 4 (by decide),
      h_load 5 (by decide), h_load 6 (by decide), h_load 7 (by decide), h_load 8 (by decide),
      h_load 9 (by decide), h_six, h_ten]
  have h_steps := Steps.straight (codeAt_program (o := o) (h := 116) (by decide)) h_exec
  exact h_steps.trans (Steps.bx (m := .lr) (fetch_program (h := 124) (by decide)))

theorem saved_outside {n : ℕ} (hn : n < top - 90 ∨ top ≤ n) (h_le : 90 ≤ top) :
    saved top s n = s.mem n := by
  unfold saved
  obtain h_lt | h_ge := hn
  · rw [writeAll_of_lt (by omega), writeAll_of_lt (by omega)]
  · rw [writeAll_of_ge (by simp only [List.length_cons, List.length_nil]; omega),
      writeAll_of_ge (by simp only [List.length_cons, List.length_nil]; omega)]

/-- What was saved is still there after the blocks. -/
theorem Called.saved_eq {t : State} (h : Called c top N s) (ht : h.toText.After N t) {i : ℕ}
    (hi : i < 10) : t.mem (top - 10 + i) =
      [s.r8, s.r9, s.r10, s.r11, s.r12, s.lr, s.r4, s.r5, s.r6, s.r7].getD i 0 := by
  have h_le := h.le_top
  -- the saved registers are not in the context
  have h_ctx : top - 10 + i < c ∨ c + 5 ≤ top - 10 + i := by
    by_contra h_in
    have h_c := h.context (top - 10 + i - c) (by omega)
    omega
  have h_mem : t.mem (top - 10 + i) = saved top s (top - 10 + i) :=
    ht.mem _ (.inr (Nat.le_add_right _ _)) h_ctx
  rw [h_mem]
  unfold saved
  -- six words were saved last, and four before them
  by_cases h_six : i < 6
  · rw [writeAll_getD 0 h_six]
    exact (List.getD_append [s.r8, s.r9, s.r10, s.r11, s.r12, s.lr] _ _ _ h_six).symm
  · rw [writeAll_of_ge (by simp only [List.length_cons, List.length_nil]; omega),
      show top - 10 + i = top - 4 + (i - 6) by omega,
      writeAll_getD 0 (by simp only [List.length_cons, List.length_nil]; omega)]
    exact (List.getD_append_right [s.r8, s.r9, s.r10, s.r11, s.r12, s.lr] _ _ _
      (Nat.le_of_not_lt h_six)).symm

/-- **The routine.** It comes back to its caller with the chaining value taken through all the
blocks. The registers that a callee preserves are as before, and the memory outside of the
context and the frame. -/
theorem routine_steps (h : Called c top N s) :
    ∃ t, (program o).Steps (.place 0, s) ((program o).target s.lr, t) ∧
      contextAt t.mem c = hashBlocks (blocksAt s.mem s.r1) (contextAt s.mem c) N ∧
      (∀ n, n < top - 90 ∨ top ≤ n → n < c ∨ c + 5 ≤ n → t.mem n = s.mem n) ∧
      t.sp = s.sp ∧ t.r4 = s.r4 ∧ t.r5 = s.r5 ∧ t.r6 = s.r6 ∧ t.r7 = s.r7 ∧ t.r8 = s.r8 ∧
      t.r9 = s.r9 ∧ t.r10 = s.r10 ∧ t.r11 = s.r11 := by
  have h_le := h.le_top
  have h_lt := h.top_lt
  -- the frame is made, the blocks are done, the registers come back
  obtain ⟨s₀, h_call, h₀⟩ := call_steps (o := o) h
  obtain ⟨s₁, h_blocks, h₁⟩ := blocks_pass (o := o) s₀ h₀
  have h_return := return_steps (o := o) h₁.sp (by show top - 10 + 10 < 2 ^ 30; omega)
    fun i hi => h.saved_eq h₁ hi
  have h_saved (n : ℕ) (hn : n < top - 90 ∨ top ≤ n) := saved_outside (s := s) hn h_le
  refine ⟨_, (h_call.trans h_blocks).trans h_return, ?_, fun n h_frame h_ctx => ?_, ?_, rfl, rfl,
    rfl, rfl, rfl, rfl, rfl, rfl⟩
  -- neither the text nor the context is in the frame, so both are as at the call
  · have h_blocks : ∀ j < N, ∀ t < 16,
        blocksAt (saved top s) s.r1 j t = blocksAt s.mem s.r1 j t := by
      intro j hj t ht
      refine blockAt_congr (fun i hi => ?_) ht
      rw [BitVec.add_assoc, ← BitVec.ofNat_add]
      exact h_saved _ (h.text (64 * j + i) (by omega)).1
    have h_hash : contextAt (saved top s) c = contextAt s.mem c := by
      unfold contextAt
      rw [h_saved c (h.context 0 (by decide)), h_saved _ (h.context 1 (by decide)),
        h_saved _ (h.context 2 (by decide)), h_saved _ (h.context 3 (by decide)),
        h_saved _ (h.context 4 (by decide))]
    rw [← h_hash, ← hashBlocks_congr h_blocks]
    exact h₁.hash
  · rw [← h_saved n h_frame]
    refine h₁.mem n ?_ h_ctx
    show n < top - 10 - 80 ∨ top - 10 ≤ n
    omega
  · show ptr (top - 10 + 10) = s.sp
    rw [h.sp, Nat.sub_add_cancel (by omega)]

end Call

end Sha1

end Laureline
