import Mathlib.Tactic.Common
import Mathlib.Algebra.Group.Nat.Defs
import Mathlib.Data.Nat.Basic
import Mathlib.Order.Basic

/-!
# The flash

`flash.c` with the symbols of the bootloader's linker script. Every address leads to a cell of
the memory (`AddressMap`): in the device the flash is seen at 0 too (`aliased`), and without
aliases every address is a cell of its own (`flat`). An erase or a program operation changes the
cells of one page, and what they hold afterwards is up to the controller (`Controller`), as is
whether it unlocks.

* `pageMaybeWrite_ok` — a page that was written holds the data, and no other page changed;
* `pageMaybeWrite_unchanged` — a page that was not written held the data already; but of the
  last page of the address space nothing is compared;
* `pageMaybeWrite_ops` — when there is an operation, and on which page.
-/

namespace Laureline

namespace Flash

/-- `FLASH_PAGE_SIZE`. -/
def pageSize : ℕ := 2048

/-- `_user_start`. -/
def userStart : ℕ := 0x800

/-- `_user_end`, the load address of `.data` at the origin of the second flash region. -/
def userEnd : ℕ := 0x08000000 + 256 * 1024 - 64 * 1024

/-- `PAGE_OF`. -/
def pageOf (addr : ℕ) : ℕ := addr / pageSize * pageSize

/-- `NEXT_PAGE`. -/
def nextPage (addr : ℕ) : ℕ := (addr + pageSize) % 2 ^ 32

/-! ### Pages -/

/-- The last page of the address space. -/
def lastPage : ℕ := 2 ^ 32 - pageSize

theorem pageOf_le (addr : ℕ) : pageOf addr ≤ addr := Nat.div_mul_le_self _ _

theorem lt_pageOf_add (addr : ℕ) : addr < pageOf addr + pageSize := by
  unfold pageOf pageSize
  omega

@[simp] theorem pageOf_pageOf (addr : ℕ) : pageOf (pageOf addr) = pageOf addr := by
  unfold pageOf pageSize
  omega

/-- The offset of an address in its page. -/
theorem sub_pageOf_lt (addr : ℕ) : addr - pageOf addr < pageSize := by
  unfold pageOf pageSize
  omega

theorem pageOf_add {page i : ℕ} (h_page : pageOf page = page) (hi : i < pageSize) :
    pageOf (page + i) = page := by
  have h_pos : 0 < pageSize := by decide
  rw [← h_page, pageOf, pageOf, Nat.mul_comm (page / pageSize), Nat.mul_add_div h_pos,
    Nat.div_eq_of_lt hi, Nat.add_zero, Nat.mul_comm]

theorem le_lastPage {page : ℕ} (h_page : pageOf page = page) (h_lt : page < 2 ^ 32) :
    page ≤ lastPage := by
  unfold pageOf pageSize at h_page
  unfold lastPage pageSize
  omega

/-- A page before the last one ends before it. -/
theorem pageOf_ne_of_last {page addr : ℕ} (h_lt : page < lastPage) (h_addr : lastPage ≤ addr) :
    pageOf addr ≠ page := by
  unfold pageOf pageSize
  unfold lastPage pageSize at h_lt h_addr
  omega

/-- Where an address leads. Whole pages are aliases of each other. -/
structure AddressMap where
  cell : ℕ → ℕ
  offset : ∀ addr, cell addr = cell (pageOf addr) + (addr - pageOf addr)
  aligned : ∀ addr, pageOf (cell (pageOf addr)) = cell (pageOf addr)

/-- Every address is a cell of its own. -/
def AddressMap.flat : AddressMap where
  cell addr := addr
  offset addr := (Nat.add_sub_cancel' (pageOf_le addr)).symm
  aligned addr := pageOf_pageOf addr

/-- The origin of the first region of the flash. -/
def flash1 : ℕ := 0x08000000

/-- The flash is also seen from 0 on. -/
def AddressMap.aliased : AddressMap where
  cell addr := if addr < 256 * 1024 then flash1 + addr else addr
  offset addr := by
    unfold pageOf pageSize
    split_ifs <;> omega
  aligned addr := by
    unfold pageOf pageSize flash1
    split_ifs <;> omega

namespace AddressMap

variable (map : AddressMap)

theorem pageOf_cell (addr : ℕ) : pageOf (map.cell addr) = map.cell (pageOf addr) := by
  rw [map.offset addr, pageOf_add (map.aligned addr) (sub_pageOf_lt addr)]

theorem cell_add {page i : ℕ} (h_page : pageOf page = page) (hi : i < pageSize) :
    map.cell (page + i) = map.cell page + i := by
  have h_offset := map.offset (page + i)
  rwa [pageOf_add h_page hi, Nat.add_sub_cancel_left] at h_offset

end AddressMap

/-! ### The driver -/

/-- `FLASH_OK`. -/
def flashOk : ℕ := 0

/-- `FLASH_UNCHANGED`. -/
def flashUnchanged : ℕ := 1

/-- `FLASH_DENIED`. -/
def flashDenied : ℕ := 2

/-- `FLASH_FAULT`. -/
def flashFault : ℕ := 3

/-- An operation of the flash controller. -/
inductive Op
  | erase (page : ℕ)
  | program (page : ℕ)
deriving DecidableEq, Repr

/-- The page that it is for. -/
def Op.page : Op → ℕ
  | .erase page | .program page => page

/-- The memory, and the operations so far (a history variable). -/
structure Mem (map : AddressMap) where
  /-- What the cells hold. -/
  mem : ℕ → UInt8
  ops : List Op

/-- What the controller does, given the operations before. -/
structure Controller where
  /-- It does not unlock. -/
  stuck : List Op → Bool
  /-- What a page holds after an operation with the given data, by the offset. -/
  outcome : List Op → Op → (ℕ → UInt8) → ℕ → UInt8

/-- A controller that does what it is told. -/
def ideal : Controller where
  stuck _ := false
  outcome _ _ data := data

section Driver

variable {map : AddressMap}

/-- The byte that is seen at an address. -/
def Mem.read (m : Mem map) (addr : ℕ) : UInt8 := m.mem (map.cell addr)

/-- Four bytes as one word is read. -/
def word (f : ℕ → UInt8) (addr : ℕ) : List UInt8 :=
  [f addr, f (addr + 1), f (addr + 2), f (addr + 3)]

/-- `0xFFFFFFFF`. -/
def erased : List UInt8 := [0xFF, 0xFF, 0xFF, 0xFF]

/-- The offsets of the words of a page, as the loops from `page` to `NEXT_PAGE(page)` see them. -/
def offsets (page : ℕ) : List ℕ := (List.range ((nextPage page - page) / 4)).map (4 * ·)

/-- `flash_can_write`. -/
def canWrite (page : ℕ) : Bool := ¬ (page < userStart ∨ nextPage page > userEnd)

/-- `flash_page_is_erased`. -/
def pageIsErased (m : Mem map) (page : ℕ) : Bool :=
  (offsets page).all fun i => word m.read (page + i) = erased

/-- One pass of the loop of `flash_page_compare`. -/
def compareStep (m : Mem map) (page : ℕ) (data : ℕ → UInt8) (ret i : ℕ) : ℕ :=
  if word m.read (page + i) = word data i then ret
  else if word m.read (page + i) ≠ erased then 2
  else if ret = 0 then 1
  else ret

/-- `flash_page_compare`. -/
def pageCompare (m : Mem map) (page : ℕ) (data : ℕ → UInt8) : ℕ :=
  (offsets page).foldl (compareStep m page data) 0

/-- An operation is done. -/
def Mem.run (m : Mem map) (c : Controller) (op : Op) (data : ℕ → UInt8) : Mem map where
  mem a :=
    if pageOf a = map.cell op.page then c.outcome m.ops op data (a - pageOf a) else m.mem a
  ops := m.ops ++ [op]

/-- `flash_page_erase`. -/
def pageErase (c : Controller) (m : Mem map) (page : ℕ) : ℕ × Mem map :=
  if ¬ canWrite page then (flashDenied, m)
  else if c.stuck m.ops then (flashFault, m)
  else
    let m := m.run c (.erase page) fun _ => 0xFF
    if pageIsErased m page then (flashOk, m) else (flashFault, m)

/-- `flash_page_write`. -/
def pageWrite (c : Controller) (m : Mem map) (page : ℕ) (data : ℕ → UInt8) : ℕ × Mem map :=
  if ¬ canWrite page then (flashDenied, m)
  else if c.stuck m.ops then (flashFault, m)
  else
    -- the loop has no pass where `NEXT_PAGE(page)` has wrapped
    let m := if offsets page = [] then m else m.run c (.program page) data
    if pageCompare m page data ≠ 0 then (flashFault, m) else (flashOk, m)

/-- `flash_page_maybe_write`. -/
def pageMaybeWrite (c : Controller) (m : Mem map) (page : ℕ) (data : ℕ → UInt8) : ℕ × Mem map :=
  let status := pageCompare m page data
  if status = 0 then (flashUnchanged, m)
  else if status = 2 then
    let r := pageErase c m page
    if r.1 ≠ 0 then r else pageWrite c r.2 page data
  else pageWrite c m page data

end Driver

/-! ### Comparing -/

theorem offsets_of_lt {page : ℕ} (h : page < lastPage) :
    offsets page = (List.range 512).map (4 * ·) := by
  have h_next : nextPage page - page = 2048 := by
    unfold nextPage lastPage pageSize at *
    omega
  rw [offsets, h_next]

theorem offsets_lastPage : offsets lastPage = [] := by decide

theorem canWrite_iff {page : ℕ} :
    canWrite page = true ↔ userStart ≤ page ∧ nextPage page ≤ userEnd := by
  unfold canWrite
  rw [decide_eq_true_iff, not_or, not_lt, not_lt]

section Compare

variable {map : AddressMap} {c : Controller} {m : Mem map} {page : ℕ} {data : ℕ → UInt8}

theorem compareStep_eq_zero {ret i : ℕ} : compareStep m page data ret i = 0 ↔
    ret = 0 ∧ word m.read (page + i) = word data i := by
  unfold compareStep
  split_ifs with h_eq h_erased h_ret
  · exact ⟨fun h => ⟨h, h_eq⟩, fun h => h.1⟩
  · exact ⟨fun h => absurd h (by decide), fun h => absurd h.2 h_eq⟩
  · exact ⟨fun h => absurd h (by decide), fun h => absurd h.2 h_eq⟩
  · exact ⟨fun h => absurd h h_ret, fun h => absurd h.1 h_ret⟩

theorem foldl_compareStep_eq_zero {ret : ℕ} {l : List ℕ} :
    l.foldl (compareStep m page data) ret = 0 ↔
      ret = 0 ∧ ∀ i ∈ l, word m.read (page + i) = word data i := by
  induction l generalizing ret with
  | nil => simp
  | cons i l ih =>
    rw [List.foldl_cons, ih, compareStep_eq_zero, List.forall_mem_cons, and_assoc]

/-- The words of a page are equal if its bytes are. -/
theorem pageCompare_eq_zero (h : page < lastPage) :
    pageCompare m page data = 0 ↔ ∀ i < pageSize, m.read (page + i) = data i := by
  rw [pageCompare, foldl_compareStep_eq_zero, offsets_of_lt h]
  constructor
  · rintro ⟨-, h_words⟩ i hi
    have h_mem : 4 * (i / 4) ∈ (List.range 512).map (4 * ·) := by
      refine List.mem_map_of_mem (List.mem_range.mpr ?_)
      unfold pageSize at hi
      omega
    have h_word := h_words _ h_mem
    simp only [word, List.cons.injEq, and_true] at h_word
    obtain ⟨h₀, h₁, h₂, h₃⟩ := h_word
    -- the byte within its word
    have h_pos : i = 4 * (i / 4) ∨ i = 4 * (i / 4) + 1 ∨ i = 4 * (i / 4) + 2 ∨
        i = 4 * (i / 4) + 3 := by
      omega
    rcases h_pos with h_i | h_i | h_i | h_i <;> rw [h_i]
    · exact h₀
    · exact h₁
    · exact h₂
    · exact h₃
  · intro h_bytes
    refine ⟨rfl, fun i hi => ?_⟩
    obtain ⟨k, hk, rfl⟩ := List.mem_map.mp hi
    have hk' : k < 512 := List.mem_range.mp hk
    have h_byte (j : ℕ) (hj : j < 4) : m.read (page + 4 * k + j) = data (4 * k + j) := by
      rw [Nat.add_assoc]
      exact h_bytes _ (by unfold pageSize; omega)
    simp only [word, List.cons.injEq, and_true]
    exact ⟨h_byte 0 (by decide), h_byte 1 (by decide), h_byte 2 (by decide), h_byte 3 (by decide)⟩

/-- Nothing is compared of the last page. -/
theorem pageCompare_lastPage : pageCompare m lastPage data = 0 := by
  rw [pageCompare, offsets_lastPage]
  rfl

/-- A page of which something differs is compared as a whole. -/
theorem lt_lastPage_of_compare (h_page : pageOf page = page) (h_lt : page < 2 ^ 32)
    (h : pageCompare m page data ≠ 0) : page < lastPage := by
  refine lt_of_le_of_ne (le_lastPage h_page h_lt) ?_
  rintro rfl
  exact h pageCompare_lastPage

theorem read_of_compare {addr : ℕ} (h_lt : pageOf addr < lastPage)
    (h : pageCompare m (pageOf addr) data = 0) : m.read addr = data (addr - pageOf addr) := by
  have h_byte := (pageCompare_eq_zero h_lt).mp h _ (sub_pageOf_lt addr)
  rwa [Nat.add_sub_cancel' (pageOf_le addr)] at h_byte

theorem offsets_of_compare (h : pageCompare m page data ≠ 0) : offsets page ≠ [] := by
  intro h_nil
  rw [pageCompare, h_nil] at h
  exact h rfl

/-! ### Operations -/

theorem run_of_ne {op : Op} {addr : ℕ} (h : pageOf addr ≠ map.cell op.page) :
    (m.run c op data).mem addr = m.mem addr :=
  if_neg h

@[simp] theorem run_ops (op : Op) : (m.run c op data).ops = m.ops ++ [op] := rfl

variable (c m page) in
theorem pageErase_spec :
    ((pageErase c m page).1 = flashOk → canWrite page = true) ∧
    (pageErase c m page).1 ≠ flashUnchanged ∧
    (∀ addr, pageOf addr ≠ map.cell page → (pageErase c m page).2.mem addr = m.mem addr) ∧
    (pageErase c m page).2.ops =
      if canWrite page = true ∧ c.stuck m.ops = false then m.ops ++ [Op.erase page] else m.ops := by
  unfold pageErase
  -- denied, stuck, or erased and checked
  by_cases h_can : canWrite page = true
  · by_cases h_stuck : c.stuck m.ops = true
    · simp [h_can, h_stuck, flashFault, flashUnchanged]
    · rw [Bool.not_eq_true] at h_stuck
      simp only [h_can, h_stuck, not_true_eq_false, if_false, Bool.false_eq_true, and_self, if_true]
      split_ifs
      · exact ⟨fun _ => trivial, (by decide : flashOk ≠ flashUnchanged), fun _ h => run_of_ne h,
          rfl⟩
      · exact ⟨fun _ => trivial, (by decide : flashFault ≠ flashUnchanged), fun _ h => run_of_ne h,
          rfl⟩
  · simp [h_can, flashDenied, flashOk, flashUnchanged]

theorem pageWrite_spec (h : offsets page ≠ []) :
    ((pageWrite c m page data).1 = flashOk →
      canWrite page = true ∧ pageCompare (pageWrite c m page data).2 page data = 0) ∧
    (pageWrite c m page data).1 ≠ flashUnchanged ∧
    (∀ addr, pageOf addr ≠ map.cell page → (pageWrite c m page data).2.mem addr = m.mem addr) ∧
    (pageWrite c m page data).2.ops =
      if canWrite page = true ∧ c.stuck m.ops = false then m.ops ++ [Op.program page]
      else m.ops := by
  unfold pageWrite
  -- denied, stuck, or written and compared
  by_cases h_can : canWrite page = true
  · by_cases h_stuck : c.stuck m.ops = true
    · simp [h_can, h_stuck, flashFault, flashOk, flashUnchanged]
    · rw [Bool.not_eq_true] at h_stuck
      simp only [h_can, h_stuck, h, not_true_eq_false, if_false, Bool.false_eq_true, and_self,
        if_true]
      -- what the controller has done shows in the comparison
      split_ifs with h_compare
      · exact ⟨fun h' => absurd h' (by decide : flashFault ≠ flashOk),
          (by decide : flashFault ≠ flashUnchanged), fun _ h => run_of_ne h, rfl⟩
      · exact ⟨fun _ => ⟨trivial, not_not.mp h_compare⟩, (by decide : flashOk ≠ flashUnchanged),
          fun _ h => run_of_ne h, rfl⟩
  · simp [h_can, flashDenied, flashOk, flashUnchanged]

theorem pageErase_le : (pageErase c m page).1 ≤ flashFault := by
  simp only [pageErase]
  split_ifs <;> simp [flashOk, flashDenied, flashFault]

theorem pageWrite_le : (pageWrite c m page data).1 ≤ flashFault := by
  simp only [pageWrite]
  split_ifs <;> simp [flashOk, flashDenied, flashFault]

theorem pageMaybeWrite_le : (pageMaybeWrite c m page data).1 ≤ flashFault := by
  simp only [pageMaybeWrite]
  split_ifs
  · exact (by decide : flashUnchanged ≤ flashFault)
  · exact pageErase_le
  · exact pageWrite_le
  · exact pageWrite_le

/-- A page that was not written held the data, as far as it was compared. -/
theorem pageMaybeWrite_unchanged (h : (pageMaybeWrite c m page data).1 = flashUnchanged) :
    (pageMaybeWrite c m page data).2 = m ∧ pageCompare m page data = 0 := by
  by_cases h_compare : pageCompare m page data = 0
  · simp only [pageMaybeWrite, h_compare, if_true]
    trivial
  · have h_offsets := offsets_of_compare h_compare
    simp only [pageMaybeWrite, h_compare, if_false] at h
    split_ifs at h
    · exact absurd h (pageErase_spec c m page).2.1
    · exact absurd h (pageWrite_spec h_offsets).2.1
    · exact absurd h (pageWrite_spec h_offsets).2.1

/-- A page that was written holds the data, and the others are as before. -/
theorem pageMaybeWrite_ok (h : (pageMaybeWrite c m page data).1 = flashOk) :
    pageCompare m page data ≠ 0 ∧ canWrite page = true ∧
    (∀ addr, pageOf addr ≠ map.cell page → (pageMaybeWrite c m page data).2.mem addr = m.mem addr) ∧
    pageCompare (pageMaybeWrite c m page data).2 page data = 0 := by
  have h_compare : pageCompare m page data ≠ 0 := by
    intro h_zero
    simp only [pageMaybeWrite, h_zero, if_true] at h
    exact absurd h (by decide)
  have h_offsets := offsets_of_compare h_compare
  refine ⟨h_compare, ?_⟩
  simp only [pageMaybeWrite, h_compare, if_false] at h ⊢
  -- the page was erased first, or it was empty where the data are
  split_ifs at h ⊢ with h_two h_erase
  · exact absurd h h_erase
  · obtain ⟨h_ok, -, h_others, -⟩ := pageWrite_spec h_offsets (m := (pageErase c m page).2)
    obtain ⟨h_can, h_same⟩ := h_ok h
    have h_erased := (pageErase_spec c m page).2.2.1
    exact ⟨h_can, fun addr h_ne => (h_others addr h_ne).trans (h_erased addr h_ne), h_same⟩
  · obtain ⟨h_ok, -, h_others, -⟩ := pageWrite_spec h_offsets (m := m)
    obtain ⟨h_can, h_same⟩ := h_ok h
    exact ⟨h_can, h_others, h_same⟩

/-- There is an operation if the page differs from the data, may be written and the controller
unlocks; it is on this page. -/
theorem pageMaybeWrite_ops (c : Controller) (m : Mem map) (page : ℕ) (data : ℕ → UInt8) :
    ∃ ops, (pageMaybeWrite c m page data).2.ops = m.ops ++ ops ∧ (∀ op ∈ ops, op.page = page) ∧
      (ops ≠ [] ↔ pageCompare m page data ≠ 0 ∧ canWrite page = true ∧ c.stuck m.ops = false) := by
  -- a page that holds the data is left alone
  by_cases h_compare : pageCompare m page data = 0
  · refine ⟨[], ?_, fun _ h => absurd h List.not_mem_nil, ?_⟩
    · simp only [pageMaybeWrite, h_compare, if_true, List.append_nil]
    · exact ⟨fun h => absurd rfl h, fun h => absurd h_compare h.1⟩
  have h_offsets := offsets_of_compare h_compare
  have h_erase := (pageErase_spec c m page).2.2.2
  have h_write (m : Mem map) : (pageWrite c m page data).2.ops =
      if canWrite page = true ∧ c.stuck m.ops = false then m.ops ++ [Op.program page] else m.ops :=
    (pageWrite_spec h_offsets).2.2.2
  simp only [pageMaybeWrite, h_compare, if_false]
  -- erasing and writing make the same two checks, so both go through or neither
  by_cases h_go : canWrite page = true ∧ c.stuck m.ops = false
  · rw [if_pos h_go] at h_erase
    -- erased and then not written, erased and written, or only written
    split_ifs with h_two h_fail
    · refine ⟨[.erase page], h_erase, fun op h => by rw [List.mem_singleton.mp h]; rfl, ?_⟩
      exact ⟨fun _ => ⟨h_compare, h_go⟩, fun _ => by simp⟩
    · have h_second := h_write (pageErase c m page).2
      rw [h_erase, h_go.1] at h_second
      split_ifs at h_second with h_stuck
      · refine ⟨[.erase page, .program page], by rw [h_second, List.append_assoc]; rfl,
          fun op h => ?_, fun _ => ⟨h_compare, h_go⟩, fun _ => by simp⟩
        simp only [List.mem_cons, List.not_mem_nil, or_false] at h
        rcases h with rfl | rfl <;> rfl
      · refine ⟨[.erase page], h_second, fun op h => by rw [List.mem_singleton.mp h]; rfl, ?_⟩
        exact ⟨fun _ => ⟨h_compare, h_go⟩, fun _ => by simp⟩
    · refine ⟨[.program page], by rw [h_write, if_pos h_go],
        fun op h => by rw [List.mem_singleton.mp h]; rfl, ?_⟩
      exact ⟨fun _ => ⟨h_compare, h_go⟩, fun _ => by simp⟩
  · rw [if_neg h_go] at h_erase
    refine ⟨[], ?_, fun _ h => absurd h List.not_mem_nil, fun h => absurd rfl h,
      fun h => absurd h.2 h_go⟩
    rw [List.append_nil]
    -- without the checks neither call reaches the controller
    split_ifs with h_two h_fail
    · exact h_erase
    · rw [h_write, h_erase, if_neg h_go]
    · rw [h_write, if_neg h_go]

/-- A page that holds the data is left alone. -/
theorem pageMaybeWrite_of_same (h : pageCompare m page data = 0) :
    pageMaybeWrite c m page data = (flashUnchanged, m) := by
  simp only [pageMaybeWrite, h, if_true]

/-- So is a page that may not be written. -/
theorem pageMaybeWrite_of_denied (h : pageCompare m page data ≠ 0)
    (h_can : canWrite page = false) : pageMaybeWrite c m page data = (flashDenied, m) := by
  have h_erase : pageErase c m page = (flashDenied, m) := if_pos (by simp [h_can])
  have h_write : pageWrite c m page data = (flashDenied, m) := if_pos (by simp [h_can])
  have h_ne : flashDenied ≠ 0 := by decide
  simp only [pageMaybeWrite, h, if_false, h_erase, h_write, h_ne, ne_eq, not_false_eq_true,
    ite_self]

/-- Other pages are left alone. -/
theorem pageMaybeWrite_of_ne {addr : ℕ} (h : pageOf addr ≠ map.cell page) :
    (pageMaybeWrite c m page data).2.mem addr = m.mem addr := by
  by_cases h_compare : pageCompare m page data = 0
  · rw [pageMaybeWrite_of_same h_compare]
  have h_offsets := offsets_of_compare h_compare
  have h_erase := (pageErase_spec c m page).2.2.1 addr h
  have h_write (m : Mem map) : (pageWrite c m page data).2.mem addr = m.mem addr :=
    (pageWrite_spec h_offsets).2.2.1 addr h
  simp only [pageMaybeWrite, h_compare, if_false]
  split_ifs
  · exact h_erase
  · exact (h_write _).trans h_erase
  · exact h_write m

/-! ### A controller that does what it is told -/

theorem read_run (op : Op) (h_page : pageOf op.page = op.page) {i : ℕ} (hi : i < pageSize) :
    (m.run c op data).read (op.page + i) = c.outcome m.ops op data i := by
  have h_aligned : pageOf (map.cell op.page) = map.cell op.page := by
    rw [map.pageOf_cell, h_page]
  show (if pageOf (map.cell (op.page + i)) = _ then _ else _) = _
  rw [map.cell_add h_page hi, pageOf_add h_aligned hi, if_pos rfl, Nat.add_sub_cancel_left]

/-- It erases. -/
theorem pageErase_ideal (h_page : pageOf page = page) (h_lt : page < lastPage)
    (h_can : canWrite page = true) : (pageErase ideal m page).1 = flashOk := by
  -- every word of the page reads back as 0xFFFFFFFF
  have h_erased : pageIsErased (m.run ideal (.erase page) fun _ => 0xFF) page = true := by
    rw [pageIsErased, offsets_of_lt h_lt, List.all_eq_true]
    intro i h_i
    obtain ⟨k, h_k, rfl⟩ := List.mem_map.mp h_i
    have h_lt : k < 512 := List.mem_range.mp h_k
    have h_byte (j : ℕ) (h_j : j < 4) :
        (m.run ideal (.erase page) fun _ => 0xFF).read (page + 4 * k + j) = 0xFF := by
      rw [Nat.add_assoc]
      exact read_run (.erase page) h_page (by unfold pageSize; omega)
    have h_word := congrArg₂ List.cons (h_byte 0 (by decide)) (congrArg₂ List.cons
      (h_byte 1 (by decide)) (congrArg₂ List.cons (h_byte 2 (by decide))
        (congrArg₂ List.cons (h_byte 3 (by decide)) (Eq.refl []))))
    exact decide_eq_true h_word
  have h_stuck : ideal.stuck m.ops = false := rfl
  simp only [pageErase, h_can, h_stuck, not_true_eq_false, if_false, Bool.false_eq_true,
    h_erased, if_true]

/-- It writes. -/
theorem pageWrite_ideal (h_page : pageOf page = page) (h_lt : page < lastPage)
    (h_can : canWrite page = true) : (pageWrite ideal m page data).1 = flashOk := by
  have h_offsets : offsets page ≠ [] := by
    rw [offsets_of_lt h_lt]
    simp
  have h_same : pageCompare (m.run ideal (.program page) data) page data = 0 :=
    (pageCompare_eq_zero h_lt).mpr fun _ h_i => read_run (.program page) h_page h_i
  have h_stuck : ideal.stuck m.ops = false := rfl
  simp only [pageWrite, h_can, h_stuck, not_true_eq_false, if_false, Bool.false_eq_true,
    h_offsets, h_same, ne_eq]

theorem pageMaybeWrite_ideal (h_page : pageOf page = page) (h_lt : page < lastPage)
    (h : pageCompare m page data ≠ 0) (h_can : canWrite page = true) :
    (pageMaybeWrite ideal m page data).1 = flashOk := by
  have h_erase : (pageErase ideal m page).1 = 0 := pageErase_ideal h_page h_lt h_can
  simp only [pageMaybeWrite, h, if_false, h_erase, ne_eq, not_true_eq_false]
  split_ifs <;> exact pageWrite_ideal h_page h_lt h_can

end Compare

end Flash

end Laureline
