import Laureline.Boot.Stores

/-!
# Which pages an update writes

The bootloader's own code is in two places: the first page of the flash at `0x08000000`
(`flash1`), and the second region of the flash from `_user_end` on. `flash_can_write` compares a
page with `_user_start` and `_user_end`. The script gives `_user_start` as an offset (2k), so the
lower bound holds off the first page where it is seen at 0, but not at `0x08000000`; and the upper
bound holds off the second region at its own address, but not where it is seen from `0x30000` on.

The bytes of a file are written back in pieces (`pieces`): a piece ends where the next byte lies
in another page, and the last one at the EOF record.

* `Spares.flush`, `Spares.run` — a file whose first piece for the bootloader's code is refused
  spares it, whatever the controller does;
* `ideal_finds` — otherwise a controller that does what it is told does not;
* `spares_bootloader_iff` — which files spare the bootloader.
-/

namespace Laureline

namespace Boot

open Ihex Flash

/-- The page overlaps the first region, or what is from `_user_end` on. -/
def OwnCode (page : ℕ) : Prop :=
  let p := AddressMap.aliased.cell page
  (p < flash1 + 2 * 1024 ∧ flash1 < p + pageSize) ∨ userEnd < p + pageSize

/-- The cells of the bootloader's code. There is no flash in the last page. -/
def OwnCell (a : ℕ) : Prop := (flash1 ≤ a ∧ a < flash1 + 2 * 1024) ∨ (userEnd ≤ a ∧ a < lastPage)

/-- What is written back at once. -/
structure Piece where
  page : ℕ
  stores : List (ℕ × UInt8)

/-- The pieces of what is still to be stored, with `held` in the buffer. The last one is written
back at the EOF record only. -/
def pieces (ends : Bool) (page : ℕ) (held : List (ℕ × UInt8)) : List (ℕ × UInt8) → List Piece
  | [] => if ends then [{ page, stores := held }] else []
  | x :: xs =>
    if pageOf x.1 = page then pieces ends page (held ++ [x]) xs
    else { page, stores := held } :: pieces ends (pageOf x.1) [x] xs

/-- The page buffer after a reset, as stores in page 0. -/
def zeroes : List (ℕ × UInt8) := (List.range pageSize).map fun i => (i, 0)

/-- What the buffer holds after the first store. The page at address 0 counts as cached at first,
and is not read. -/
def firstHeld (x : ℕ × UInt8) : List (ℕ × UInt8) :=
  if pageOf x.1 = 0 then zeroes ++ [x] else [x]

/-- The pieces of a text. -/
def textPieces (text : List UInt8) : List Piece :=
  match textStores text with
  | [] => []
  | x :: xs => pieces (textEnds text) (pageOf x.1) (firstHeld x) xs

/-- The piece makes a difference to the bootloader's code. -/
def Piece.Alters (mem : ℕ → UInt8) (p : Piece) : Prop :=
  ∃ a, OwnCell a ∧ stored .aliased mem p.stores a ≠ mem a

/-- The piece is addressed to page 0, or to `_user_end` and beyond. -/
def Piece.Refused (p : Piece) : Prop := p.page = 0 ∨ userEnd ≤ p.page

/-- The first piece that makes a difference to the bootloader's code, if there is one, is
refused. -/
def FirstRefused (mem : ℕ → UInt8) : List Piece → Prop
  | [] => True
  | p :: ps => (p.Alters mem → p.Refused) ∧ (¬ p.Alters mem → FirstRefused mem ps)

/-! ### Pages of the bootloader -/

section Pages

variable {page : ℕ}

theorem canWrite_eq_false_iff (h_page : pageOf page = page) (h_lt : page < lastPage) :
    canWrite page = false ↔ page = 0 ∨ userEnd ≤ page := by
  rw [← Bool.not_eq_true, canWrite_iff]
  unfold userStart userEnd nextPage pageOf lastPage pageSize at *
  omega

/-- A page with a cell of the bootloader's is the bootloader's. -/
theorem OwnCell.ownCode (h_page : pageOf page = page) {i : ℕ} (hi : i < pageSize)
    (h : OwnCell (AddressMap.aliased.cell (page + i))) :
    OwnCode page ∧ AddressMap.aliased.cell (page + i) < lastPage := by
  rw [AddressMap.aliased.cell_add h_page hi] at h ⊢
  unfold OwnCell at h
  unfold OwnCode
  unfold pageSize at hi ⊢
  unfold lastPage pageSize userEnd flash1 at *
  omega

/-- All cells of a page of the bootloader are the bootloader's. -/
theorem OwnCode.ownCell (h_page : pageOf page = page) (h_lt : page < lastPage)
    (h : OwnCode page) {i : ℕ} (hi : i < pageSize) :
    OwnCell (AddressMap.aliased.cell (page + i)) := by
  rw [AddressMap.aliased.cell_add h_page hi]
  unfold OwnCell
  unfold OwnCode AddressMap.aliased at h
  unfold AddressMap.aliased
  unfold pageOf pageSize at h_page
  unfold lastPage pageSize userEnd flash1 at *
  dsimp only at h ⊢
  split_ifs at h ⊢ <;> omega

/-- A page that is refused is the bootloader's. -/
theorem ownCode_of_refused (h_page : pageOf page = page) (h : page = 0 ∨ userEnd ≤ page) :
    OwnCode page := by
  rcases h with rfl | h
  · exact .inl (by decide)
  · right
    have h_cell : AddressMap.aliased.cell page = page := if_neg (by unfold userEnd at h; omega)
    rw [h_cell]
    unfold pageSize
    omega

end Pages

/-! ### Writing back -/

/-- The bootloader's code is as it was. -/
structure Spares (mem : ℕ → UInt8) (s : Cache .aliased) : Prop where
  ops : ∀ op ∈ s.flash.ops, ¬ OwnCode op.page
  cells : ∀ a, OwnCell a → s.flash.mem a = mem a

section Flush

variable {c : Controller} {mem : ℕ → UInt8} {s : Cache .aliased} {stores : List (ℕ × UInt8)}

/-- What the buffer holds makes a difference to the bootloader's code if it is for a page of it
and differs from the flash. -/
theorem Holding.alters_iff (h : Holding stores s)
    (h_cells : ∀ a, OwnCell a → s.flash.mem a = mem a) :
    Piece.Alters mem { page := s.currentPage, stores } ↔
      OwnCode s.currentPage ∧ pageCompare s.flash s.currentPage s.pageBuffer ≠ 0 := by
  constructor
  · rintro ⟨a, h_own, h_ne⟩
    -- a cell of the bootloader is as at the start, so the stores make a difference to it now
    have h_differs : stored .aliased s.flash.mem stores a ≠ s.flash.mem a := by
      rw [stored_congr (h_cells a h_own), h_cells a h_own]
      exact h_ne
    -- the stores reach only the page that is held
    have h_page : pageOf a = AddressMap.aliased.cell s.currentPage := by
      by_contra h_a
      exact h_differs (h.stored_of_ne _ h_a)
    obtain ⟨i, h_i, rfl⟩ := h.exists_offset h_page
    obtain ⟨h_code, h_cell⟩ := h_own.ownCode h.page h_i
    -- none of the bootloader's code is in the last page
    have h_lt : s.currentPage < lastPage := by
      refine lt_of_le_of_ne (le_lastPage h.page h.page_lt) fun h_last => ?_
      have h_map : AddressMap.aliased.cell lastPage = lastPage := by decide
      rw [AddressMap.aliased.cell_add h.page h_i, h_last, h_map] at h_cell
      exact absurd h_cell (Nat.not_lt.mpr (Nat.le_add_right _ _))
    refine ⟨h_code, fun h_same => h_differs ?_⟩
    rw [(h.compare_eq_zero h_lt).mp h_same]
  · rintro ⟨h_own, h_compare⟩
    have h_lt := lt_lastPage_of_compare h.page h.page_lt h_compare
    rw [ne_eq, h.compare_eq_zero h_lt] at h_compare
    -- the buffer differs from the flash in some cell of the page
    obtain ⟨a, h_differs⟩ := Function.ne_iff.mp h_compare
    have h_page : pageOf a = AddressMap.aliased.cell s.currentPage := by
      by_contra h_a
      exact h_differs (h.stored_of_ne _ h_a)
    obtain ⟨i, h_i, rfl⟩ := h.exists_offset h_page
    have h_cell := h_own.ownCell h.page h_lt h_i
    refine ⟨_, h_cell, ?_⟩
    rw [← stored_congr (h_cells _ h_cell), ← h_cells _ h_cell]
    exact h_differs

/-- Where the buffer makes a difference to the bootloader's code, a refused page is denied. -/
theorem Holding.denied (h : Holding stores s)
    (h_compare : pageCompare s.flash s.currentPage s.pageBuffer ≠ 0)
    (h_refused : Piece.Refused { page := s.currentPage, stores }) :
    pageMaybeWrite c s.flash s.currentPage s.pageBuffer = (flashDenied, s.flash) := by
  have h_lt := lt_lastPage_of_compare h.page h.page_lt h_compare
  exact pageMaybeWrite_of_denied h_compare ((canWrite_eq_false_iff h.page h_lt).mpr h_refused)

/-- A page of the bootloader stays as it is, unless the buffer makes a difference to it and is
not refused. -/
theorem Holding.flush_own (h : Holding stores s) (h_some : stores ≠ [])
    (h_cells : ∀ a, OwnCell a → s.flash.mem a = mem a)
    (h_first : Piece.Alters mem { page := s.currentPage, stores } →
      Piece.Refused { page := s.currentPage, stores }) (h_own : OwnCode s.currentPage) :
    (flushPage c s).2.flash = s.flash := by
  rw [(flushPage_dirty (h.dirty h_some)).1]
  -- the page is the same, or it is denied
  by_cases h_compare : pageCompare s.flash s.currentPage s.pageBuffer = 0
  · rw [pageMaybeWrite_of_same h_compare]
  · have h_alters := (h.alters_iff h_cells).mpr ⟨h_own, h_compare⟩
    rw [h.denied h_compare (h_first h_alters)]

/-- So do its cells. -/
theorem Holding.flush_cells (h : Holding stores s) (h_some : stores ≠ [])
    (h_cells : ∀ a, OwnCell a → s.flash.mem a = mem a)
    (h_first : Piece.Alters mem { page := s.currentPage, stores } →
      Piece.Refused { page := s.currentPage, stores }) :
    ∀ a, OwnCell a → (flushPage c s).2.flash.mem a = mem a := by
  intro a h_a
  -- a write-back touches its own page only
  by_cases h_page : pageOf a = AddressMap.aliased.cell s.currentPage
  · obtain ⟨i, h_i, rfl⟩ := h.exists_offset h_page
    rw [h.flush_own h_some h_cells h_first (h_a.ownCode h.page h_i).1]
    exact h_cells _ h_a
  · rw [(flushPage_dirty (h.dirty h_some)).1, pageMaybeWrite_of_ne h_page]
    exact h_cells a h_a

theorem Spares.flush (h : Spares mem s) (h_held : Holding stores s) (h_some : stores ≠ [])
    (h_first : Piece.Alters mem { page := s.currentPage, stores } →
      Piece.Refused { page := s.currentPage, stores }) : Spares mem (flushPage c s).2 := by
  refine ⟨fun op h_op => ?_, h_held.flush_cells h_some h.cells h_first⟩
  -- a page of the bootloader sees no operation, and those on another page are for that page
  by_cases h_own : OwnCode s.currentPage
  · rw [h_held.flush_own h_some h.cells h_first h_own] at h_op
    exact h.ops op h_op
  · obtain ⟨ops, h_ops, h_on, -⟩ :=
      pageMaybeWrite_ops c s.flash s.currentPage s.pageBuffer
    rw [(flushPage_dirty (h_held.dirty h_some)).1, h_ops] at h_op
    rcases List.mem_append.mp h_op with h_op | h_op
    · exact h.ops op h_op
    · rw [h_on op h_op]
      exact h_own

/-- Where a refused piece was written back, it made no difference. -/
theorem Holding.not_alters (h : Holding stores s) (h_some : stores ≠ [])
    (h_cells : ∀ a, OwnCell a → s.flash.mem a = mem a)
    (h_first : Piece.Alters mem { page := s.currentPage, stores } →
      Piece.Refused { page := s.currentPage, stores }) (h_zero : (flushPage c s).1 = 0) :
    ¬ Piece.Alters mem { page := s.currentPage, stores } := by
  intro h_alters
  have h_compare := ((h.alters_iff h_cells).mp h_alters).2
  -- a denied page makes the write-back fail
  have h_rv := (flushPage_dirty (h.dirty h_some)).2.mp h_zero
  rw [h.denied h_compare (h_first h_alters)] at h_rv
  exact absurd h_rv (by decide : ¬ (flashDenied = flashOk ∨ flashDenied = flashUnchanged))

/-- A controller that does what it is told goes on behind a piece that makes no difference, and
writes one that does. -/
theorem Holding.flush_ideal (h : Holding stores s) (h_some : stores ≠ [])
    (h_cells : ∀ a, OwnCell a → s.flash.mem a = mem a) :
    (¬ Piece.Alters mem { page := s.currentPage, stores } → (flushPage ideal s).1 = 0) ∧
    (Piece.Alters mem { page := s.currentPage, stores } →
      ¬ Piece.Refused { page := s.currentPage, stores } →
      ∃ op ∈ (flushPage ideal s).2.flash.ops, OwnCode op.page) := by
  obtain ⟨h_flash, h_zero⟩ := flushPage_dirty (c := ideal) (h.dirty h_some)
  rw [h.alters_iff h_cells, h_flash, h_zero]
  constructor
  · intro h_none
    by_cases h_compare : pageCompare s.flash s.currentPage s.pageBuffer = 0
    · right
      rw [pageMaybeWrite_of_same h_compare]
    · left
      have h_lt := lt_lastPage_of_compare h.page h.page_lt h_compare
      refine pageMaybeWrite_ideal h.page h_lt h_compare ?_
      -- a page that may not be written is the bootloader's
      by_contra h_can
      rw [Bool.not_eq_true, canWrite_eq_false_iff h.page h_lt] at h_can
      exact h_none ⟨ownCode_of_refused h.page h_can, h_compare⟩
  · rintro ⟨h_own, h_compare⟩ h_refused
    have h_lt := lt_lastPage_of_compare h.page h.page_lt h_compare
    have h_can : canWrite s.currentPage = true := by
      rw [← Bool.not_eq_false, canWrite_eq_false_iff h.page h_lt]
      exact h_refused
    obtain ⟨ops, h_ops, h_on, h_new⟩ :=
      pageMaybeWrite_ops ideal s.flash s.currentPage s.pageBuffer
    obtain ⟨op, h_op⟩ := List.exists_mem_of_ne_nil ops (h_new.mpr ⟨h_compare, h_can, rfl⟩)
    refine ⟨op, ?_, ?_⟩
    · rw [h_ops]
      exact List.mem_append_right _ h_op
    · rw [h_on op h_op]
      exact h_own

end Flush

/-! ### Runs -/

section Runs

variable {c : Controller} {mem : ℕ → UInt8} {s : Cache .aliased} {stores : List (ℕ × UInt8)}
  {ends : Bool}

/-- The operations so far are not forgotten. -/
theorem flushPage_ops (s : Cache .aliased) :
    s.flash.ops <+: (flushPage c s).2.flash.ops := by
  by_cases h : s.dirty = true
  · obtain ⟨ops, h_ops, -⟩ := pageMaybeWrite_ops c s.flash s.currentPage s.pageBuffer
    rw [(flushPage_dirty h).1, h_ops]
    exact List.prefix_append _ _
  · have h_flush : flushPage c s = (0, s) := if_pos h
    rw [h_flush]

theorem store_ops (s : Cache .aliased) (x : ℕ × UInt8) :
    s.flash.ops <+: (store c s x).2.flash.ops := by
  by_cases h_page : pageOf x.1 = s.currentPage
  · rw [store_of_eq h_page.symm]
    exact List.prefix_refl _
  · rw [store_of_ne h_page]
    dsimp only
    split_ifs
    · exact flushPage_ops s
    · exact flushPage_ops s

theorem storeAll_ops (s : Cache .aliased) (xs : List (ℕ × UInt8)) :
    s.flash.ops <+: (storeAll c s xs).2.flash.ops := by
  induction xs generalizing s with
  | nil => exact List.prefix_refl _
  | cons x xs ih =>
    simp only [storeAll]
    split_ifs
    · exact store_ops s x
    · exact (store_ops s x).trans (ih _)

theorem finish_ops (r : ℕ × Cache .aliased) :
    r.2.flash.ops <+: (finish c ends r).flash.ops := by
  unfold finish
  split_ifs
  · exact flushPage_ops r.2
  · exact List.prefix_refl _

/-- The stores that are still to come, behind a write-back. -/
theorem storeAll_of_ne {x : ℕ × UInt8} (h : pageOf x.1 ≠ s.currentPage)
    (xs : List (ℕ × UInt8)) : storeAll c s (x :: xs) =
      let r := flushPage c s
      if r.1 ≠ 0 then r
      else storeAll c ((r.2.populate (pageOf x.1)).copy (x.1 - pageOf x.1) [x.2]) xs := by
  rw [storeAll, store_of_ne h]
  dsimp only
  by_cases h_zero : (flushPage c s).1 = 0
  · simp only [h_zero, ne_eq, not_true_eq_false, if_false]
  · simp only [h_zero, ne_eq, not_false_eq_true, if_true]

/-- **A file whose first piece for the bootloader's code is refused spares it.** -/
theorem Spares.run (h : Spares mem s) (h_held : Holding stores s) (h_some : stores ≠ [])
    {rest : List (ℕ × UInt8)} (h_rest : ∀ x ∈ rest, x.1 < 2 ^ 32)
    (h_first : FirstRefused mem (pieces ends s.currentPage stores rest)) :
    Spares mem (finish c ends (storeAll c s rest)) := by
  -- one store after the other: it goes to the piece in the buffer, or begins another one
  induction rest generalizing s stores with
  | nil =>
    simp only [pieces, storeAll, finish, true_and] at h_first ⊢
    split_ifs at h_first ⊢
    · exact h.flush h_held h_some h_first.1
    · exact h
  | cons x rest ih =>
    have h_rest' : ∀ y ∈ rest, y.1 < 2 ^ 32 := fun y h_y => h_rest y (List.mem_cons_of_mem _ h_y)
    rw [pieces] at h_first
    by_cases h_page : pageOf x.1 = s.currentPage
    · rw [if_pos h_page] at h_first
      rw [storeAll, store_of_eq h_page.symm]
      exact ih ⟨h.ops, h.cells⟩ (h_held.copy h_page) (by simp) h_rest' h_first
    · rw [if_neg h_page] at h_first
      obtain ⟨h_refused, h_more⟩ := h_first
      have h_flush : Spares mem (flushPage c s).2 := h.flush h_held h_some h_refused
      rw [storeAll_of_ne h_page]
      dsimp only
      split_ifs with h_zero
      · simp only [finish, h_zero, false_and, if_false]
        exact h_flush
      · have h_none := h_held.not_alters h_some h.cells h_refused (not_not.mp h_zero)
        have h_next := (Holding.populate (h_rest x List.mem_cons_self) (flushPage c s).2).copy rfl
        exact ih ⟨h_flush.ops, h_flush.cells⟩ h_next (by simp) h_rest' (h_more h_none)

variable (ends s) in
/-- **Otherwise a controller that does what it is told does not.** -/
theorem ideal_finds (h_cells : ∀ a, OwnCell a → s.flash.mem a = mem a)
    (h_held : Holding stores s) (h_some : stores ≠ [])
    {rest : List (ℕ × UInt8)} (h_rest : ∀ x ∈ rest, x.1 < 2 ^ 32)
    (h_first : ¬ FirstRefused mem (pieces ends s.currentPage stores rest)) :
    ∃ op ∈ (finish ideal ends (storeAll ideal s rest)).flash.ops, OwnCode op.page := by
  induction rest generalizing s stores with
  | nil =>
    simp only [pieces, storeAll, finish, true_and] at h_first ⊢
    split_ifs at h_first ⊢
    · obtain ⟨-, h_writes⟩ := h_held.flush_ideal h_some h_cells
      simp only [FirstRefused, implies_true, and_true, Classical.not_imp] at h_first
      exact h_writes h_first.1 h_first.2
    · exact absurd trivial h_first
  | cons x rest ih =>
    have h_rest' : ∀ y ∈ rest, y.1 < 2 ^ 32 := fun y h_y => h_rest y (List.mem_cons_of_mem _ h_y)
    rw [pieces] at h_first
    by_cases h_page : pageOf x.1 = s.currentPage
    · rw [if_pos h_page] at h_first
      rw [storeAll, store_of_eq h_page.symm]
      exact ih _ h_cells (h_held.copy h_page) (by simp) h_rest' h_first
    · rw [if_neg h_page] at h_first
      obtain ⟨h_goes, h_writes⟩ := h_held.flush_ideal h_some h_cells
      by_cases h_alters : Piece.Alters mem { page := s.currentPage, stores }
      · -- this piece is written, and its operation stays on record
        have h_refused : ¬ Piece.Refused { page := s.currentPage, stores } :=
          fun h' => h_first ⟨fun _ => h', fun h_none => absurd h_alters h_none⟩
        obtain ⟨op, h_op, h_own⟩ := h_writes h_alters h_refused
        refine ⟨op, (finish_ops _).subset ?_, h_own⟩
        rw [storeAll_of_ne h_page]
        dsimp only
        split_ifs
        · exact h_op
        · exact (storeAll_ops _ rest).subset h_op
      · have h_zero := h_goes h_alters
        have h_next := (Holding.populate (h_rest x List.mem_cons_self) (flushPage ideal s).2).copy
          rfl
        rw [storeAll_of_ne h_page]
        simp only [h_zero, ne_eq, not_true_eq_false, if_false]
        refine ih _ ?_ h_next (by simp) h_rest' ?_
        · exact h_held.flush_cells h_some h_cells fun h' => absurd h' h_alters
        · exact fun h' => h_first ⟨fun h'' => absurd h'' h_alters, fun _ => h'⟩

end Runs

/-! ### From a reset on -/

theorem textStores_lt (text : List UInt8) : ∀ x ∈ textStores text, x.1 < 2 ^ 32 := by
  have h_from (addr : ℕ) (data : List UInt8) : ∀ x ∈ storesFrom addr data, x.1 < 2 ^ 32 := by
    induction data generalizing addr with
    | nil => exact fun x h_x => absurd h_x List.not_mem_nil
    | cons byte data ih =>
      intro x h_x
      rcases List.mem_cons.mp h_x with rfl | h_x
      · exact Nat.mod_lt _ (by decide)
      · exact ih (addr + 1) x h_x
  intro x h_x
  obtain ⟨w, -, h_w⟩ := List.mem_flatMap.mp h_x
  exact h_from w.1 w.2 x h_w

/-- The first store, into the page at address 0 or into a page that is read. -/
theorem exists_first (c : Controller) (mem : ℕ → UInt8) {x : ℕ × UInt8} (h_x : x.1 < 2 ^ 32)
    (xs : List (ℕ × UInt8)) :
    ∃ s : Cache .aliased, Holding (firstHeld x) s ∧ s.currentPage = pageOf x.1 ∧
      s.flash = { mem, ops := [] } ∧
      storeAll c (bootloaderStart (powerUp .aliased mem)).cache (x :: xs) = storeAll c s xs := by
  let s := (bootloaderStart (powerUp .aliased mem)).cache
  by_cases h_zero : pageOf x.1 = 0
  · -- the zeroes of the buffer are as good as stored
    have h_page : s.currentPage = pageOf x.1 := h_zero.symm
    have h_zeroes : Holding zeroes { s with dirty := true } := by
      refine ⟨(by decide : pageOf 0 = 0), (by decide : 0 < 2 ^ 32), fun _ => rfl,
        fun y h_y => ?_, fun i h_i => ?_⟩
      · obtain ⟨i, h_i, rfl⟩ := List.mem_map.mp h_y
        have h_add := pageOf_add (by decide : pageOf 0 = 0) (List.mem_range.mp h_i)
        rwa [Nat.zero_add] at h_add
      · refine (stored_const (fun y h_y => ?_) ⟨(i, 0), ?_, ?_⟩).symm
        · obtain ⟨i, -, rfl⟩ := List.mem_map.mp h_y
          rfl
        · exact List.mem_map_of_mem (List.mem_range.mpr h_i)
        · show AddressMap.aliased.cell i = AddressMap.aliased.cell (0 + i)
          rw [Nat.zero_add]
    refine ⟨s.copy (x.1 - pageOf x.1) [x.2], ?_, h_page, rfl, ?_⟩
    · rw [firstHeld, if_pos h_zero]
      exact h_zeroes.copy h_zero
    · rw [storeAll, store_of_eq h_page]
      rfl
  · have h_page : pageOf x.1 ≠ s.currentPage := h_zero
    have h_flush : flushPage c s = (0, s) := if_pos Bool.false_ne_true
    refine ⟨(s.populate (pageOf x.1)).copy (x.1 - pageOf x.1) [x.2], ?_, rfl, rfl, ?_⟩
    · rw [firstHeld, if_neg h_zero]
      exact (Holding.populate h_x s).copy rfl
    · rw [storeAll_of_ne h_page, h_flush]
      rfl

/-- **Which files spare the bootloader.** No operation of a run is on a page of the bootloader,
whatever the controller does, exactly if the first piece of the file that makes a difference to
the bootloader's code is refused. -/
theorem spares_bootloader_iff (mem : ℕ → UInt8) (bufs : List (List UInt8)) :
    (∀ c, ∀ op ∈ (load .aliased c mem bufs).cache.flash.ops, ¬ OwnCode op.page) ↔
      FirstRefused mem (textPieces bufs.flatten) := by
  simp only [load_cache]
  have h_lt := textStores_lt bufs.flatten
  unfold textPieces
  cases h_stores : textStores bufs.flatten with
  | nil =>
    -- nothing is written back
    refine ⟨fun _ => trivial, fun _ c op h_op => ?_⟩
    have h_ops : (finish c (textEnds bufs.flatten)
        (storeAll c (bootloaderStart (powerUp .aliased mem)).cache [])).flash.ops = [] := by
      unfold finish
      split_ifs <;> rfl
    rw [h_ops] at h_op
    exact absurd h_op List.not_mem_nil
  | cons x xs =>
    rw [h_stores] at h_lt
    have h_xs : ∀ y ∈ xs, y.1 < 2 ^ 32 := fun y h_y => h_lt y (List.mem_cons_of_mem _ h_y)
    have h_some : firstHeld x ≠ [] := by
      unfold firstHeld
      split_ifs <;> simp
    constructor
    · intro h_spared
      by_contra h_first
      obtain ⟨s, h_held, h_page, h_flash, h_run⟩ :=
        exists_first ideal mem (h_lt x List.mem_cons_self) xs
      obtain ⟨op, h_op, h_own⟩ := ideal_finds s (textEnds bufs.flatten)
        (fun a _ => by rw [h_flash]) h_held h_some h_xs (by rw [h_page]; exact h_first)
      rw [← h_run] at h_op
      exact h_spared ideal op h_op h_own
    · intro h_first c
      obtain ⟨s, h_held, h_page, h_flash, h_run⟩ :=
        exists_first c mem (h_lt x List.mem_cons_self) xs
      rw [h_run]
      have h_spares : Spares mem s :=
        ⟨fun op h_op => by rw [h_flash] at h_op; exact absurd h_op List.not_mem_nil,
          fun a _ => by rw [h_flash]⟩
      exact (h_spares.run h_held h_some h_xs (by rw [h_page]; exact h_first)).ops

/-- A linear base record for the flash, a byte at its origin, and the EOF record. -/
def ownRecord : List (List UInt8) :=
  [[58, 48, 50, 48, 48, 48, 48, 48, 52, 48, 56, 48, 48, 70, 50, 10],
    [58, 48, 49, 48, 48, 48, 48, 48, 48, 65, 65, 53, 53, 10],
    [58, 48, 48, 48, 48, 48, 48, 48, 49, 70, 70, 10]]

/-- A linear base record for `0x30000`, a byte there, and the EOF record. -/
def aliasRecord : List (List UInt8) :=
  [[58, 48, 50, 48, 48, 48, 48, 48, 52, 48, 48, 48, 51, 70, 55, 10],
    [58, 48, 49, 48, 48, 48, 48, 48, 48, 65, 65, 53, 53, 10],
    [58, 48, 48, 48, 48, 48, 48, 48, 49, 70, 70, 10]]

/-- The first page of the flash is erased and programmed, and so is one of the second region. -/
theorem overwrites_bootloader :
    (load .aliased ideal (fun _ => 0) ownRecord).cache.flash.ops =
      [.erase 0x08000000, .program 0x08000000] ∧
    (load .aliased ideal (fun _ => 0) aliasRecord).cache.flash.ops =
      [.erase 0x30000, .program 0x30000] ∧
    ¬ ∀ c mem bufs, ∀ op ∈ (load .aliased c mem bufs).cache.flash.ops, ¬ OwnCode op.page := by
  have h_own : (load .aliased ideal (fun _ => 0) ownRecord).cache.flash.ops =
      [.erase 0x08000000, .program 0x08000000] := by
    decide +kernel
  have h_alias : (load .aliased ideal (fun _ => 0) aliasRecord).cache.flash.ops =
      [.erase 0x30000, .program 0x30000] := by
    decide +kernel
  refine ⟨h_own, h_alias, fun h => ?_⟩
  refine h ideal (fun _ => 0) aliasRecord (.erase 0x30000) ?_ (.inr (by decide))
  rw [h_alias]
  exact List.mem_cons_self

end Boot

end Laureline
