import Laureline.Boot.Bootloader

/-!
# What a finished update leaves in memory

The cache stands for a memory that is ahead of the flash: the flash overlaid with the data
records so far (`Cached`). Writing back, reading a page and storing data keep it.

The page at address 0 counts as cached before it was read (`current_page` is a null pointer).
Writing it back is denied, unless the flash holds what the buffer does. The last page of the
address space is never written, since nothing of it is compared.

* `bootloader_overlay` — after a run that ends in `BLS_DONE` the memory is the initial one
  overlaid with the data records before the EOF record, and if nothing is said to have changed
  there was no operation.
-/

namespace Laureline

namespace Boot

open Ihex Flash

/-- The cache stands for the memory `L`; the memory was `init` at first. -/
structure Cached (init L : ℕ → UInt8) (s : Cache .flat) : Prop where
  page : pageOf s.currentPage = s.currentPage
  page_lt : s.currentPage < 2 ^ 32
  last : ∀ addr, lastPage ≤ addr → s.flash.mem addr = init addr
  outside : ∀ addr, addr < lastPage → pageOf addr ≠ s.currentPage → s.flash.mem addr = L addr
  /-- Of the page at address 0 the buffer holds only what was stored in it. -/
  inside : ∀ addr, addr < lastPage → pageOf addr = s.currentPage →
    s.pageBuffer (addr - s.currentPage) = L addr ∨ (s.currentPage = 0 ∧ s.flash.mem addr = L addr)
  clean : s.dirty = false → ∀ addr, addr < lastPage → s.flash.mem addr = L addr
  unchanged : s.changed = false → s.flash.ops = []

section Cached

variable {c : Controller} {init L : ℕ → UInt8} {s : Cache .flat}

/-- The cached page holds what the buffer does. -/
theorem Cached.of_same (h : Cached init L s) (h_lt : s.currentPage < lastPage)
    (h_same : pageCompare s.flash s.currentPage s.pageBuffer = 0) (addr : ℕ)
    (h_addr : addr < lastPage) : s.flash.mem addr = L addr := by
  by_cases h_page : pageOf addr = s.currentPage
  · rcases h.inside addr h_addr h_page with h_buf | ⟨-, h_mem⟩
    · rw [← h_page] at h_lt h_same h_buf
      exact (read_of_compare h_lt h_same).trans h_buf
    · exact h_mem
  · exact h.outside addr h_addr h_page

/-- `flush_page` leaves nothing to write back. -/
theorem Cached.flush (h : Cached init L s) (h_ok : (flushPage c s).1 = 0) :
    Cached init L (flushPage c s).2 ∧ (flushPage c s).2.dirty = false := by
  by_cases h_dirty : s.dirty = true
  swap
  · have h_flush : flushPage c s = (0, s) := if_pos h_dirty
    rw [h_flush]
    exact ⟨h, by simpa using h_dirty⟩
  simp only [flushPage, h_dirty, not_true_eq_false, if_false] at h_ok ⊢
  split_ifs at h_ok ⊢ with h_flash h_unchanged
  · -- the page was written
    obtain ⟨h_compare, h_can, h_others, h_same⟩ := pageMaybeWrite_ok h_flash
    -- page 0 is the null page of an empty cache, and is never written
    have h_pos : s.currentPage ≠ 0 := by
      intro h_zero
      rw [h_zero] at h_can
      exact absurd h_can (by decide)
    have h_lt : s.currentPage < lastPage := lt_lastPage_of_compare h.page h.page_lt h_compare
    have h_mem (addr : ℕ) (h_addr : addr < lastPage) :
        (pageMaybeWrite c s.flash s.currentPage s.pageBuffer).2.mem addr = L addr := by
      by_cases h_page : pageOf addr = s.currentPage
      · have h_buf := (h.inside addr h_addr h_page).resolve_right fun h_null => h_pos h_null.1
        rw [← h_page] at h_lt h_same h_buf ⊢
        exact (read_of_compare h_lt h_same).trans h_buf
      · rw [h_others addr h_page]
        exact h.outside addr h_addr h_page
    refine ⟨⟨h.page, h.page_lt, fun addr h_addr => ?_, fun addr h_addr _ => h_mem addr h_addr,
      fun addr h_addr h_page => ?_, fun _ => h_mem, fun h_no => absurd h_no (by simp)⟩, rfl⟩
    · exact (h_others addr (pageOf_ne_of_last h_lt h_addr)).trans (h.last addr h_addr)
    · exact .inl ((h.inside addr h_addr h_page).resolve_right fun h_null => h_pos h_null.1)
  · exact absurd h_ok h_flash
  · -- the page was not written
    obtain ⟨h_flash_eq, h_compare⟩ := pageMaybeWrite_unchanged (not_not.mp h_unchanged)
    rw [h_flash_eq]
    have h_mem (addr : ℕ) (h_addr : addr < lastPage) : s.flash.mem addr = L addr := by
      -- the page is in flash as it is in the cache, or it lies behind the end
      by_cases h_lt : s.currentPage < lastPage
      · exact h.of_same h_lt h_compare addr h_addr
      · refine h.outside addr h_addr fun h_page => h_lt ?_
        rw [← h_page]
        exact Nat.lt_of_le_of_lt (pageOf_le addr) h_addr
    exact ⟨⟨h.page, h.page_lt, h.last, h.outside, h.inside, fun _ => h_mem, h.unchanged⟩, rfl⟩

/-- Another page is read when there is nothing to write back. -/
theorem Cached.populate (h : Cached init L s) (h_clean : s.dirty = false) {addr : ℕ}
    (h_addr : addr < 2 ^ 32) : Cached init L (s.populate (pageOf addr)) where
  page := pageOf_pageOf addr
  page_lt := Nat.lt_of_le_of_lt (pageOf_le addr) h_addr
  last := h.last
  outside a h_a _ := h.clean h_clean a h_a
  inside a h_a h_page := by
    left
    show s.flash.mem (pageOf addr + (a - pageOf addr)) = L a
    have h_le : pageOf addr ≤ a := by
      have h_le := pageOf_le a
      rwa [h_page] at h_le
    rw [Nat.add_sub_cancel' h_le]
    exact h.clean h_clean a h_a
  clean _ := h.clean h_clean
  unchanged := h.unchanged

/-- The page of an address is cached. -/
theorem Cached.load (h : Cached init L s) {addr : ℕ} (h_addr : addr < 2 ^ 32)
    (h_ok : (loadPage c s (pageOf addr)).1 = 0) :
    Cached init L (loadPage c s (pageOf addr)).2 ∧
      (loadPage c s (pageOf addr)).2.currentPage = pageOf addr := by
  simp only [loadPage] at h_ok ⊢
  split_ifs at h_ok ⊢ with h_page h_flush
  · exact absurd h_ok h_flush
  · obtain ⟨h_cached, h_clean⟩ := h.flush (not_not.mp h_flush)
    exact ⟨h_cached.populate h_clean h_addr, rfl⟩
  · exact ⟨h, (not_not.mp h_page).symm⟩

/-- Data that fits in the cached page is stored. -/
theorem Cached.copy (h : Cached init L s) {addr : ℕ} {data : List UInt8}
    (h_page : s.currentPage = pageOf addr) (h_fits : addr + data.length ≤ pageOf addr + pageSize) :
    Cached init (Memory.write (2 ^ 32) L addr data) (s.copy (addr - pageOf addr) data) := by
  have h_le := pageOf_le addr
  have h_end : addr + data.length ≤ 2 ^ 32 := by
    have h_last := le_lastPage h.page h.page_lt
    rw [h_page] at h_last
    unfold lastPage pageSize at h_last
    unfold pageSize at h_fits
    omega
  -- other pages are untouched
  have h_beside (a : ℕ) (ha : pageOf a ≠ pageOf addr) :
      Memory.write (2 ^ 32) L addr data a = L a := by
    refine Memory.write_of_disjoint h_end ?_
    by_contra h_in
    refine ha ?_
    unfold pageOf pageSize at *
    omega
  refine ⟨h.page, h.page_lt, h.last, fun a h_a ha => ?_, fun a h_a ha => ?_,
    fun h_no => ?_, h.unchanged⟩
  · have h_other : pageOf a ≠ pageOf addr := by
      rw [← h_page]
      exact ha
    rw [h_beside a h_other]
    exact h.outside a h_a ha
  · have ha' : pageOf a = s.currentPage := ha
    have h_le_a : s.currentPage ≤ a := ha' ▸ pageOf_le a
    have h_off : a - s.currentPage < pageSize := ha' ▸ sub_pageOf_lt a
    show Memory.write pageSize s.pageBuffer (addr - pageOf addr) data (a - s.currentPage) = _ ∨ _
    by_cases h_in : addr ≤ a ∧ a < addr + data.length
    · -- the byte was stored
      left
      obtain ⟨k, rfl⟩ : ∃ k, a = addr + k := ⟨a - addr, by omega⟩
      have hk : k < data.length := by omega
      rw [Memory.write_of_fits h_end hk, h_page,
        show addr + k - pageOf addr = addr - pageOf addr + k by omega]
      exact Memory.write_of_fits (by omega) hk
    · -- it was not
      have h_same : Memory.write (2 ^ 32) L addr data a = L a :=
        Memory.write_of_disjoint h_end (by omega)
      rw [h_same, Memory.write_of_disjoint (by omega) (by omega)]
      exact h.inside a h_a ha'
  · rw [copy_dirty] at h_no
    exact absurd h_no (by decide)

/-- `bootloader_callback` stores its data in the memory that the cache stands for. -/
theorem Cached.callbackLoop {fuel : ℕ} (h : Cached init L s) {addr : ℕ} {data : List UInt8}
    (h_addr : addr < 2 ^ 32) (h_fuel : data.length ≤ fuel)
    (h_ok : (callbackLoop c fuel s addr data).1 = 0) :
    Cached init (Memory.write (2 ^ 32) L addr data) (callbackLoop c fuel s addr data).2 := by
  -- one chunk for each turn, up to the end of its page
  induction fuel generalizing s L addr data with
  | zero =>
    obtain rfl := List.length_eq_zero_iff.mp (Nat.le_zero.mp h_fuel)
    exact h
  | succ fuel ih =>
    simp only [Boot.callbackLoop] at h_ok ⊢
    split_ifs at h_ok ⊢ with h_nil h_load
    · subst h_nil
      exact h
    · exact absurd h_ok h_load
    · obtain ⟨h_cached, h_page⟩ := h.load h_addr (not_not.mp h_load)
      have h_le := pageOf_le addr
      have h_add := lt_pageOf_add addr
      have h_pos : 0 < data.length := List.length_pos_iff.mpr h_nil
      generalize h_chunk : min (pageSize - (addr - pageOf addr)) data.length = n at h_ok ⊢
      have h_take : (data.take n).length = n := by
        rw [List.length_take]
        omega
      have h_stored := h_cached.copy h_page
        (by rw [h_take]; omega : addr + (data.take n).length ≤ _)
      have h_rest := ih h_stored (Nat.mod_lt _ (by decide)) (by rw [List.length_drop]; omega) h_ok
      -- a write is the write of its chunk and of the rest
      have h_split : Memory.write (2 ^ 32) L addr data =
          Memory.write (2 ^ 32) (Memory.write (2 ^ 32) L addr (data.take n)) (addr + n)
            (data.drop n) := by
        conv_lhs => rw [← List.take_append_drop n data]
        rw [Memory.write_append, h_take]
      rw [h_split]
      rwa [Memory.write_mod] at h_rest

/-- Records that are stored one after the other overlay the memory. -/
theorem Cached.calls (h : Cached init L s) {ws : List (ℕ × List UInt8)}
    (h_ws : ∀ w ∈ ws, w.1 < 2 ^ 32) {s' : Cache .flat}
    (h_calls : Ihex.calls (bootloaderCallback c) s ws = some s') :
    Cached init (Memory.overlay (2 ^ 32) L ws) s' := by
  induction ws generalizing s L with
  | nil =>
    obtain rfl := Option.some.inj h_calls
    exact h
  | cons w ws ih =>
    simp only [Ihex.calls] at h_calls
    split_ifs at h_calls with h_ok
    have h_stored := h.callbackLoop (h_ws w List.mem_cons_self) (Nat.le_refl _) h_ok
    exact ih h_stored (fun v hv => h_ws v (List.mem_cons_of_mem _ hv)) h_calls

end Cached

theorem cached_start (mem : ℕ → UInt8) :
    Cached mem mem (bootloaderStart (powerUp .flat mem)).cache where
  page := (by decide : pageOf 0 = 0)
  page_lt := (by decide : 0 < 2 ^ 32)
  last _ _ := rfl
  outside _ _ _ := rfl
  inside _ _ _ := .inr ⟨rfl, rfl⟩
  clean _ _ _ := rfl
  unchanged _ := rfl

/-- **What a finished update leaves in memory.** For every initial memory, every controller and
every way in which the text comes in pieces. -/
theorem bootloader_overlay (c : Controller) (mem : ℕ → UInt8) (bufs : List (List UInt8))
    (h : (load .flat c mem bufs).status = .done) :
    let s := (load .flat c mem bufs).cache
    let ws := writes 0 ((lines [] bufs.flatten).map decode)
    (∀ addr, addr < lastPage → s.flash.mem addr = Memory.overlay (2 ^ 32) mem ws addr) ∧
    (∀ addr, lastPage ≤ addr → s.flash.mem addr = mem addr) ∧
    (s.changed = false → s.flash.ops = []) := by
  obtain ⟨h_eof, h_flush, h_cache⟩ := feedAll_done (b := bootloaderStart (powerUp .flat mem)) rfl h
  have h_calls := ihexFeed_eof bootloaderCallback_ne_eof (.start rfl) h_eof
  have h_cached := (cached_start mem).calls (writes_lt _ _) h_calls
  obtain ⟨h_final, h_clean⟩ := h_cached.flush h_flush
  rw [load, h_cache]
  exact ⟨h_final.clean h_clean, h_final.last, h_final.unchanged⟩

/-- A record for both sides of a page border, one for a byte of it, and the EOF record, in three
pieces. -/
def overlapping : List (List UInt8) :=
  [[58, 48, 52, 48, 70, 70, 69, 48, 48, 49, 49, 50, 50, 51, 51, 52, 52, 52, 53, 10, 58, 48, 49],
    [49, 48, 48, 48, 48, 48, 65, 65, 52, 53, 10],
    [58, 48, 48, 48, 48, 48, 48, 48, 49, 70, 70, 10]]

theorem bootloader_overlay_overlapping :
    [0xFFE, 0xFFF, 0x1000, 0x1001, 0x1002].map
      (load .flat ideal (fun _ => 0xFF) overlapping).cache.flash.mem =
        [0x11, 0x22, 0xAA, 0x44, 0xFF] := by
  have h_done : (load .flat ideal (fun _ => 0xFF) overlapping).status = .done := by
    decide +kernel
  obtain ⟨h_mem, -, -⟩ := bootloader_overlay ideal (fun _ => 0xFF) overlapping h_done
  rw [List.map_congr_left (g := Memory.overlay (2 ^ 32) (fun _ => 0xFF)
    (writes 0 ((lines [] overlapping.flatten).map decode))) fun addr h_addr => h_mem addr ?_]
  · decide +kernel
  · revert addr
    decide

end Boot

end Laureline
