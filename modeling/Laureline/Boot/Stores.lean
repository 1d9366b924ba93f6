import Laureline.Boot.HexText
import Laureline.Boot.Bootloader

/-!
# An update as stores of bytes

The bytes of the data records go to the cache one after the other (`storeAll`), whatever the
records and the pieces of the text are. Between two write-backs the buffer is ahead of the flash
by the stores since then (`Holding`).

* `callbackLoop_eq` — the chunks of `bootloader_callback` do not matter;
* `load_cache` — an update stores the bytes of its text, and writes back at its EOF record;
* `Holding.compare_eq_zero` — what `flash_page_compare` says of the buffer.
-/

namespace Laureline

namespace Boot

open Ihex Flash

/-- Bytes from an address on, each with its own address. -/
def storesFrom (addr : ℕ) : List UInt8 → List (ℕ × UInt8)
  | [] => []
  | byte :: data => (addr % 2 ^ 32, byte) :: storesFrom (addr + 1) data

/-- The bytes of the data records of a text. -/
def textStores (text : List UInt8) : List (ℕ × UInt8) :=
  (writes 0 ((lines [] text).map taken)).flatMap fun w => storesFrom w.1 w.2

/-- The text is read up to an EOF record. -/
def textEnds (text : List UInt8) : Bool := endsInEof ((lines [] text).map taken)

/-- The memory after some stores. -/
def stored (map : AddressMap) (mem : ℕ → UInt8) (stores : List (ℕ × UInt8)) : ℕ → UInt8 :=
  stores.foldl (fun mem x => Function.update mem (map.cell x.1) x.2) mem

section Stores

variable {map : AddressMap} (c : Controller)

/-- One byte goes to the cache. -/
def store (s : Cache map) (x : ℕ × UInt8) : ℕ × Cache map :=
  let r := loadPage c s (pageOf x.1)
  if r.1 ≠ 0 then r else (0, r.2.copy (x.1 - pageOf x.1) [x.2])

/-- Bytes go to the cache, up to a failure. -/
def storeAll : Cache map → List (ℕ × UInt8) → ℕ × Cache map
  | s, [] => (0, s)
  | s, x :: xs =>
    let r := store c s x
    if r.1 ≠ 0 then r else storeAll r.2 xs

/-- The cache at the end of an update. -/
def finish (ends : Bool) (r : ℕ × Cache map) : Cache map :=
  if r.1 = 0 ∧ ends = true then (flushPage c r.2).2 else r.2

end Stores

/-! ### Bytes and chunks -/

theorem storesFrom_append (addr : ℕ) (xs ys : List UInt8) :
    storesFrom addr (xs ++ ys) = storesFrom addr xs ++ storesFrom (addr + xs.length) ys := by
  induction xs generalizing addr with
  | nil => rfl
  | cons x xs ih =>
    rw [List.cons_append, storesFrom, ih, List.length_cons, Nat.add_assoc, Nat.add_comm 1]
    rfl

theorem storesFrom_mod (addr : ℕ) (data : List UInt8) :
    storesFrom (addr % 2 ^ 32) data = storesFrom addr data := by
  have h_congr {a b : ℕ} (h : a % 2 ^ 32 = b % 2 ^ 32) : storesFrom a data = storesFrom b data := by
    induction data generalizing a b with
    | nil => rfl
    | cons x data ih =>
      have h_succ : (a + 1) % 2 ^ 32 = (b + 1) % 2 ^ 32 := by omega
      rw [storesFrom, storesFrom, h, ih h_succ]
  exact h_congr (Nat.mod_mod addr _)

/-- A page ends in the address space. -/
theorem pageOf_end {addr : ℕ} (h : addr < 2 ^ 32) : pageOf addr + pageSize ≤ 2 ^ 32 := by
  unfold pageOf pageSize
  omega

section Chunks

variable {map : AddressMap} {c : Controller} {s : Cache map}

theorem storeAll_append (xs ys : List (ℕ × UInt8)) : storeAll c s (xs ++ ys) =
    let r := storeAll c s xs
    if r.1 ≠ 0 then r else storeAll c r.2 ys := by
  induction xs generalizing s with
  | nil => rfl
  | cons x xs ih =>
    simp only [List.cons_append, storeAll]
    by_cases h : (store c s x).1 = 0
    · simp only [h, ne_eq, not_true_eq_false, if_false]
      exact ih
    · simp only [h, ne_eq, not_false_eq_true, if_true]

/-- The page is cached where nothing failed. -/
theorem loadPage_currentPage {page : ℕ} (h : (loadPage c s page).1 = 0) :
    (loadPage c s page).2.currentPage = page := by
  simp only [loadPage] at h ⊢
  split_ifs at h ⊢ with h_page h_flush
  · exact absurd h h_flush
  · rfl
  · exact (not_not.mp h_page).symm

/-- A byte of the cached page. -/
theorem store_of_eq {x : ℕ × UInt8} (h : s.currentPage = pageOf x.1) :
    store c s x = (0, s.copy (x.1 - pageOf x.1) [x.2]) := by
  have h_load : loadPage c s (pageOf x.1) = (0, s) := if_neg (not_not.mpr h.symm)
  simp only [store, h_load, ne_eq, not_true_eq_false, if_false]

/-- Bytes of the cached page are copied at once. -/
theorem storeAll_chunk {addr : ℕ} {byte : UInt8} {chunk : List UInt8}
    (h_page : s.currentPage = pageOf addr)
    (h_fits : addr + chunk.length < pageOf addr + pageSize)
    (h_end : pageOf addr + pageSize ≤ 2 ^ 32) :
    storeAll c s (storesFrom addr (byte :: chunk)) =
      (0, s.copy (addr - pageOf addr) (byte :: chunk)) := by
  have h_le := pageOf_le addr
  induction chunk generalizing s addr byte with
  | nil =>
    have h_lt : addr < 2 ^ 32 := Nat.lt_of_lt_of_le h_fits h_end
    have h_mod : addr % 2 ^ 32 = addr := Nat.mod_eq_of_lt h_lt
    simp only [storesFrom, h_mod, storeAll]
    rw [store_of_eq (x := (addr, byte)) h_page]
    rfl
  | cons next chunk ih =>
    rw [List.length_cons] at h_fits
    have h_mod : addr % 2 ^ 32 = addr := Nat.mod_eq_of_lt (by omega)
    -- the next byte is on the same page
    have h_next : pageOf (addr + 1) = pageOf addr := by
      rw [← Nat.add_sub_cancel' h_le, Nat.add_assoc,
        pageOf_add (pageOf_pageOf addr) (by omega), pageOf_add (pageOf_pageOf addr) (by omega)]
    have h_rest := @ih (s.copy (addr - pageOf addr) [byte]) (addr + 1) next
      (h_page.trans h_next.symm) (by rw [h_next]; omega) (by rw [h_next]; exact h_end)
      (by rw [h_next]; omega)
    rw [storesFrom, h_mod, storeAll, store_of_eq (x := (addr, byte)) h_page]
    simp only [ne_eq, not_true_eq_false, if_false]
    rw [h_rest, h_next, Nat.sub_add_comm h_le]
    rfl

/-- `bootloader_callback` stores its data byte by byte. -/
theorem callbackLoop_eq {fuel addr : ℕ} {data : List UInt8} (h_addr : addr < 2 ^ 32)
    (h_fuel : data.length ≤ fuel) :
    callbackLoop c fuel s addr data = storeAll c s (storesFrom addr data) := by
  induction fuel generalizing s addr data with
  | zero =>
    obtain rfl := List.length_eq_zero_iff.mp (Nat.le_zero.mp h_fuel)
    rfl
  | succ fuel ih =>
    cases data with
    | nil => rfl
    | cons byte data =>
      have h_le := pageOf_le addr
      have h_add := lt_pageOf_add addr
      have h_end : pageOf addr + pageSize ≤ 2 ^ 32 := pageOf_end h_addr
      simp only [callbackLoop, reduceCtorEq, if_false]
      generalize h_chunk : min (pageSize - (addr - pageOf addr)) (byte :: data).length = n
      -- the chunk is not empty
      obtain ⟨k, rfl⟩ : ∃ k, n = k + 1 := by
        rw [List.length_cons] at h_chunk
        exact ⟨n - 1, by omega⟩
      rw [List.length_cons] at h_chunk h_fuel
      have h_take : (data.take k).length = k := by
        rw [List.length_take]
        omega
      rw [List.take_succ_cons, List.drop_succ_cons]
      conv_rhs => rw [← List.take_append_drop k data, ← List.cons_append, storesFrom_append,
        storeAll_append]
      have h_first : storeAll c s (storesFrom addr (byte :: data.take k)) =
          let r := loadPage c s (pageOf addr)
          if r.1 ≠ 0 then r
          else (0, r.2.copy (addr - pageOf addr) (byte :: data.take k)) := by
        have h_mod : addr % 2 ^ 32 = addr := Nat.mod_eq_of_lt h_addr
        by_cases h_load : (loadPage c s (pageOf addr)).1 = 0
        · have h_cached := @storeAll_chunk map c (loadPage c s (pageOf addr)).2 addr byte
            (data.take k) (loadPage_currentPage h_load) (by rw [h_take]; omega) h_end
          have h_store : store c (loadPage c s (pageOf addr)).2 (addr, byte) =
              store c s (addr, byte) := by
            rw [store_of_eq (x := (addr, byte)) (loadPage_currentPage h_load)]
            simp only [store, h_load, ne_eq, not_true_eq_false, if_false]
          rw [storesFrom, storeAll, h_mod, h_store] at h_cached
          rw [storesFrom, storeAll, h_mod, h_cached]
          simp only [h_load, ne_eq, not_true_eq_false, if_false]
        · simp only [storesFrom, storeAll, h_mod, store, h_load, ne_eq, not_false_eq_true, if_true]
      rw [h_first]
      dsimp only
      by_cases h_load : (loadPage c s (pageOf addr)).1 = 0
      · simp only [h_load, ne_eq, not_true_eq_false, if_false]
        rw [ih (Nat.mod_lt _ (by decide)) (by rw [List.length_drop]; omega), storesFrom_mod,
          List.length_cons, h_take]
      · simp only [h_load, ne_eq, not_false_eq_true, if_true]

/-- The records, one after the other. -/
theorem deliver_eq {ws : List (ℕ × List UInt8)} (h_ws : ∀ w ∈ ws, w.1 < 2 ^ 32) :
    let r := storeAll c s (ws.flatMap fun w => storesFrom w.1 w.2)
    deliver (bootloaderCallback c) s ws = if r.1 = 0 then (ihexEof, r.2) else r := by
  induction ws generalizing s with
  | nil => rfl
  | cons w ws ih =>
    have h_call : bootloaderCallback c s w.1 w.2 = storeAll c s (storesFrom w.1 w.2) :=
      callbackLoop_eq (h_ws w List.mem_cons_self) (Nat.le_refl _)
    rw [List.flatMap_cons, storeAll_append, deliver, h_call]
    dsimp only
    by_cases h : (storeAll c s (storesFrom w.1 w.2)).1 = 0
    · simp only [h, ne_eq, not_true_eq_false, if_true, if_false]
      exact ih fun v h_v => h_ws v (List.mem_cons_of_mem _ h_v)
    · simp only [h, ne_eq, not_false_eq_true, if_true, if_false]

/-- A store fails with a code of the flash only. -/
theorem storeAll_le (s : Cache map) (xs : List (ℕ × UInt8)) :
    (storeAll c s xs).1 ≤ flashFault := by
  induction xs generalizing s with
  | nil => exact Nat.zero_le _
  | cons x xs ih =>
    have h_store : (store c s x).1 ≤ flashFault := by
      simp only [store]
      split_ifs
      · exact loadPage_le s _
      · exact Nat.zero_le _
    simp only [storeAll]
    split_ifs
    · exact h_store
    · exact ih _

/-- **The cache after an update.** -/
theorem load_cache (map : AddressMap) (c : Controller) (mem : ℕ → UInt8)
    (bufs : List (List UInt8)) :
    (load map c mem bufs).cache = finish c (textEnds bufs.flatten)
      (storeAll c (bootloaderStart (powerUp map mem)).cache (textStores bufs.flatten)) := by
  have h_le := storeAll_le (c := c) (bootloaderStart (powerUp map mem)).cache
    (textStores bufs.flatten)
  have h_deliver : deliver (bootloaderCallback c) (bootloaderStart (powerUp map mem)).cache
      (writes 0 ((lines [] bufs.flatten).map taken)) =
        let r := storeAll c (bootloaderStart (powerUp map mem)).cache (textStores bufs.flatten)
        if r.1 = 0 then (ihexEof, r.2) else r :=
    deliver_eq (writes_lt _ _)
  obtain ⟨h_cache, h_eof⟩ := @ihexFeed_taken _ (bootloaderCallback c)
    (bootloaderStart (powerUp map mem)).ihex (bootloaderStart (powerUp map mem)).cache []
    bootloaderCallback_ne_eof (.start rfl) (.of_start rfl) bufs.flatten
  have h_base : (bootloaderStart (powerUp map mem)).ihex.base = 0 := rfl
  rw [h_base, h_deliver] at h_cache h_eof
  rw [load, feedAll_cache rfl, finish]
  dsimp only at h_cache h_eof ⊢
  generalize storeAll c _ (textStores bufs.flatten) = r at h_le h_cache h_eof ⊢
  by_cases h_zero : r.1 = 0
  · rw [if_pos h_zero] at h_cache h_eof
    rw [h_cache]
    by_cases h_ends : textEnds bufs.flatten = true
    · rw [if_pos (h_eof.mpr ⟨rfl, h_ends⟩), if_pos ⟨h_zero, h_ends⟩]
    · rw [if_neg fun h' => h_ends (h_eof.mp h').2, if_neg fun h' => h_ends h'.2]
  · -- a store failed, and so it is not the end of the text
    rw [if_neg h_zero] at h_cache h_eof
    have h_ne := Nat.ne_of_lt (Nat.lt_of_le_of_lt h_le (by decide : flashFault < ihexEof))
    rw [if_neg fun h' => h_ne (h_eof.mp h').1, if_neg fun h' => h_zero h'.1, h_cache]

end Chunks

/-! ### What is stored -/

section Stored

variable {map : AddressMap} {mem mem' : ℕ → UInt8} {stores : List (ℕ × UInt8)} {a : ℕ}

theorem stored_append (x : ℕ × UInt8) :
    stored map mem (stores ++ [x]) =
      Function.update (stored map mem stores) (map.cell x.1) x.2 := by
  rw [stored, List.foldl_append]
  rfl

/-- A cell beside the ones stored to. -/
theorem stored_of_ne (h : ∀ x ∈ stores, map.cell x.1 ≠ a) : stored map mem stores a = mem a := by
  induction stores generalizing mem with
  | nil => rfl
  | cons x stores ih =>
    show stored map (Function.update mem (map.cell x.1) x.2) stores a = mem a
    rw [ih fun y h_y => h y (List.mem_cons_of_mem _ h_y)]
    exact Function.update_of_ne (h x List.mem_cons_self).symm _ _

/-- A cell depends on itself only. -/
theorem stored_congr (h : mem a = mem' a) : stored map mem stores a = stored map mem' stores a := by
  induction stores generalizing mem mem' with
  | nil => exact h
  | cons x stores ih =>
    refine ih ?_
    show Function.update mem (map.cell x.1) x.2 a = Function.update mem' (map.cell x.1) x.2 a
    by_cases h_eq : a = map.cell x.1
    · rw [h_eq, Function.update_self, Function.update_self]
    · rw [Function.update_of_ne h_eq, Function.update_of_ne h_eq, h]

/-- Several stores of one byte. -/
theorem stored_const {byte : UInt8} (h : ∀ x ∈ stores, x.2 = byte)
    (h_mem : ∃ x ∈ stores, map.cell x.1 = a) : stored map mem stores a = byte := by
  induction stores using List.reverseRecOn with
  | nil =>
    obtain ⟨x, h_x, -⟩ := h_mem
    exact absurd h_x List.not_mem_nil
  | append_singleton stores x ih =>
    rw [stored_append]
    by_cases h_eq : a = map.cell x.1
    · rw [h_eq, Function.update_self, h x (by simp)]
    · rw [Function.update_of_ne h_eq]
      refine ih (fun y h_y => h y (by simp [h_y])) ?_
      -- the store to the cell was an earlier one
      obtain ⟨y, h_y, h_cell⟩ := h_mem
      rcases List.mem_append.mp h_y with h_y | h_y
      · exact ⟨y, h_y, h_cell⟩
      · obtain rfl := List.mem_singleton.mp h_y
        exact absurd h_cell.symm h_eq

end Stored

/-! ### Between two write-backs -/

/-- The buffer is ahead of the flash by the stores. -/
structure Holding {map : AddressMap} (stores : List (ℕ × UInt8)) (s : Cache map) : Prop where
  page : pageOf s.currentPage = s.currentPage
  page_lt : s.currentPage < 2 ^ 32
  dirty : stores ≠ [] → s.dirty = true
  on_page : ∀ x ∈ stores, pageOf x.1 = s.currentPage
  buffer : ∀ i, i < pageSize →
    s.pageBuffer i = stored map s.flash.mem stores (map.cell (s.currentPage + i))

section Holding

variable {map : AddressMap} {c : Controller} {s : Cache map} {stores : List (ℕ × UInt8)}

/-- A page that was read. -/
theorem Holding.populate {addr : ℕ} (h_addr : addr < 2 ^ 32) (s : Cache map) :
    Holding [] (s.populate (pageOf addr)) where
  page := pageOf_pageOf addr
  page_lt := Nat.lt_of_le_of_lt (pageOf_le addr) h_addr
  dirty h := absurd rfl h
  on_page _ h := absurd h List.not_mem_nil
  buffer _ _ := rfl

/-- A store in the cached page. -/
theorem Holding.copy (h : Holding stores s) {x : ℕ × UInt8} (h_page : pageOf x.1 = s.currentPage) :
    Holding (stores ++ [x]) (s.copy (x.1 - pageOf x.1) [x.2]) where
  page := h.page
  page_lt := h.page_lt
  dirty _ := rfl
  on_page y h_y := by
    rcases List.mem_append.mp h_y with h_y | h_y
    · exact h.on_page y h_y
    · rw [List.mem_singleton.mp h_y]
      exact h_page
  buffer i h_i := by
    have h_off := sub_pageOf_lt x.1
    -- the cell of the byte is as far into the page of the flash as the byte is into the buffer
    have h_cell : map.cell x.1 = map.cell s.currentPage + (x.1 - pageOf x.1) := by
      rw [map.offset, h_page]
    show Function.update s.pageBuffer ((x.1 - pageOf x.1) % pageSize) x.2 i =
      stored map s.flash.mem (stores ++ [x]) (map.cell (s.currentPage + i))
    rw [Nat.mod_eq_of_lt h_off, stored_append, map.cell_add h.page h_i, h_cell]
    by_cases h_eq : i = x.1 - pageOf x.1
    · rw [h_eq, Function.update_self, Function.update_self]
    · have h_ne : map.cell s.currentPage + i ≠ map.cell s.currentPage + (x.1 - pageOf x.1) :=
        fun h' => h_eq (Nat.add_left_cancel h')
      rw [Function.update_of_ne h_eq, Function.update_of_ne h_ne, h.buffer i h_i,
        map.cell_add h.page h_i]

/-- Other pages are not stored to. -/
theorem Holding.stored_of_ne (h : Holding stores s) (mem : ℕ → UInt8) {a : ℕ}
    (h_a : pageOf a ≠ map.cell s.currentPage) : stored map mem stores a = mem a := by
  refine Boot.stored_of_ne fun x h_x h_cell => h_a ?_
  rw [← h_cell, map.pageOf_cell, h.on_page x h_x]

/-- A cell of the cached page. -/
theorem Holding.exists_offset (h : Holding stores s) {a : ℕ}
    (h_a : pageOf a = map.cell s.currentPage) :
    ∃ i, i < pageSize ∧ a = map.cell (s.currentPage + i) := by
  have h_lt := sub_pageOf_lt a
  refine ⟨a - pageOf a, h_lt, ?_⟩
  rw [map.cell_add h.page h_lt, ← h_a, Nat.add_sub_cancel' (pageOf_le a)]

/-- The buffer is as the flash just if the stores make no difference. -/
theorem Holding.compare_eq_zero (h : Holding stores s) (h_lt : s.currentPage < lastPage) :
    pageCompare s.flash s.currentPage s.pageBuffer = 0 ↔
      stored map s.flash.mem stores = s.flash.mem := by
  rw [pageCompare_eq_zero h_lt]
  constructor
  · intro h_same
    funext a
    -- outside of the page the stores make no difference anyway
    by_cases h_a : pageOf a = map.cell s.currentPage
    · obtain ⟨i, h_i, rfl⟩ := h.exists_offset h_a
      rw [← h.buffer i h_i]
      exact (h_same i h_i).symm
    · exact h.stored_of_ne _ h_a
  · intro h_stored i h_i
    rw [h.buffer i h_i, h_stored]
    rfl

/-- What `flush_page` does, and what it returns. -/
theorem flushPage_dirty (h : s.dirty = true) :
    (flushPage c s).2.flash = (pageMaybeWrite c s.flash s.currentPage s.pageBuffer).2 ∧
    ((flushPage c s).1 = 0 ↔
      (pageMaybeWrite c s.flash s.currentPage s.pageBuffer).1 = flashOk ∨
      (pageMaybeWrite c s.flash s.currentPage s.pageBuffer).1 = flashUnchanged) := by
  simp only [flushPage, h, not_true_eq_false, if_false]
  -- written, an error, or left as it was
  split_ifs with h_ok h_unchanged
  · exact ⟨rfl, fun _ => Or.inl h_ok, fun _ => rfl⟩
  · refine ⟨rfl, fun h_zero => absurd h_zero h_ok, fun h' => ?_⟩
    rcases h' with h' | h'
    · exact absurd h' h_ok
    · exact absurd h' h_unchanged
  · exact ⟨rfl, fun _ => Or.inr (not_not.mp h_unchanged), fun _ => rfl⟩

/-- A store in another page writes the cached one back first. -/
theorem store_of_ne {x : ℕ × UInt8} (h : pageOf x.1 ≠ s.currentPage) :
    store c s x =
      let r := flushPage c s
      if r.1 ≠ 0 then r else (0, (r.2.populate (pageOf x.1)).copy (x.1 - pageOf x.1) [x.2]) := by
  simp only [store, loadPage, h, ne_eq, not_false_eq_true, if_true]
  -- the byte is stored only if the page before it was written back
  by_cases h_flush : (flushPage c s).1 = 0
  · simp only [h_flush, not_true_eq_false, if_false]
  · simp only [h_flush, not_false_eq_true, if_true]

end Holding

end Boot

end Laureline
