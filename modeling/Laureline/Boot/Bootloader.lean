import Laureline.Lib.Memory
import Laureline.Boot.Ihex
import Laureline.Boot.Flash

/-!
# The bootloader

`bootloader.c`, and the loop of `try_flash` that feeds it a file in pieces while its status is
`BLS_FLASHING`. The data records go to a cache of one page, which is written back when another
page is needed and at the end (`Cache`). `current_page` is a null pointer at first, so the page
at address 0 counts as cached but was not read.

* `feedAll_done` — what a run that ends in `BLS_DONE` has done;
* `feedAll_cache` — the cache after every run.
-/

namespace Laureline

namespace Boot

open Ihex Flash

/-- The variables of `bootloader.c`, and the flash. -/
structure Cache (map : AddressMap) where
  dirty : Bool
  changed : Bool
  currentPage : ℕ
  pageBuffer : ℕ → UInt8
  flash : Mem map

section Cache

variable {map : AddressMap} (c : Controller)

/-- `flush_page`. -/
def flushPage (s : Cache map) : ℕ × Cache map :=
  if ¬ s.dirty then (0, s)
  else
    let r := pageMaybeWrite c s.flash s.currentPage s.pageBuffer
    let s' := { s with flash := r.2 }
    if r.1 = flashOk then (0, { s' with changed := true, dirty := false })
    else if r.1 ≠ flashUnchanged then (r.1, s')
    else (0, { s' with dirty := false })

/-- The buffer gets the contents of another page. -/
def Cache.populate (s : Cache map) (page : ℕ) : Cache map :=
  { s with
    pageBuffer := fun i => s.flash.read (page + i)
    dirty := false, currentPage := page }

/-- `memcpy(page_buffer + index, data, chunk_size)`. -/
def Cache.copy (s : Cache map) (index : ℕ) (data : List UInt8) : Cache map :=
  { s with pageBuffer := Memory.write pageSize s.pageBuffer index data, dirty := true }

@[simp] theorem copy_dirty (s : Cache map) (index : ℕ) (data : List UInt8) :
    (s.copy index data).dirty = true := rfl

/-- The cache comes to hold a page. -/
def loadPage (s : Cache map) (page : ℕ) : ℕ × Cache map :=
  if page ≠ s.currentPage then
    let r := flushPage c s
    if r.1 ≠ 0 then r else (0, r.2.populate page)
  else (0, s)

/-- The loop of `bootloader_callback`, with `size` as the length of the data. It makes at most
`fuel` passes. -/
def callbackLoop : ℕ → Cache map → ℕ → List UInt8 → ℕ × Cache map
  | 0, s, _, _ => (0, s)
  | fuel + 1, s, addr, data =>
    if data = [] then (0, s)
    else
      let page := pageOf addr
      let r := loadPage c s page
      if r.1 ≠ 0 then r
      else
        let index := addr - page
        let chunkSize := min (pageSize - index) data.length
        callbackLoop fuel (r.2.copy index (data.take chunkSize)) ((addr + chunkSize) % 2 ^ 32)
          (data.drop chunkSize)

/-- `bootloader_callback`. Every pass of the loop takes at least one byte. -/
def bootloaderCallback (s : Cache map) (addr : ℕ) (data : List UInt8) : ℕ × Cache map :=
  callbackLoop c data.length s addr data

end Cache

/-- `bootloader_status`. -/
inductive Status
  | waiting
  | flashing
  | done
  | error
deriving DecidableEq, Repr

/-- The variables of `main.c` and of the parser. -/
structure Bootloader (map : AddressMap) where
  status : Status
  ihex : Parser
  cache : Cache map

/-- After a reset. -/
def powerUp (map : AddressMap) (mem : ℕ → UInt8) : Bootloader map where
  status := .waiting
  ihex := Ihex.powerUp
  cache :=
    { dirty := false, changed := false, currentPage := 0, pageBuffer := fun _ => 0
      flash := { mem, ops := [] } }

/-- `bootloader_start`. -/
def bootloaderStart {map : AddressMap} (b : Bootloader map) : Bootloader map where
  status := .flashing
  ihex := b.ihex.init
  cache := { b.cache with currentPage := 0, dirty := false, changed := false }

/-- The message of `bootloader_feed` for an error. -/
def errorMessage (rv : ℕ) : String :=
  if rv = ihexUnsupported then "unsupported ihex option"
  else if rv = ihexChecksum then "ihex checksum failure"
  else if rv = flashFault then "flash error"
  else if rv = flashDenied then "application conflicts with bootloader"
  else "malformed ihex"

section Feed

variable {map : AddressMap} (c : Controller)

/-- `bootloader_feed`. -/
def bootloaderFeed (b : Bootloader map) (buf : List UInt8) : Bootloader map × Option String :=
  let r := ihexFeed (bootloaderCallback c) b.ihex b.cache buf
  if r.1 = ihexEof then
    let f := flushPage c r.2.2
    if f.1 = 0 then ({ status := .done, ihex := r.2.1, cache := f.2 }, none)
    else ({ status := .error, ihex := r.2.1, cache := f.2 }, some (errorMessage f.1))
  else if r.1 = ihexContinue then ({ b with ihex := r.2.1, cache := r.2.2 }, none)
  else ({ status := .error, ihex := r.2.1, cache := r.2.2 }, some (errorMessage r.1))

/-- The loop of `try_flash`. -/
def feedAll : Bootloader map → List (List UInt8) → Bootloader map
  | b, [] => b
  | b, buf :: bufs =>
    if b.status = .flashing then
      let r := bootloaderFeed c b buf
      if r.2.isSome then r.1 else feedAll r.1 bufs
    else b

variable (map) in
/-- A file is loaded after a reset. -/
def load (mem : ℕ → UInt8) (bufs : List (List UInt8)) : Bootloader map :=
  feedAll c (bootloaderStart (powerUp map mem)) bufs

end Feed

/-! ### Runs -/

section Runs

variable {map : AddressMap} {c : Controller} {b : Bootloader map}

theorem flushPage_le (s : Cache map) : (flushPage c s).1 ≤ flashFault := by
  simp only [flushPage]
  split_ifs <;> first | exact Nat.zero_le _ | exact pageMaybeWrite_le

theorem loadPage_le (s : Cache map) (page : ℕ) : (loadPage c s page).1 ≤ flashFault := by
  simp only [loadPage]
  split_ifs
  · exact flushPage_le s
  · exact Nat.zero_le _
  · exact Nat.zero_le _

/-- The callback fails with a code of the flash only. -/
theorem callbackLoop_le (fuel : ℕ) (s : Cache map) (addr : ℕ) (data : List UInt8) :
    (callbackLoop c fuel s addr data).1 ≤ flashFault := by
  induction fuel generalizing s addr data with
  | zero => exact Nat.zero_le _
  | succ fuel ih =>
    simp only [callbackLoop]
    split_ifs
    · exact Nat.zero_le _
    · exact loadPage_le s _
    · exact ih _ _ _

theorem bootloaderCallback_ne_eof (s : Cache map) (addr : ℕ) (data : List UInt8) :
    (bootloaderCallback c s addr data).1 ≠ ihexEof := by
  have h_le : (bootloaderCallback c s addr data).1 ≤ flashFault := callbackLoop_le _ _ _ _
  have h_lt : flashFault < ihexEof := by decide
  omega

theorem feedAll_of_ne (h : b.status ≠ .flashing) (bufs : List (List UInt8)) :
    feedAll c b bufs = b := by
  cases bufs with
  | nil => rfl
  | cons buf bufs => simp only [feedAll, h, if_false]

/-- What `bootloader_feed` does with what `ihex_feed` returns. -/
theorem bootloaderFeed_cases (c : Controller) (b : Bootloader map) (buf : List UInt8) :
    let r := ihexFeed (bootloaderCallback c) b.ihex b.cache buf
    (r.1 = ihexEof ∧ (flushPage c r.2.2).1 = 0 ∧ bootloaderFeed c b buf =
      ({ status := .done, ihex := r.2.1, cache := (flushPage c r.2.2).2 }, none)) ∨
    (r.1 = ihexContinue ∧ bootloaderFeed c b buf =
      ({ b with ihex := r.2.1, cache := r.2.2 }, none)) ∨
    (bootloaderFeed c b buf).1.status = .error := by
  simp only [bootloaderFeed]
  split_ifs with h_eof h_flush h_continue
  · exact .inl ⟨h_eof, h_flush, rfl⟩
  · exact .inr (.inr rfl)
  · exact .inr (.inl ⟨h_continue, rfl⟩)
  · exact .inr (.inr rfl)

/-- **Runs that are done.** The text was read up to its EOF record, and then the cache was
written back. -/
theorem feedAll_done (h_status : b.status = .flashing) {bufs : List (List UInt8)}
    (h : (feedAll c b bufs).status = .done) :
    let r := ihexFeed (bootloaderCallback c) b.ihex b.cache bufs.flatten
    r.1 = ihexEof ∧ (flushPage c r.2.2).1 = 0 ∧
      (feedAll c b bufs).cache = (flushPage c r.2.2).2 := by
  induction bufs generalizing b with
  | nil => exact absurd (h_status.symm.trans h) (by decide)
  | cons buf bufs ih =>
    rw [List.flatten_cons, ihexFeed_append]
    simp only [feedAll, h_status, if_true] at h ⊢
    -- the EOF record and its flush, a buffer without it, or an error
    rcases bootloaderFeed_cases c b buf with ⟨h_eof, h_flush, h_feed⟩ | ⟨h_go, h_feed⟩ | h_error
    · have h_ne : ihexEof ≠ ihexContinue := by decide
      rw [h_feed]
      simp only [h_eof, h_ne, if_false, Option.isSome_none, Bool.false_eq_true]
      -- what is behind the EOF record is not read
      rw [feedAll_of_ne (by simp)]
      exact ⟨trivial, h_flush, rfl⟩
    · rw [h_feed] at h ⊢
      simp only [h_go, if_true, Option.isSome_none, Bool.false_eq_true, if_false] at h ⊢
      exact ih (b := { b with ihex := _, cache := _ }) h_status h
    · have h_ne : (bootloaderFeed c b buf).1.status ≠ .flashing := by simp [h_error]
      rw [feedAll_of_ne h_ne, ite_self, h_error] at h
      exact absurd h (by decide)

/-- **The cache after a run.** The text is read up to its EOF record or to a failure, and at the
EOF record the cache is written back. -/
theorem feedAll_cache (h_status : b.status = .flashing) (bufs : List (List UInt8)) :
    let r := ihexFeed (bootloaderCallback c) b.ihex b.cache bufs.flatten
    (feedAll c b bufs).cache = if r.1 = ihexEof then (flushPage c r.2.2).2 else r.2.2 := by
  induction bufs generalizing b with
  | nil => exact (if_neg (by decide : ihexContinue ≠ ihexEof)).symm
  | cons buf bufs ih =>
    rw [List.flatten_cons, ihexFeed_append]
    simp only [feedAll, h_status, if_true, bootloaderFeed]
    generalize ihexFeed (bootloaderCallback c) b.ihex b.cache buf = r
    obtain ⟨rv, p, s⟩ := r
    have h_ne : ihexEof ≠ ihexContinue := by decide
    by_cases h_eof : rv = ihexEof
    · -- the run is over, whatever comes of the last page
      subst h_eof
      simp only [h_ne, if_true, if_false]
      by_cases h_flush : (flushPage c s).1 = 0
      · simp only [h_flush, if_true, Option.isSome_none, Bool.false_eq_true, if_false]
        rw [feedAll_of_ne (by simp)]
      · simp only [h_flush, if_false, Option.isSome_some, if_true]
    · by_cases h_go : rv = ihexContinue
      · subst h_go
        simp only [h_eof, if_true, if_false, Option.isSome_none, Bool.false_eq_true]
        exact ih (b := { status := .flashing, ihex := p, cache := s }) rfl
      · simp only [h_eof, h_go, if_false, Option.isSome_some, if_true]

end Runs

end Boot

end Laureline
