import Laureline.Config
import Laureline.Eeprom.WritePage

/-!
# Saving the configuration

`eeprom_write_cfg` and `eeprom_read_cfg` with an EEPROM that is faithful: a transaction that
ends well stores the page that was sent, or returns what is stored. One that fails may leave
anything in its page, or in the bytes that were to be read.

The loops are inductive relations (`WriteCfg`, `ReadCfg`) that record the page addresses, with
an 8-bit counter. `inet_chksum` is a parameter: some function of the bytes given to it.

* `pageWritten_ok` — a page that `eeprom_write_page` reports as written;
* `WriteCfg.cells`, `ReadCfg.loaded` — where the bytes of the configuration are;
* `readCfg_writeCfg` — what is read after a configuration was written.
-/

namespace Laureline

namespace Eeprom

/-! ### A faithful EEPROM -/

/-- What a page holds after a data transaction. Addresses wrap within the page. -/
def pageCells (addr : UInt8) (buf : List UInt8) (x : ℕ) : UInt8 :=
  buf.getD ((x + (pageSize - addr.toNat % pageSize)) % pageSize) 0

/-- The bytes from an address on. -/
def cellsFrom (mem : ℕ → UInt8) (addr : UInt8) : List UInt8 :=
  (List.range pageSize).map fun i => mem ((addr.toNat + i) % size)

/-- A transaction that ends well has stored the page, or has read what is stored. -/
def Faithful (r : Request) (s : State) : Action → Prop
  | .transmit e cells =>
    s.pc = .write → e = .ok →
      ∀ x, x / pageSize = page (s.tmp.headD 0) → cells x = pageCells (s.tmp.headD 0) s.tmp.tail x
  | .receive e bytes => e = .ok → bytes = cellsFrom s.mem r.addr
  | _ => True

/-- An aligned page. -/
structure Request.Aligned (r : Request) : Prop where
  lt : r.addr.toNat < size
  aligned : r.addr.toNat % pageSize = 0

section Page

variable {r : Request} {mem : ℕ → UInt8} {s s' : State} {a : Action}

/-- The page is in the EEPROM. -/
def Holds (r : Request) (mem : ℕ → UInt8) : Prop :=
  ∀ i < pageSize, mem (r.addr.toNat + i) = r.buf.getD i 0

theorem Holds.cellsFrom_eq (h : Holds r mem) (h_aligned : r.Aligned) :
    cellsFrom mem r.addr = r.buf := by
  have h_lt := h_aligned.lt
  have h_page := h_aligned.aligned
  apply List.ext_getElem?
  intro i
  rw [cellsFrom, List.getElem?_map]
  by_cases hi : i < pageSize
  · have h_cell := h i hi
    have h_buf : i < r.buf.length := by rw [r.length_buf]; exact hi
    have h_wrap : (r.addr.toNat + i) % size = r.addr.toNat + i := by
      simp only [size, pageSize] at *; omega
    rw [List.getElem?_range hi, Option.map_some, h_wrap, h_cell, List.getD_eq_getElem?_getD,
      List.getElem?_eq_getElem h_buf, Option.getD_some]
  · rw [List.getElem?_eq_none (by rw [List.length_range]; omega),
      List.getElem?_eq_none (by rw [r.length_buf]; omega), Option.map_none]

/-- The page was sent in this attempt, and no attempt follows. -/
def Past : Pc → Prop
  | .write => False
  | .poll | .readAddr | .readData => True
  | .returned status => status = I2cError.ok.code

theorem State.written_mem (s : State) (status : ℤ) : (s.written status).mem = s.mem := by
  unfold State.written
  split <;> rfl

theorem State.readDone_mem (s : State) (r : Request) (status : ℤ) :
    (s.readDone r status).mem = s.mem := by
  unfold State.readDone
  split_ifs <;> rfl

theorem State.retry_mem {again : Pc} {done : State → State} (h : ∀ s, (done s).mem = s.mem) :
    (s.retry again done).mem = s.mem := by
  unfold State.retry
  split
  · exact h _
  · rfl

/-- Only the transaction that sends the page changes a cell. -/
theorem next_mem (hn : s.next r a = some s') :
    (s'.mem = s.mem ∧ (Past s'.pc → Past s.pc)) ∨
      ∃ e cells, a = .transmit e cells ∧ s.pc = .write ∧
        s'.mem = (s.change (s.tmp.headD 0) cells).mem ∧ (Past s'.pc → e = .ok) := by
  cases step_of_next hn with
  | tick => exact Or.inl ⟨rfl, id⟩
  | late hpc | ask hpc | addr hpc => exact Or.inl ⟨rfl, fun _ => by rw [hpc]; trivial⟩
  | @pageAgain e cells hpc =>
    refine Or.inr ⟨e, cells, rfl, hpc, rfl, fun h_past => ?_⟩
    exact absurd (show Past s.pc from h_past) (by rw [hpc]; exact id)
  | @pageFailed e cells hpc h_fail =>
    -- it is repeated, or ends the call with its status
    refine Or.inr ⟨e, cells, rfl, hpc, State.retry_mem fun s => s.written_mem _, fun h_past => ?_⟩
    have h_status : i2cTransact e ≠ I2cError.ok.code := fun h => h_fail (i2cTransact_eq_ok.mp h)
    unfold State.retry State.written at h_past
    split_ifs at h_past with h_last
    · exact absurd h_past h_status
    · exact h_past.elim
  | @page cells hpc => exact Or.inr ⟨.ok, cells, rfl, hpc, State.written_mem _ _, fun _ => rfl⟩
  -- the transactions that read leave the cells alone
  | addrAgain => exact Or.inl ⟨rfl, id⟩
  | addrFailed hpc | dataFailed hpc =>
    exact Or.inl ⟨State.retry_mem fun s => s.readDone_mem r _, fun _ => by rw [hpc]; trivial⟩
  | data hpc => exact Or.inl ⟨State.readDone_mem _ r _, fun _ => by rw [hpc]; trivial⟩

/-- **One step.** What is read back is what was sent, so no other attempt is made. -/
theorem Holds.step (h_aligned : r.Aligned) (h : Inv r mem s) (h_past : Past s.pc → Holds r s.mem)
    (hG : Faithful r s a) (hn : s.next r a = some s') :
    Inv r mem s' ∧ (Past s'.pc → Holds r s'.mem) := by
  have h_harmless : Harmless r s a := by
    cases a with
    | receive e bytes =>
      -- the page is in the EEPROM by now, so it is what is read
      intro h_ok h_differs _
      have hpc : s.pc = .readData := by
        cases step_of_next hn with
        | dataFailed hpc | data hpc => exact hpc
      have h_holds := h_past (by rw [hpc]; trivial)
      exact absurd ((hG h_ok).trans (h_holds.cellsFrom_eq h_aligned)) h_differs
    | _ => trivial
  refine ⟨h.step h_harmless hn, fun h_now => ?_⟩
  rcases next_mem hn with ⟨h_mem, h_before⟩ | ⟨e, cells, rfl, hpc, h_mem, h_ok⟩
  · rw [h_mem]; exact h_past (h_before h_now)
  · -- the page that was sent
    have h_tmp := h.write hpc
    have h_lt := h_aligned.lt
    have h_page := h_aligned.aligned
    have h_cells := hG hpc (h_ok h_now)
    rw [h_tmp] at h_cells
    intro i hi
    have h_in : (r.addr.toNat + i) / pageSize = page r.addr := by
      simp only [page, size, pageSize] at *; omega
    have h_wrap : (r.addr.toNat + i + (pageSize - r.addr.toNat % pageSize)) % pageSize = i := by
      simp only [pageSize] at *; omega
    rw [h_mem, h_tmp, State.change]
    show (if (r.addr.toNat + i) / pageSize = page r.addr then _ else _) = _
    rw [if_pos h_in, h_cells _ h_in]
    show r.buf.getD ((r.addr.toNat + i + (pageSize - r.addr.toNat % pageSize)) % pageSize) 0 = _
    rw [h_wrap]

/-- A call of `eeprom_write_page` that has returned. -/
def PageWritten (r : Request) (mem : ℕ → UInt8) (status : ℤ) (mem' : ℕ → UInt8) : Prop :=
  ∃ tick s, (machine r tick mem).Reach (Faithful r) s ∧ s.pc = .returned status ∧ s.mem = mem'

/-- **A page.** No other page changes, and one that is reported as written is stored. -/
theorem pageWritten_spec {status : ℤ} {mem' : ℕ → UInt8} (h_aligned : r.Aligned)
    (h : PageWritten r mem status mem') :
    (∀ x, x / pageSize ≠ page r.addr → mem' x = mem x) ∧
      (status = I2cError.ok.code → Holds r mem') := by
  obtain ⟨tick, s, h_reach, hpc, rfl⟩ := h
  obtain ⟨h_inv, h_past⟩ : Inv r mem s ∧ (Past s.pc → Holds r s.mem) :=
    h_reach.invariant (I := fun s => Inv r mem s ∧ (Past s.pc → Holds r s.mem))
      ⟨inv_start r tick mem, fun h => absurd h id⟩
      fun _ _ _ hI hG hn => Holds.step h_aligned hI.1 hI.2 hG hn
  exact ⟨h_inv.frame, fun h_ok => h_past (by rw [hpc]; exact h_ok)⟩

end Page

/-! ### `eeprom_write_cfg` -/

/-- Eight bytes of the configuration, from an index on. -/
def cfgBytes (c : Cfg) (i : ℕ) : List UInt8 :=
  (List.range pageSize).map fun k => c.bytes.getD (i + k) 0

/-- The call of `eeprom_write_page` for an address. -/
def pageRequest (c : Cfg) (addr : UInt8) : Request :=
  ⟨addr, cfgBytes c (addr.toNat - snumSize), by rw [cfgBytes, List.length_map, List.length_range]⟩

/-- `cfg.crc = inet_chksum(&cfg, sizeof(cfg) - 2)`. -/
def withCrc (inetChksum : List UInt8 → UInt16) (c : Cfg) : Cfg :=
  c.store CfgMember.crc.offset (Bytes.le 2 (inetChksum (c.load 0 (cfgSize - 2))).toNat)

/-- The loop of `eeprom_write_cfg` from an address on: its status, the cells after it, and the
addresses of the pages. -/
inductive WriteCfg (c : Cfg) : UInt8 → (ℕ → UInt8) → ℤ → (ℕ → UInt8) → List UInt8 → Prop
  | done {addr : UInt8} {mem : ℕ → UInt8} (h_end : ¬ addr.toNat < size) :
      WriteCfg c addr mem I2cError.ok.code mem []
  | failed {addr : UInt8} {mem mem' : ℕ → UInt8} {status : ℤ} (h_more : addr.toNat < size)
      (h_page : PageWritten (pageRequest c addr) mem status mem')
      (h_status : status ≠ I2cError.ok.code) : WriteCfg c addr mem status mem' [addr]
  | next {addr : UInt8} {mem mem' mem'' : ℕ → UInt8} {status : ℤ} {pages : List UInt8}
      (h_more : addr.toNat < size)
      (h_page : PageWritten (pageRequest c addr) mem I2cError.ok.code mem')
      (h_rest : WriteCfg c (addr + UInt8.ofNat pageSize) mem' status mem'' pages) :
      WriteCfg c addr mem status mem'' (addr :: pages)

/-- `eeprom_write_cfg`. -/
def EepromWriteCfg (inetChksum : List UInt8 → UInt16) (c : Cfg) (mem : ℕ → UInt8) (status : ℤ)
    (mem' : ℕ → UInt8) (pages : List UInt8) : Prop :=
  WriteCfg (withCrc inetChksum c) (UInt8.ofNat snumSize) mem status mem' pages

/-! ### `eeprom_read_cfg` -/

/-- The loop of an `eeprom_do` that reads a page, with the retries that are left: its status
and what the buffer holds. -/
inductive EepromDo (mem : ℕ → UInt8) (addr : UInt8) :
    ℕ → ℤ → List UInt8 → ℤ → List UInt8 → Prop
  | stop {status : ℤ} {buf : List UInt8} : EepromDo mem addr 0 status buf status buf
  | again {e : I2cError} {n : ℕ} {status status' : ℤ} {buf buf' : List UInt8}
      (h_again : i2cTransact e = I2cError.again.code)
      (h_rest : EepromDo mem addr (n + 1) (i2cTransact e) buf status' buf') :
      EepromDo mem addr (n + 1) status buf status' buf'
  | noAddr {e : I2cError} {n : ℕ} {status status' : ℤ} {buf buf' : List UInt8} (h_fail : e ≠ .ok)
      (h_again : i2cTransact e ≠ I2cError.again.code)
      (h_rest : EepromDo mem addr n (i2cTransact e) buf status' buf') :
      EepromDo mem addr (n + 1) status buf status' buf'
  | noData {e : I2cError} {n : ℕ} {status status' : ℤ} {buf buf' bytes : List UInt8}
      (h_fail : e ≠ .ok) (h_short : bytes.length ≤ pageSize)
      (h_rest : EepromDo mem addr n (i2cTransact e) (bytes ++ buf.drop bytes.length) status' buf') :
      EepromDo mem addr (n + 1) status buf status' buf'
  | data {n : ℕ} {status : ℤ} {buf : List UInt8} :
      EepromDo mem addr (n + 1) status buf (i2cTransact .ok) (cellsFrom mem addr)

/-- The variables `snum` and `cfg`. -/
structure Ram where
  snum : List UInt8
  cfg : Cfg

/-- The buffer that the page at an address is read into. -/
def Ram.buffer (ram : Ram) (i : UInt8) : List UInt8 :=
  if i = 0 then ram.snum else cfgBytes ram.cfg (i.toNat - snumSize)

/-- The variables with the bytes of a page in them. -/
def Ram.filled (ram : Ram) (i : UInt8) (buf : List UInt8) : Ram :=
  if i = 0 then { ram with snum := buf }
  else { ram with cfg := ram.cfg.store (i.toNat - snumSize) buf }

/-- `EERR_CRCFAIL`. -/
def eerrCrcfail : ℤ := -5

/-- The check of the checksum. -/
def checkCrc (inetChksum : List UInt8 → UInt16) (c : Cfg) : ℤ :=
  if (inetChksum (c.load 0 (cfgSize - 2))).toNat ≠ Bytes.ofLe (c.load CfgMember.crc.offset 2) then
    eerrCrcfail
  else I2cError.ok.code

/-- `eeprom_read_cfg` from an address on: its status, the variables after it, and the
addresses of the pages, each with the status of its `eeprom_do`. -/
inductive ReadCfg (inetChksum : List UInt8 → UInt16) (mem : ℕ → UInt8) :
    UInt8 → Ram → ℤ → Ram → List (UInt8 × ℤ) → Prop
  | done {i : UInt8} {ram : Ram} (h_end : ¬ i.toNat < size) :
      ReadCfg inetChksum mem i ram (checkCrc inetChksum ram.cfg) ram []
  | failed {i : UInt8} {ram : Ram} {status status₀ : ℤ} {buf : List UInt8}
      (h_more : i.toNat < size) (h_page : EepromDo mem i 5 status₀ (ram.buffer i) status buf)
      (h_status : status ≠ I2cError.ok.code) :
      ReadCfg inetChksum mem i ram status (ram.filled i buf) [(i, status)]
  | next {i : UInt8} {ram ram' : Ram} {status status₀ : ℤ} {buf : List UInt8}
      {pages : List (UInt8 × ℤ)} (h_more : i.toNat < size)
      (h_page : EepromDo mem i 5 status₀ (ram.buffer i) I2cError.ok.code buf)
      (h_rest : ReadCfg inetChksum mem (i + UInt8.ofNat pageSize) (ram.filled i buf) status ram'
        pages) :
      ReadCfg inetChksum mem i ram status ram' ((i, I2cError.ok.code) :: pages)

/-! ### The pages -/

/-- The addresses of the pages from one on. -/
def pagesFrom (k : ℕ) : List UInt8 :=
  (List.range' k (size / pageSize - k)).map fun k => UInt8.ofNat (pageSize * k)

theorem toNat_page {k : ℕ} (h : k ≤ size / pageSize) :
    (UInt8.ofNat (pageSize * k)).toNat = pageSize * k := by
  simp only [size, pageSize] at *
  rw [UInt8.toNat_ofNat']
  omega

theorem pagesFrom_cons {k : ℕ} (h : (UInt8.ofNat (pageSize * k)).toNat < size)
    (hk : k ≤ size / pageSize) :
    k < size / pageSize ∧ pagesFrom k = UInt8.ofNat (pageSize * k) :: pagesFrom (k + 1) ∧
      UInt8.ofNat (pageSize * k) + UInt8.ofNat pageSize = UInt8.ofNat (pageSize * (k + 1)) := by
  rw [toNat_page hk] at h
  have h_lt : k < size / pageSize := by simp only [size, pageSize] at *; omega
  refine ⟨h_lt, ?_, ?_⟩
  · have h_left : size / pageSize - k = size / pageSize - (k + 1) + 1 := by omega
    rw [pagesFrom, h_left, List.range'_succ, List.map_cons]
    rfl
  · rw [← UInt8.ofNat_add, Nat.mul_succ]

/-- The address of a page. -/
theorem aligned_page (c : Cfg) {k : ℕ} (h : k < size / pageSize) :
    (pageRequest c (UInt8.ofNat (pageSize * k))).Aligned ∧
      page (UInt8.ofNat (pageSize * k)) = k := by
  have h_nat := toNat_page h.le
  refine ⟨⟨?_, ?_⟩, ?_⟩
  · show (UInt8.ofNat (pageSize * k)).toNat < size
    rw [h_nat]; simp only [size, pageSize] at *; omega
  · show (UInt8.ofNat (pageSize * k)).toNat % pageSize = 0
    rw [h_nat, Nat.mul_mod_right]
  · rw [page, h_nat]; simp only [size, pageSize] at *; omega

theorem getD_cfgBytes (c : Cfg) (i : ℕ) {k : ℕ} (hk : k < pageSize) :
    (cfgBytes c i).getD k 0 = c.bytes.getD (i + k) 0 := by
  rw [cfgBytes, List.getD_eq_getElem?_getD, List.getElem?_map, List.getElem?_range hk]
  rfl

/-- **The cells after `eeprom_write_cfg`.** From the page of an address on they hold the
configuration, if every page was written; the ones before are as they were. -/
theorem WriteCfg.cells {c : Cfg} {addr : UInt8} {mem mem' : ℕ → UInt8} {status : ℤ}
    {pages : List UInt8} (h : WriteCfg c addr mem status mem' pages) {k : ℕ}
    (h_addr : addr = UInt8.ofNat (pageSize * k)) (hk : k ≤ size / pageSize) (h_pos : 1 ≤ k) :
    pages <+: pagesFrom k ∧ (∀ x < pageSize * k, mem' x = mem x) ∧
      (status = I2cError.ok.code → pages = pagesFrom k ∧
        ∀ i < cfgSize, pageSize * k ≤ i + snumSize → mem' (i + snumSize) = c.bytes.getD i 0) := by
  -- along the calls, with the page `k` of the next one
  induction h generalizing k with
  | done h_end =>
    rw [h_addr, toNat_page hk] at h_end
    have h_last : k = size / pageSize := by simp only [size, pageSize] at *; omega
    have h_none : pagesFrom k = [] := by rw [h_last]; rfl
    refine ⟨List.nil_prefix, fun _ _ => rfl, fun _ => ⟨h_none.symm, fun i hi h_from => ?_⟩⟩
    simp only [size, pageSize, cfgSize, snumSize] at *
    omega
  | failed h_more h_page h_status =>
    -- the page that failed may have been changed, the ones before it not
    subst h_addr
    obtain ⟨h_lt, h_cons, -⟩ := pagesFrom_cons h_more hk
    obtain ⟨h_aligned, h_page_eq⟩ := aligned_page c h_lt
    obtain ⟨h_frame, -⟩ := pageWritten_spec h_aligned h_page
    refine ⟨?_, fun x hx => ?_, fun h => absurd h h_status⟩
    · rw [h_cons]; exact List.prefix_cons_inj _ |>.mpr List.nil_prefix
    · refine h_frame x ?_
      rw [show page (pageRequest c (UInt8.ofNat (pageSize * k))).addr = k from h_page_eq]
      simp only [pageSize] at *
      omega
  | next h_more h_page h_rest ih =>
    -- this page is written, and the induction hypothesis is about those behind it
    subst h_addr
    obtain ⟨h_lt, h_cons, h_next⟩ := pagesFrom_cons h_more hk
    obtain ⟨h_aligned, h_page_eq⟩ := aligned_page c h_lt
    obtain ⟨h_frame, h_holds⟩ := pageWritten_spec h_aligned h_page
    obtain ⟨h_init, h_before, h_after⟩ := ih h_next h_lt (by omega)
    have h_nat := toNat_page hk
    refine ⟨?_, fun x hx => ?_, fun h_ok => ?_⟩
    · rw [h_cons]; exact List.prefix_cons_inj _ |>.mpr h_init
    · rw [h_before x (by rw [Nat.mul_succ]; omega)]
      refine h_frame x ?_
      rw [show page (pageRequest c (UInt8.ofNat (pageSize * k))).addr = k from h_page_eq]
      simp only [pageSize] at *
      omega
    · obtain ⟨h_pages, h_cells⟩ := h_after h_ok
      refine ⟨by rw [h_cons, h_pages], fun i hi h_from => ?_⟩
      by_cases h_here : i + snumSize < pageSize * (k + 1)
      · -- a byte of this page, which the later ones leave alone
        have h_off : i + snumSize - pageSize * k < pageSize := by rw [Nat.mul_succ] at h_here; omega
        have h_cell := h_holds rfl (i + snumSize - pageSize * k) h_off
        have h_at : (pageRequest c (UInt8.ofNat (pageSize * k))).addr.toNat +
            (i + snumSize - pageSize * k) = i + snumSize := by
          have h_addr : (pageRequest c (UInt8.ofNat (pageSize * k))).addr.toNat = pageSize * k :=
            h_nat
          omega
        have h_index : (UInt8.ofNat (pageSize * k)).toNat - snumSize +
            (i + snumSize - pageSize * k) = i := by
          rw [h_nat]; simp only [pageSize, snumSize] at *; omega
        rw [h_at] at h_cell
        rw [h_before _ h_here, h_cell, pageRequest, getD_cfgBytes c _ h_off, h_index]
      · exact h_cells i hi (not_lt.mp h_here)

/-- An `eeprom_do` that ends well has read the page. -/
theorem EepromDo.ok {mem : ℕ → UInt8} {addr : UInt8} {n : ℕ} {status status' : ℤ}
    {buf buf' : List UInt8} (h : EepromDo mem addr n status buf status' buf')
    (h_status : n = 0 → status ≠ I2cError.ok.code) (h_ok : status' = I2cError.ok.code) :
    buf' = cellsFrom mem addr := by
  induction h with
  | stop => exact absurd h_ok (h_status rfl)
  | again h_again h_rest ih => exact ih (fun h => absurd h (Nat.succ_ne_zero _)) h_ok
  | noAddr h_fail h_again h_rest ih =>
    exact ih (fun _ h => h_fail (i2cTransact_eq_ok.mp h)) h_ok
  | noData h_fail h_short h_rest ih => exact ih (fun _ h => h_fail (i2cTransact_eq_ok.mp h)) h_ok
  | data => rfl

/-- A page that is read: into `snum`, or to the place in `cfg` that belongs to the page. -/
theorem filled_page {mem : ℕ → UInt8} (ram : Ram) {k : ℕ} (h : k < size / pageSize) :
    let ram' := ram.filled (UInt8.ofNat (pageSize * k)) (cellsFrom mem (UInt8.ofNat (pageSize * k)))
    ram'.snum = (if k = 0 then cellsFrom mem 0 else ram.snum) ∧
      ∀ j < cfgSize, j + snumSize < pageSize * (k + 1) →
        ram'.cfg.bytes[j]? = if pageSize * k ≤ j + snumSize ∧ k ≠ 0 then
          some (mem (j + snumSize)) else ram.cfg.bytes[j]? := by
  have h_nat := toNat_page h.le
  by_cases h_zero : k = 0
  · subst h_zero
    have h_first : UInt8.ofNat (pageSize * 0) = 0 := rfl
    rw [h_first, Ram.filled, if_pos rfl, if_pos rfl]
    exact ⟨rfl, fun j hj h_j => by rw [if_neg (fun h => h.2 rfl)]⟩
  · have h_other : UInt8.ofNat (pageSize * k) ≠ 0 := by
      intro h_eq
      rw [h_eq] at h_nat
      have h_none : (0 : UInt8).toNat = 0 := rfl
      simp only [pageSize] at h_nat
      omega
    -- the first page is `snum`, the others lie in `cfg`
    rw [Ram.filled, if_neg h_other, if_neg h_zero]
    refine ⟨rfl, fun j hj h_j => ?_⟩
    show (Bytes.store ram.cfg.bytes _ _)[j]? = _
    have h_length : (cellsFrom mem (UInt8.ofNat (pageSize * k))).length = pageSize := by
      rw [cellsFrom, List.length_map, List.length_range]
    rw [h_nat]
    by_cases h_in : pageSize * k ≤ j + snumSize
    · -- byte `d` of the page
      rw [if_pos ⟨h_in, h_zero⟩]
      simp only [size, pageSize, cfgSize, snumSize] at *
      obtain ⟨d, h_d⟩ : ∃ d, j = 8 * k - 8 + d := ⟨j - (8 * k - 8), by omega⟩
      rw [h_d, Bytes.getElem?_store_self (by omega) (by rw [ram.cfg.length_bytes, cfgSize]; omega),
        cellsFrom, List.getElem?_map, List.getElem?_range (by simp only [pageSize]; omega),
        Option.map_some, h_nat]
      congr 2
      simp only [size]
      omega
    · rw [if_neg (fun h => h_in h.1)]
      simp only [size, pageSize, cfgSize, snumSize] at *
      rw [Bytes.getElem?_store_of_disjoint (by omega)]

/-- **What `eeprom_read_cfg` has read.** It goes through the pages in order and ends at the
first one that fails; without a failure the variables have the cells. -/
theorem ReadCfg.loaded {inetChksum : List UInt8 → UInt16} {mem : ℕ → UInt8} {i : UInt8}
    {ram ram' : Ram} {status : ℤ} {reads : List (UInt8 × ℤ)}
    (h : ReadCfg inetChksum mem i ram status ram' reads) {k : ℕ}
    (h_i : i = UInt8.ofNat (pageSize * k)) (hk : k ≤ size / pageSize) :
    reads.map Prod.fst <+: pagesFrom k ∧
      ((∃ read ∈ reads, read.2 ≠ I2cError.ok.code) → status ≠ I2cError.ok.code) ∧
      ((∀ read ∈ reads, read.2 = I2cError.ok.code) →
        reads.map Prod.fst = pagesFrom k ∧ status = checkCrc inetChksum ram'.cfg ∧
          ram'.snum = (if k = 0 then cellsFrom mem 0 else ram.snum) ∧
          ∀ j < cfgSize, ram'.cfg.bytes[j]? =
            if pageSize * k ≤ j + snumSize then some (mem (j + snumSize))
            else ram.cfg.bytes[j]?) := by
  induction h generalizing k with
  | done h_end =>
    rw [h_i, toNat_page hk] at h_end
    have h_last : k = size / pageSize := by simp only [size, pageSize] at *; omega
    have h_none : pagesFrom k = [] := by rw [h_last]; rfl
    refine ⟨List.nil_prefix, fun h => absurd h (by simp), fun _ => ⟨h_none.symm, rfl, ?_, ?_⟩⟩
    · rw [if_neg (by rw [h_last]; decide)]
    · intro j hj
      rw [if_neg (by simp only [size, pageSize, cfgSize, snumSize] at *; omega)]
  | failed h_more h_page h_status =>
    subst h_i
    obtain ⟨-, h_cons, -⟩ := pagesFrom_cons h_more hk
    refine ⟨?_, fun _ => h_status, fun h => absurd (h _ List.mem_cons_self) h_status⟩
    rw [h_cons]
    exact List.prefix_cons_inj _ |>.mpr List.nil_prefix
  | next h_more h_page h_rest ih =>
    subst h_i
    obtain ⟨h_lt, h_cons, h_next⟩ := pagesFrom_cons h_more hk
    obtain ⟨h_init, h_fail, h_all⟩ := ih h_next h_lt
    have h_buf := h_page.ok (fun h => absurd h (by decide)) rfl
    obtain ⟨h_snum, h_bytes⟩ := @filled_page mem _ _ h_lt
    rw [h_buf] at h_all
    refine ⟨?_, fun h => h_fail ?_, fun h => ?_⟩
    · rw [h_cons, List.map_cons]; exact List.prefix_cons_inj _ |>.mpr h_init
    · obtain ⟨read, h_mem, h_ne⟩ := h
      rcases List.mem_cons.mp h_mem with rfl | h_mem
      · exact absurd rfl h_ne
      · exact ⟨read, h_mem, h_ne⟩
    · obtain ⟨h_pages, h_status, h_snum', h_bytes'⟩ :=
        h_all fun read h_mem => h read (List.mem_cons_of_mem _ h_mem)
      refine ⟨by rw [h_cons, List.map_cons, h_pages], h_status, ?_, fun j hj => ?_⟩
      · rw [h_snum', if_neg (Nat.succ_ne_zero k), h_snum]
      · rw [h_bytes' j hj]
        -- a byte of a later page, of this page, or of an earlier one
        by_cases h_later : pageSize * (k + 1) ≤ j + snumSize
        · rw [if_pos h_later, if_pos (by rw [Nat.mul_succ] at h_later; omega)]
        · rw [if_neg h_later, h_bytes j hj (not_le.mp h_later)]
          -- the first page is not part of `cfg`
          have h_first : pageSize * k ≤ j + snumSize ∧ k ≠ 0 ↔ pageSize * k ≤ j + snumSize := by
            simp only [pageSize, snumSize] at *; omega
          simp only [h_first]

/-! ### Transactions that end well -/

/-- A page is written if every transaction ends well. -/
theorem exists_pageWritten {r : Request} (h_aligned : r.Aligned) (mem : ℕ → UInt8) :
    ∃ mem', PageWritten r mem I2cError.ok.code mem' := by
  -- the page is sent, the EEPROM answers at once, and the page is read back
  let sent : State := { start r 0 mem with
    pc := .poll
    mem := ((start r 0 mem).change r.addr (pageCells r.addr r.buf)).mem
    sent := [r.data] }
  have h_sent : (machine r 0 mem).Reach (Faithful r) sent :=
    Machine.Reach.init.step (a := .transmit .ok (pageCells r.addr r.buf)) (fun _ _ _ _ => rfl) rfl
  have h_addr : (machine r 0 mem).Reach (Faithful r) { sent with pc := .readAddr } :=
    h_sent.step (a := .poll) trivial rfl
  have h_data : (machine r 0 mem).Reach (Faithful r) { sent with pc := .readData } :=
    h_addr.step (a := .transmit .ok mem) (fun h => Pc.noConfusion h) rfl
  have h_holds : Holds r sent.mem := by
    refine (h_data.invariant (I := fun s => Inv r mem s ∧ (Past s.pc → Holds r s.mem))
      ⟨inv_start r 0 mem, fun h => absurd h id⟩
      fun _ _ _ hI hG hn => Holds.step h_aligned hI.1 hI.2 hG hn).2 trivial
  have h_tmp : (r.buf ++ r.data.drop r.buf.length).take pageSize = r.buf := by
    rw [← r.length_buf, List.take_left]
  refine ⟨sent.mem, 0, { sent with
    pc := .returned I2cError.ok.code
    tmp := r.buf ++ r.data.drop r.buf.length
    readBack := r.buf }, h_data.step (a := .receive .ok r.buf)
      (fun _ => (h_holds.cellsFrom_eq h_aligned).symm) ?_, rfl, rfl⟩
  have h_length : ¬ (r.buf.length > pageSize ∨ I2cError.ok = .ok ∧ r.buf.length ≠ pageSize) := by
    rw [r.length_buf]; simp
  have h_code : ¬ i2cTransact .ok ≠ I2cError.ok.code := by decide
  show (if _ then none else if _ then _ else some _) = _
  rw [if_neg h_length, if_neg h_code]
  congr 1
  rw [State.readDone, if_pos (by decide)]
  exact if_pos h_tmp

/-- So is the configuration. -/
theorem exists_writeCfg (c : Cfg) (n : ℕ) (mem : ℕ → UInt8) {k : ℕ}
    (hk : k + n = size / pageSize) :
    ∃ mem' pages,
      WriteCfg c (UInt8.ofNat (pageSize * k)) mem I2cError.ok.code mem' pages := by
  induction n generalizing k mem with
  | zero =>
    -- on the pages that are left
    refine ⟨mem, [], .done ?_⟩
    rw [toNat_page (by omega)]
    simp only [size, pageSize] at *; omega
  | succ n ih =>
    have h_lt : k < size / pageSize := by omega
    -- one page, and the rest from the memory that it leaves
    obtain ⟨mem₁, h_page⟩ := exists_pageWritten (aligned_page c h_lt).1 mem
    have h_more : (UInt8.ofNat (pageSize * k)).toNat < size := (aligned_page c h_lt).1.lt
    obtain ⟨-, -, h_next⟩ := pagesFrom_cons h_more h_lt.le
    obtain ⟨mem', pages, h_rest⟩ := ih mem₁ (k := k + 1) (by omega)
    rw [← h_next] at h_rest
    exact ⟨mem', _, .next h_more h_page h_rest⟩

/-- And it is read. -/
theorem exists_readCfg (inetChksum : List UInt8 → UInt16) (mem : ℕ → UInt8) (n : ℕ) (ram : Ram)
    {k : ℕ} (hk : k + n = size / pageSize) :
    ∃ status ram' reads,
      ReadCfg inetChksum mem (UInt8.ofNat (pageSize * k)) ram status ram' reads ∧
        ∀ read ∈ reads, read.2 = I2cError.ok.code := by
  -- the induction is over the pages that are left, `k` of them being read
  induction n generalizing k ram with
  | zero =>
    refine ⟨_, ram, [], .done ?_, fun _ h => absurd h List.not_mem_nil⟩
    rw [toNat_page (by omega)]
    simp only [size, pageSize] at *; omega
  | succ n ih =>
    have h_lt : k < size / pageSize := by omega
    have h_more : (UInt8.ofNat (pageSize * k)).toNat < size := (aligned_page ram.cfg h_lt).1.lt
    obtain ⟨-, -, h_next⟩ := pagesFrom_cons h_more h_lt.le
    obtain ⟨status, ram', reads, h_rest, h_all⟩ :=
      ih (ram.filled (UInt8.ofNat (pageSize * k)) (cellsFrom mem (UInt8.ofNat (pageSize * k))))
        (k := k + 1) (by omega)
    rw [← h_next] at h_rest
    -- each page is read with a first transaction that succeeds
    refine ⟨status, ram', _, .next h_more (@EepromDo.data _ _ _ 0 _) h_rest, ?_⟩
    exact fun read h_read => (List.mem_cons.mp h_read).elim (fun h => by rw [h]) (h_all read)

/-! ### Writing and reading -/

/-- The addresses of `eeprom_write_cfg`, and of `eeprom_read_cfg`. -/
theorem pagesFrom_one :
    pagesFrom 1 = [8, 16, 24, 32, 40, 48, 56, 64, 72, 80, 88, 96, 104, 112, 120] := by decide

theorem pagesFrom_zero :
    pagesFrom 0 = [0, 8, 16, 24, 32, 40, 48, 56, 64, 72, 80, 88, 96, 104, 112, 120] := by decide

/-- The checksum that `eeprom_write_cfg` puts in is the one that `eeprom_read_cfg` expects. -/
theorem checkCrc_withCrc (inetChksum : List UInt8 → UInt16) (c : Cfg) :
    checkCrc inetChksum (withCrc inetChksum c) = I2cError.ok.code := by
  have h_crc : CfgMember.crc.offset = cfgSize - 2 := offset_crc
  have h_size : cfgSize = 120 := rfl
  have h_data : (withCrc inetChksum c).load 0 (cfgSize - 2) = c.load 0 (cfgSize - 2) :=
    Cfg.load_store_of_disjoint (Or.inl (by rw [h_crc]; omega))
  have h_sum : (withCrc inetChksum c).load CfgMember.crc.offset 2 =
      Bytes.le 2 (inetChksum (c.load 0 (cfgSize - 2))).toNat :=
    Cfg.load_store_self (Bytes.length_le 2 _) (by rw [h_crc]; omega)
  have h_lt : (inetChksum (c.load 0 (cfgSize - 2))).toNat < 256 ^ 2 :=
    (inetChksum (c.load 0 (cfgSize - 2))).toNat_lt
  rw [checkCrc, h_data, h_sum, Bytes.ofLe_le, Nat.mod_eq_of_lt h_lt, if_neg (not_not.mpr rfl)]

/-- **What is written is read.** For every configuration and every faithful EEPROM: the pages
that `eeprom_write_cfg` writes are those after the first, each at most once. If it returns
`EERR_OK`, every byte of the configuration is in the cell behind it by the size of `snumv2_t`,
and the first page is as it was. Then every call of `eeprom_read_cfg` goes through the pages
once, and, unless an `eeprom_do` fails, returns `EERR_OK` with the same configuration in `cfg`,
and the first page in `snum`. -/
theorem readCfg_writeCfg (inetChksum : List UInt8 → UInt16) (c : Cfg) {mem mem' : ℕ → UInt8}
    {status : ℤ} {pages : List UInt8}
    (h : EepromWriteCfg inetChksum c mem status mem' pages) :
    pages <+: [8, 16, 24, 32, 40, 48, 56, 64, 72, 80, 88, 96, 104, 112, 120] ∧
      (status = I2cError.ok.code →
        (pages = [8, 16, 24, 32, 40, 48, 56, 64, 72, 80, 88, 96, 104, 112, 120] ∧
          (∀ i < cfgSize, mem' (i + snumSize) = (withCrc inetChksum c).bytes.getD i 0) ∧
          ∀ i < snumSize, mem' i = mem i) ∧
        (∀ ram, ∃ status' ram' reads, ReadCfg inetChksum mem' 0 ram status' ram' reads ∧
          ∀ read ∈ reads, read.2 = I2cError.ok.code) ∧
        ∀ ram status' ram' reads, ReadCfg inetChksum mem' 0 ram status' ram' reads →
          reads.map Prod.fst <+:
              [0, 8, 16, 24, 32, 40, 48, 56, 64, 72, 80, 88, 96, 104, 112, 120] ∧
            (status' = I2cError.ok.code ↔ ∀ read ∈ reads, read.2 = I2cError.ok.code) ∧
            (status' = I2cError.ok.code →
              ram'.cfg = withCrc inetChksum c ∧
                ram'.snum = (List.range snumSize).map mem)) := by
  obtain ⟨h_init, h_before, h_after⟩ := WriteCfg.cells h (k := 1) rfl (by decide) le_rfl
  rw [pagesFrom_one] at h_init h_after
  refine ⟨h_init, fun h_ok => ?_⟩
  obtain ⟨h_pages, h_cells⟩ := h_after h_ok
  have h_cells' : ∀ i < cfgSize, mem' (i + snumSize) = (withCrc inetChksum c).bytes.getD i 0 :=
    fun i hi => h_cells i hi (by simp only [pageSize, snumSize]; omega)
  refine ⟨⟨h_pages, h_cells', h_before⟩, fun ram => ?_, fun ram status' ram' reads h_read => ?_⟩
  · exact exists_readCfg inetChksum mem' 16 ram (k := 0) rfl
  · obtain ⟨h_reads, h_fail, h_all⟩ := h_read.loaded (k := 0) rfl (Nat.zero_le _)
    rw [pagesFrom_zero] at h_reads
    -- without a failure, what is read is what is stored
    have h_same : (∀ read ∈ reads, read.2 = I2cError.ok.code) →
        status' = I2cError.ok.code ∧ ram'.cfg = withCrc inetChksum c ∧
          ram'.snum = (List.range snumSize).map mem := by
      intro h_each
      obtain ⟨-, h_status, h_snum, h_bytes⟩ := h_all h_each
      have h_cfg : ram'.cfg = withCrc inetChksum c := by
        apply Cfg.ext
        apply List.ext_getElem?
        intro i
        by_cases hi : i < cfgSize
        · have h_bound : i < (withCrc inetChksum c).bytes.length := by
            rw [Cfg.length_bytes]; exact hi
          rw [h_bytes i hi, if_pos (by omega), h_cells' i hi, List.getD_eq_getElem?_getD,
            List.getElem?_eq_getElem h_bound, Option.getD_some]
        · rw [List.getElem?_eq_none (by rw [Cfg.length_bytes]; omega),
            List.getElem?_eq_none (by rw [Cfg.length_bytes]; omega)]
      refine ⟨by rw [h_status, h_cfg, checkCrc_withCrc], h_cfg, ?_⟩
      rw [h_snum, if_pos rfl, cellsFrom]
      refine List.map_congr_left fun i hi => ?_
      have h_lt : i < pageSize := List.mem_range.mp hi
      have h_wrap : ((0 : UInt8).toNat + i) % size = i := by
        have h_none : (0 : UInt8).toNat = 0 := rfl
        simp only [size, pageSize] at *; omega
      rw [h_wrap]
      exact h_before i h_lt
    have h_iff : status' = I2cError.ok.code ↔ ∀ read ∈ reads, read.2 = I2cError.ok.code := by
      refine ⟨fun h_status => ?_, fun h_each => (h_same h_each).1⟩
      by_contra h_some
      push Not at h_some
      exact h_fail h_some h_status
    exact ⟨h_reads, h_iff, fun h_status => (h_same (h_iff.mp h_status)).2⟩

/-- A configuration that counts up from 8. -/
def counting : Cfg where
  bytes := (List.range cfgSize).map fun i => UInt8.ofNat (i + 8)
  length_bytes := by decide

/-- The sum of the bytes. -/
def byteSum (bytes : List UInt8) : UInt16 := UInt16.ofNat (bytes.map UInt8.toNat).sum

/-- It is written to an EEPROM of ones, and read back into variables of zeroes. -/
theorem readCfg_writeCfg_counting :
    ∃ mem' pages ram' reads,
      EepromWriteCfg byteSum counting (fun _ => 1) I2cError.ok.code mem' pages ∧
      pages.length = 15 ∧
      mem' 7 = 1 ∧ mem' 8 = 8 ∧ mem' 125 = 125 ∧ mem' 126 = 0xA7 ∧ mem' 127 = 0x1E ∧
      ReadCfg byteSum mem' 0 { snum := [], cfg := Cfg.fill 0 } I2cError.ok.code ram' reads ∧
      ram'.snum = List.replicate 8 1 ∧ ram'.cfg.bytes.take 118 = counting.bytes.take 118 := by
  -- first the write, then a read into empty variables
  obtain ⟨mem', pages, h_write⟩ :=
    exists_writeCfg (withCrc byteSum counting) 15 (fun _ => 1) (k := 1) rfl
  obtain ⟨-, h_ok⟩ := readCfg_writeCfg byteSum counting h_write
  obtain ⟨⟨h_pages, h_cells, h_first⟩, h_reads, h_read⟩ := h_ok rfl
  obtain ⟨status, ram', reads, h_run, h_each⟩ := h_reads { snum := [], cfg := Cfg.fill 0 }
  obtain ⟨-, h_status, h_same⟩ := h_read _ _ _ _ h_run
  obtain rfl : status = I2cError.ok.code := h_status.mpr h_each
  obtain ⟨h_cfg, h_snum⟩ := h_same rfl
  -- the cells are those of the struct, behind the serial number
  have h_cell (i : ℕ) (h_i : i < cfgSize) {byte : UInt8}
      (h_byte : (withCrc byteSum counting).bytes.getD i 0 = byte) : mem' (i + snumSize) = byte :=
    (h_cells i h_i).trans h_byte
  refine ⟨mem', pages, ram', reads, h_write, by rw [h_pages]; rfl, h_first 7 (by decide),
    h_cell 0 (by decide) (by decide +kernel), h_cell 117 (by decide) (by decide +kernel),
    h_cell 118 (by decide) (by decide +kernel), h_cell 119 (by decide) (by decide +kernel),
    h_run, h_snum, ?_⟩
  rw [h_cfg]
  decide +kernel

end Eeprom

end Laureline
