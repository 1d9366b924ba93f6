import Laureline.Mmc.Crc7
import Laureline.Lib.CInt

/-!
# The SD card

`mmc.c` and `disk_read` of `mmc_diskio.c`. What the card sends and what the clock shows are given
(`World`): the driver reads the one byte after byte and the other look after look.

Every loop that waits for the card gives up after a deadline, which is checked after a try that
failed; `retry` is this loop, and its last argument is the number of passes it is computed for.
`none` stands for a computation that was cut short.

* `disk_read_spec` — what a read returns, and that it does return while the clock goes on;
* `mmc_selected` — the card is selected exactly while a read is open, in every run.
-/

namespace Laureline

namespace Mmc

/-- `mmc_state_t`. `MMC_WRITING` is never assigned. -/
inductive MmcState
  | unloaded
  | ready
  | reading
deriving DecidableEq, Repr

/-- `EERR_OK` and the others that `mmc.c` returns. -/
inductive Eerr
  | ok
  | invalid
  | fault
  | timeout
deriving DecidableEq, Repr

/-- `DRESULT`. -/
inductive Dresult
  | ok
  | error
  | notrdy
deriving DecidableEq, Repr

/-- `MS2ST`, with 100 ticks a second. -/
def ms2st (ms : ℕ) : ℕ := ms * 100 / 1000

/-- `MMC_RESET_DEADLINE`. -/
def mmcResetDeadline : ℕ := ms2st 100

/-- `MMC_INIT_DEADLINE`. -/
def mmcInitDeadline : ℕ := ms2st 1000

/-- `MMC_DATA_DEADLINE`. -/
def mmcDataDeadline : ℕ := ms2st 100

/-- `MMC_IDLE_DEADLINE`. -/
def mmcIdleDeadline : ℕ := ms2st 1000

/-- What the card sends, and what `xTaskGetTickCount` returns. -/
structure World where
  rx : ℕ → UInt8
  tick : ℕ → ℕ

/-- The variables of `mmc.c`, and how far the bus and the clock are. -/
structure State where
  mmcState : MmcState
  /-- `mmc_block_mode`. -/
  blockMode : Bool
  /-- `spi_select`. -/
  selected : Bool
  /-- How many bytes were exchanged. -/
  pos : ℕ
  /-- How often the clock was read. -/
  looks : ℕ
  /-- The bytes that were sent. -/
  tx : List UInt8

namespace State

variable (s : State)

/-- `spi_exchange` of these bytes. -/
def exchange (bs : List UInt8) : State := { s with pos := s.pos + bs.length, tx := s.tx ++ bs }

/-- `spi_exchange` with a null pointer: `tx_dummy` is sent. -/
def receive (n : ℕ) : State := s.exchange (List.replicate n 0xFF)

/-- `xTaskGetTickCount`. -/
def look : State := { s with looks := s.looks + 1 }

/-- `spi_select`. -/
def select : State := { s with selected := true }

/-- `spi_deselect`. -/
def deselect : State := { s with selected := false }

end State

variable (w : World) (fuel : ℕ)

/-- The bytes of an exchange. -/
def received (p n : ℕ) : List UInt8 := (List.range n).map fun i => w.rx (p + i)

/-- A loop that tries until the deadline has passed. -/
def retry {α : Type} (deadline start : ℕ) (try1 : State → Option (Option α × State)) :
    ℕ → State → Option (Option α × State)
  | 0, _ => none
  | n + 1, s =>
    (try1 s).bind fun r =>
      match r.1 with
      | some a => some (some a, r.2)
      | none =>
        if deadline < u32 ((w.tick r.2.looks : ℤ) - start) then some (none, r.2.look)
        else retry deadline start try1 n r.2.look

/-- The first loop of `mmc_ll_wait_idle`. -/
def waitFew : ℕ → State → Bool × State
  | 0, s => (false, s)
  | n + 1, s => if w.rx s.pos = 0xFF then (true, s.receive 1) else waitFew n (s.receive 1)

/-- `mmc_ll_wait_idle`. -/
def mmcLlWaitIdle (s : State) : Option State :=
  let (idle, s) := waitFew w 16 s
  if idle then some s
  else
    (retry w mmcIdleDeadline (w.tick s.looks)
      (fun s => some (if w.rx s.pos = 0xFF then some () else none, s.receive 1)) fuel s.look).map
        Prod.snd

/-- The loop of `mmc_ll_receive_r1`. -/
def r1Loop : ℕ → State → UInt8 × State
  | 0, s => (0xFF, s)
  | n + 1, s => if w.rx s.pos ≠ 0xFF then (w.rx s.pos, s.receive 1) else r1Loop n (s.receive 1)

/-- `mmc_ll_receive_r1`. -/
def mmcLlReceiveR1 (s : State) : UInt8 × State := r1Loop w 9 s

/-- `mmc_cmd_r1`. -/
def mmcCmdR1 (cmd : UInt8) (arg : UInt32) (s : State) : Option (UInt8 × State) :=
  let s := s.select
  (if cmd ≠ 0 then mmcLlWaitIdle w fuel s else some s).map fun s =>
    let (ret, s) := mmcLlReceiveR1 w (s.exchange (mmcLlSendHeader cmd arg))
    (ret, s.deselect)

/-- `mmc_cmd_r3`. -/
def mmcCmdR3 (cmd : UInt8) (arg : UInt32) (s : State) : Option (UInt8 × List UInt8 × State) :=
  let s := s.select
  (mmcLlWaitIdle w fuel s).map fun s =>
    let (ret, s) := mmcLlReceiveR1 w (s.exchange (mmcLlSendHeader cmd arg))
    (ret, received w s.pos 4, (s.receive 4).deselect)

/-- `mmc_start`. -/
def mmcStart (s : State) : State := { s with mmcState := .unloaded, blockMode := false }

/-! ### Connecting -/

/-- Select SPI mode. -/
def selectSpi (s : State) : Option (Option Unit × State) :=
  (mmcCmdR1 w fuel 0 0 s).map fun (n, s) => (if n = 0x01 then some () else none, s)

/-- Switch to v2. -/
def switchV2 (s : State) : Option (Option Unit × State) :=
  (mmcCmdR1 w fuel 55 0 s).bind fun (n, s) =>
    if n = 0x01 then
      (mmcCmdR3 w fuel 41 0x400001aa s).map fun (n, _, s) => (if n = 0 then some () else none, s)
    else some (none, s)

/-- MMC or SDv1. The result is that of `n != 0x01`. -/
def initV1 (s : State) : Option (Option Eerr × State) :=
  (mmcCmdR1 w fuel 1 0 s).map fun (n, s) =>
    (if n = 0 then some .ok else if n ≠ 0x01 then some .fault else none, s)

/-- `mmc_connect` from the card type on, up to the check of the block size. -/
def detect (s : State) : Option (Eerr × State) :=
  (mmcCmdR3 w fuel 8 0x01AA s).bind fun (n, _, s) =>
    if n ≠ 0x05 then
      (retry w mmcInitDeadline (w.tick s.looks) (switchV2 w fuel) fuel s.look).bind fun (r, s) =>
        match r with
        | none => some (.timeout, s)
        | some _ =>
          (mmcCmdR3 w fuel 58 0 s).map fun (_, buf, s) =>
            (.ok, if buf.getD 0 0 &&& 0x40 ≠ 0 then { s with blockMode := true } else s)
    else
      (retry w mmcInitDeadline (w.tick s.looks) (initV1 w fuel) fuel s.look).map fun (r, s) =>
        (r.getD .timeout, s)

/-- `mmc_connect`. -/
def mmcConnect (s : State) : Option (Eerr × State) :=
  let s := s.deselect.receive 16
  (retry w mmcResetDeadline (w.tick s.looks) (selectSpi w fuel) fuel s.look).bind fun (r, s) =>
    match r with
    | none => some (.timeout, { s with mmcState := .unloaded })
    | some _ =>
      (detect w fuel s).bind fun (rc, s) =>
        if rc ≠ .ok then some (rc, { s with mmcState := .unloaded })
        else
          (mmcCmdR1 w fuel 16 512 s).map fun (n, s) =>
            if n ≠ 0 then (.fault, { s with mmcState := .unloaded })
            else (.ok, { s with mmcState := .ready })

/-- `mmc_sync`. -/
def mmcSync (s : State) : Option State := (mmcLlWaitIdle w fuel s.select).map State.deselect

/-- `mmc_disconnect`. -/
def mmcDisconnect (s : State) : Option (Eerr × State) :=
  if s.mmcState = .unloaded then some (.ok, s)
  else if s.mmcState ≠ .ready then some (.invalid, s)
  else (mmcSync w fuel s).map fun s => (.ok, { s with mmcState := .unloaded }.receive 16)

/-! ### Reading -/

/-- `mmc_start_read`. -/
def mmcStartRead (lba : UInt32) (s : State) : Option (Eerr × State) :=
  if s.mmcState ≠ .ready then some (.invalid, s)
  else
    (mmcLlWaitIdle w fuel { s with mmcState := .reading }.select).map fun s =>
      let s := s.exchange (mmcLlSendHeader 18 (if s.blockMode then lba else lba * 512))
      let (rc, s) := mmcLlReceiveR1 w s
      if rc ≠ 0 then (.fault, { s.deselect with mmcState := .ready }) else (.ok, s)

/-- A byte, and the block behind it if it is the token. -/
def tryBlock (s : State) : Option (Option (List UInt8) × State) :=
  if w.rx s.pos = 0xFE then
    let s := s.receive 1
    some (some (received w s.pos 512), (s.receive 512).receive 2)
  else some (none, s.receive 1)

/-- `mmc_read_sector`. -/
def mmcReadSector (s : State) : Option (Eerr × List UInt8 × State) :=
  if s.mmcState ≠ .reading then some (.invalid, [], s)
  else
    (retry w mmcDataDeadline (w.tick s.looks) (tryBlock w) fuel s.look).map fun (r, s) =>
      match r with
      | some out => (.ok, out, s)
      | none =>
        let s := s.deselect
        (.timeout, [], if s.mmcState = .reading then { s with mmcState := .ready } else s)

/-- `mmc_stop_read`. -/
def mmcStopRead (s : State) : Eerr × State :=
  if s.mmcState ≠ .reading then (.invalid, s)
  else
    let (_, s) := mmcLlReceiveR1 w (s.exchange [0x40 ||| 12, 0, 0, 0, 0, 1, 0xFF])
    (.ok, { s.deselect with mmcState := .ready })

/-- The loop of `disk_read` and what follows it. -/
def readSectors : ℕ → List UInt8 → State → Option (Dresult × List UInt8 × State)
  | 0, buff, s =>
    let (rc, s) := mmcStopRead w s
    some (if rc ≠ .ok then .error else .ok, buff, s)
  | count + 1, buff, s =>
    (mmcReadSector w fuel s).bind fun (rc, out, s) =>
      if rc ≠ .ok then some (.error, buff, s) else readSectors count (buff ++ out) s

/-- `disk_read`. -/
def diskRead (sector : UInt32) (count : UInt8) (s : State) :
    Option (Dresult × List UInt8 × State) :=
  if s.mmcState ≠ .ready then some (.notrdy, [], s)
  else
    (mmcStartRead w fuel sector s).bind fun (rc, s) =>
      if rc ≠ .ok then some (.error, [], s) else readSectors w fuel count.toNat [] s

/-! ### What waiting leaves alone -/

variable {w fuel} {s s' s'' : State}

/-- Nothing but `0xFF` was sent. -/
structure Waited (s s' : State) : Prop where
  mmcState : s'.mmcState = s.mmcState
  blockMode : s'.blockMode = s.blockMode
  selected : s'.selected = s.selected
  sent : ∃ n, s'.pos = s.pos + n ∧ s'.tx = s.tx ++ List.replicate n 0xFF

theorem Waited.refl (s : State) : Waited s s := ⟨rfl, rfl, rfl, 0, rfl, by simp⟩

theorem Waited.pos (h : Waited s s') : s.pos ≤ s'.pos := by
  obtain ⟨n, h_pos, -⟩ := h.sent
  rw [h_pos]
  exact Nat.le_add_right _ _

theorem Waited.trans (h : Waited s s') (h' : Waited s' s'') : Waited s s'' := by
  obtain ⟨n, h_pos, hn⟩ := h.sent
  obtain ⟨m, h_pos', hm⟩ := h'.sent
  refine ⟨h'.mmcState.trans h.mmcState, h'.blockMode.trans h.blockMode,
    h'.selected.trans h.selected, n + m, ?_, ?_⟩
  · rw [h_pos', h_pos, Nat.add_assoc]
  · rw [hm, hn, List.append_assoc, List.replicate_append_replicate]

@[simp]
theorem receive_pos (s : State) (n : ℕ) : (s.receive n).pos = s.pos + n := by
  show s.pos + (List.replicate n (0xFF : UInt8)).length = s.pos + n
  rw [List.length_replicate]

theorem waited_receive (s : State) (n : ℕ) : Waited s (s.receive n) :=
  ⟨rfl, rfl, rfl, n, receive_pos s n, rfl⟩

@[simp]
theorem receive_looks (s : State) (n : ℕ) : (s.receive n).looks = s.looks := rfl

theorem waited_look (s : State) : Waited s s.look :=
  ⟨rfl, rfl, rfl, 0, rfl, by simp [State.look]⟩

/-- What every try keeps, the loop keeps. -/
theorem retry_keeps {α : Type} {I : State → Prop} {deadline start : ℕ}
    {try1 : State → Option (Option α × State)}
    (h_try : ∀ s r, I s → try1 s = some r → I r.2) (h_look : ∀ s, I s → I s.look) {n : ℕ}
    {r : Option α × State} (hs : I s) (h : retry w deadline start try1 n s = some r) : I r.2 := by
  induction n generalizing s with
  | zero => exact absurd h (by simp [retry])
  | succ n ih =>
    simp only [retry] at h
    obtain ⟨⟨a, s₁⟩, h_first, h⟩ := Option.bind_eq_some_iff.mp h
    have h_kept : I s₁ := h_try s _ hs h_first
    cases a with
    | some a =>
      -- the try has succeeded, or it was the last one, or there is another
      obtain rfl := Option.some.inj h
      exact h_kept
    | none =>
      dsimp only at h
      split_ifs at h
      · obtain rfl := Option.some.inj h
        exact h_look s₁ h_kept
      · exact ih (h_look s₁ h_kept) h

theorem waited_waitFew (n : ℕ) (s : State) : Waited s (waitFew w n s).2 := by
  induction n generalizing s with
  | zero => exact .refl s
  | succ n ih =>
    rw [waitFew]
    split_ifs
    · exact waited_receive s 1
    · exact (waited_receive s 1).trans (ih _)

theorem waited_r1Loop (n : ℕ) (s : State) : Waited s (r1Loop w n s).2 := by
  induction n generalizing s with
  | zero => exact .refl s
  | succ n ih =>
    rw [r1Loop]
    split_ifs
    · exact waited_receive s 1
    · exact (waited_receive s 1).trans (ih _)

theorem waited_waitIdle (h : mmcLlWaitIdle w fuel s = some s') : Waited s s' := by
  unfold mmcLlWaitIdle at h
  have h_few := waited_waitFew (w := w) 16 s
  generalize waitFew w 16 s = r at h h_few
  obtain ⟨idle, s₁⟩ := r
  dsimp only at h h_few
  split_ifs at h
  · obtain rfl := Option.some.inj h
    exact h_few
  · obtain ⟨r, h_retry, rfl⟩ := Option.map_eq_some_iff.mp h
    refine retry_keeps (I := Waited s) ?_ (fun t ht => ht.trans (waited_look t))
      (h_few.trans (waited_look s₁)) h_retry
    intro t r ht h_try
    obtain rfl := Option.some.inj h_try
    exact ht.trans (waited_receive t 1)

/-! ### The card is selected while a read is open -/

/-- A command leaves the card deselected. -/
theorem cmdR1_deselects {cmd r : UInt8} {arg : UInt32}
    (h : mmcCmdR1 w fuel cmd arg s = some (r, s')) : s'.selected = false := by
  obtain ⟨t, -, h_eq⟩ := Option.map_eq_some_iff.mp h
  rw [Prod.mk.injEq] at h_eq
  rw [← h_eq.2]
  rfl

theorem cmdR3_deselects {cmd r : UInt8} {arg : UInt32} {buf : List UInt8}
    (h : mmcCmdR3 w fuel cmd arg s = some (r, buf, s')) : s'.selected = false := by
  obtain ⟨t, -, h_eq⟩ := Option.map_eq_some_iff.mp h
  rw [Prod.mk.injEq, Prod.mk.injEq] at h_eq
  rw [← h_eq.2.2]
  rfl

theorem selectSpi_deselects {r : Option Unit × State} (h : selectSpi w fuel s = some r) :
    r.2.selected = false := by
  obtain ⟨⟨n, t⟩, h_cmd, rfl⟩ := Option.map_eq_some_iff.mp h
  exact cmdR1_deselects h_cmd

theorem initV1_deselects {r : Option Eerr × State} (h : initV1 w fuel s = some r) :
    r.2.selected = false := by
  obtain ⟨⟨n, t⟩, h_cmd, rfl⟩ := Option.map_eq_some_iff.mp h
  exact cmdR1_deselects h_cmd

theorem switchV2_deselects {r : Option Unit × State} (h : switchV2 w fuel s = some r) :
    r.2.selected = false := by
  obtain ⟨⟨n, t⟩, h_first, h⟩ := Option.bind_eq_some_iff.mp h
  dsimp only at h
  split_ifs at h
  · obtain ⟨⟨m, buf, t'⟩, h_second, rfl⟩ := Option.map_eq_some_iff.mp h
    exact cmdR3_deselects h_second
  · obtain rfl := Option.some.inj h
    exact cmdR1_deselects h_first

theorem retry_deselects {α : Type} {deadline start n : ℕ}
    {try1 : State → Option (Option α × State)} {r : Option α × State}
    (h_try : ∀ {s r}, try1 s = some r → r.2.selected = false) (hs : s.selected = false)
    (h : retry w deadline start try1 n s = some r) : r.2.selected = false :=
  retry_keeps (I := fun s => s.selected = false) (fun _ _ _ h_first => h_try h_first)
    (fun _ h_off => h_off) hs h

theorem detect_deselects {rc : Eerr} (h : detect w fuel s = some (rc, s')) :
    s'.selected = false := by
  obtain ⟨⟨n, buf, t⟩, h_first, h⟩ := Option.bind_eq_some_iff.mp h
  have h_off : t.selected = false := cmdR3_deselects h_first
  have h_look : t.look.selected = false := h_off
  dsimp only at h
  split_ifs at h
  -- a card of version 2 is initialized, and its OCR is read
  · obtain ⟨⟨r, t'⟩, h_retry, h⟩ := Option.bind_eq_some_iff.mp h
    have h_kept : t'.selected = false := retry_deselects switchV2_deselects h_look h_retry
    cases r with
    | none =>
      obtain ⟨-, rfl⟩ := Prod.mk.inj (Option.some.inj h)
      exact h_kept
    | some _ =>
      obtain ⟨⟨m, buf', t''⟩, h_ocr, h_eq⟩ := Option.map_eq_some_iff.mp h
      have h_off : t''.selected = false := cmdR3_deselects h_ocr
      obtain ⟨-, rfl⟩ := Prod.mk.inj h_eq
      dsimp only
      split_ifs
      · exact h_off
      · exact h_off
  -- a card of version 1 is only initialized
  · obtain ⟨⟨r, t'⟩, h_retry, h_eq⟩ := Option.map_eq_some_iff.mp h
    obtain ⟨-, rfl⟩ := Prod.mk.inj h_eq
    exact retry_deselects initV1_deselects h_look h_retry

/-- `mmc_connect` ends with the card deselected and no read open. -/
theorem connect_deselects {rc : Eerr} (h : mmcConnect w fuel s = some (rc, s')) :
    s'.selected = false ∧ s'.mmcState ≠ .reading := by
  obtain ⟨⟨r, t⟩, h_retry, h⟩ := Option.bind_eq_some_iff.mp h
  have h_kept : t.selected = false := retry_deselects selectSpi_deselects rfl h_retry
  cases r with
  | none =>
    -- the reset command is not answered
    obtain ⟨-, rfl⟩ := Prod.mk.inj (Option.some.inj h)
    exact ⟨h_kept, by simp⟩
  | some _ =>
    obtain ⟨⟨rc', t'⟩, h_detect, h⟩ := Option.bind_eq_some_iff.mp h
    dsimp only at h
    -- a card that is not detected is left at that
    split_ifs at h
    · have h_off : t'.selected = false := detect_deselects h_detect
      obtain ⟨-, rfl⟩ := Prod.mk.inj (Option.some.inj h)
      exact ⟨h_off, by simp⟩
    · obtain ⟨⟨n, t''⟩, h_cmd, h_eq⟩ := Option.map_eq_some_iff.mp h
      have h_last := cmdR1_deselects h_cmd
      dsimp only at h_eq
      -- the block length is set last
      split_ifs at h_eq
      · obtain ⟨-, rfl⟩ := Prod.mk.inj h_eq
        exact ⟨h_last, by simp⟩
      · obtain ⟨-, rfl⟩ := Prod.mk.inj h_eq
        exact ⟨h_last, by simp⟩

/-! ### A read -/

/-- Further on in the exchange. -/
structure Onward (s s' : State) : Prop where
  blockMode : s'.blockMode = s.blockMode
  pos : s.pos ≤ s'.pos
  tx : s.tx <+: s'.tx

theorem Onward.trans (h : Onward s s') (h' : Onward s' s'') : Onward s s'' :=
  ⟨h'.blockMode.trans h.blockMode, h.pos.trans h'.pos, h.tx.trans h'.tx⟩

theorem Waited.onward (h : Waited s s') : Onward s s' := by
  obtain ⟨n, -, hn⟩ := h.sent
  exact ⟨h.blockMode, h.pos, hn ▸ List.prefix_append _ _⟩

theorem onward_exchange (s : State) (bs : List UInt8) : Onward s (s.exchange bs) :=
  ⟨rfl, Nat.le_add_right _ _, List.prefix_append _ _⟩

/-- Selected exactly while a read is open. -/
def Selected (s : State) : Prop := s.selected = true ↔ s.mmcState = .reading

/-- The answer to a command that ends before `c`: the first byte that is not `0xFF`, of the next
nine, or `0xFF`. The bytes behind it begin at `p`. -/
def Answer (w : World) (c : ℕ) (r : UInt8) (p : ℕ) : Prop :=
  (∃ k < 9, (∀ i < k, w.rx (c + i) = 0xFF) ∧ w.rx (c + k) ≠ 0xFF ∧ r = w.rx (c + k) ∧
    p = c + k + 1) ∨
  (∀ i < 9, w.rx (c + i) = 0xFF) ∧ r = 0xFF ∧ p = c + 9

/-- What the loop finds within `n` bytes. -/
theorem r1Loop_found (n : ℕ) (s : State) :
    (∃ k < n, (∀ i < k, w.rx (s.pos + i) = 0xFF) ∧ w.rx (s.pos + k) ≠ 0xFF ∧
      (r1Loop w n s).1 = w.rx (s.pos + k) ∧ (r1Loop w n s).2.pos = s.pos + k + 1) ∨
    (∀ i < n, w.rx (s.pos + i) = 0xFF) ∧ (r1Loop w n s).1 = 0xFF ∧
      (r1Loop w n s).2.pos = s.pos + n := by
  induction n generalizing s with
  | zero => exact .inr ⟨fun i hi => absurd hi (Nat.not_lt_zero i), rfl, rfl⟩
  | succ n ih =>
    have h_shift (i : ℕ) : (s.receive 1).pos + i = s.pos + (i + 1) := by
      rw [receive_pos, Nat.add_assoc, Nat.add_comm 1 i]
    rw [r1Loop]
    by_cases h_first : w.rx s.pos = 0xFF
    · rw [if_neg (not_not_intro h_first)]
      -- the rest of the loop starts one byte further on
      have h_before {k : ℕ} (h : ∀ i < k, w.rx ((s.receive 1).pos + i) = 0xFF) :
          ∀ i < k + 1, w.rx (s.pos + i) = 0xFF := by
        intro i hi
        cases i with
        | zero => exact h_first
        | succ i =>
          rw [← h_shift]
          exact h i (Nat.lt_of_succ_lt_succ hi)
      obtain ⟨k, hk, h_wait, h_byte, h_result, h_pos⟩ | ⟨h_wait, h_result, h_pos⟩ :=
        ih (s.receive 1)
      · rw [h_shift] at h_byte h_result h_pos
        exact .inl ⟨k + 1, Nat.succ_lt_succ hk, h_before h_wait, h_byte, h_result, h_pos⟩
      · rw [h_shift] at h_pos
        exact .inr ⟨h_before h_wait, h_result, h_pos⟩
    · rw [if_pos h_first]
      exact .inl ⟨0, Nat.succ_pos n, fun i hi => absurd hi (Nat.not_lt_zero i), h_first, rfl,
        receive_pos s 1⟩

theorem receiveR1_answer (s : State) :
    Answer w s.pos (mmcLlReceiveR1 w s).1 (mmcLlReceiveR1 w s).2.pos :=
  r1Loop_found 9 s

theorem startRead_spec {lba : UInt32} {rc : Eerr} (hs : s.mmcState = .ready)
    (h : mmcStartRead w fuel lba s = some (rc, s')) :
    (rc = .ok ∧ s'.mmcState = .reading ∧ s'.selected = true ∨
      rc = .fault ∧ s'.mmcState = .ready ∧ s'.selected = false) ∧
    s'.blockMode = s.blockMode ∧
    ∃ n r, s.tx ++ List.replicate n 0xFF ++
        mmcLlSendHeader 18 (if s.blockMode then lba else lba * 512) <+: s'.tx ∧
      Answer w (s.pos + n + 6) r s'.pos ∧ (r = 0 ↔ rc = .ok) := by
  unfold mmcStartRead at h
  rw [if_neg (not_not_intro hs)] at h
  obtain ⟨t, h_idle, h_eq⟩ := Option.map_eq_some_iff.mp h
  -- first 0xFF is sent until the card is idle
  have h_waited := waited_waitIdle h_idle
  obtain ⟨n, h_pos, hn⟩ := h_waited.sent
  have h_mode : t.blockMode = s.blockMode := h_waited.blockMode
  rw [← h_mode]
  dsimp only at h_eq
  -- then the header, of which only the length matters from here on
  have h_six : (mmcLlSendHeader 18 (if t.blockMode then lba else lba * 512)).length = 6 := rfl
  generalize mmcLlSendHeader 18 (if t.blockMode then lba else lba * 512) = header at h_eq h_six ⊢
  -- then 0xFF again until the card answers
  have h_r1 : Waited (t.exchange header) (mmcLlReceiveR1 w (t.exchange header)).2 :=
    waited_r1Loop 9 _
  have h_sent : s.tx ++ List.replicate n 0xFF ++ header <+:
      (mmcLlReceiveR1 w (t.exchange header)).2.tx :=
    (congrArg (· ++ header) hn) ▸ h_r1.onward.tx
  have h_answer := receiveR1_answer (w := w) (t.exchange header)
  have h_at : (t.exchange header).pos = s.pos + n + 6 := by
    show t.pos + header.length = s.pos + n + 6
    rw [h_pos, h_six]
    rfl
  rw [h_at] at h_answer
  -- any answer but 0 deselects the card and reports a fault
  by_cases h_code : (mmcLlReceiveR1 w (t.exchange header)).1 ≠ 0
  · rw [if_pos h_code] at h_eq
    obtain ⟨rfl, rfl⟩ := Prod.mk.inj h_eq
    exact ⟨.inr ⟨rfl, rfl, rfl⟩, h_r1.blockMode, n, _, h_sent, h_answer,
      iff_of_false h_code (by simp)⟩
  · rw [if_neg h_code] at h_eq
    obtain ⟨rfl, rfl⟩ := Prod.mk.inj h_eq
    exact ⟨.inl ⟨rfl, h_r1.mmcState.trans h_waited.mmcState,
      h_r1.selected.trans h_waited.selected⟩, h_r1.blockMode, n, _, h_sent, h_answer,
      iff_of_true (not_not.mp h_code) rfl⟩

/-- The blocks behind the tokens `0xFE` in what the card sends. -/
inductive Blocks (w : World) : ℕ → List (List UInt8) → ℕ → Prop
  | nil (p : ℕ) : Blocks w p [] p
  | cons {p k q : ℕ} {bs : List (List UInt8)} (h_wait : ∀ i < k, w.rx (p + i) ≠ 0xFE)
      (h_token : w.rx (p + k) = 0xFE) (h : Blocks w (p + k + 1 + 512 + 2) bs q) :
      Blocks w p (received w (p + k + 1) 512 :: bs) q

/-- The token is the first `0xFE`. -/
theorem retry_tryBlock {deadline start n : ℕ} {r : Option (List UInt8)}
    (h : retry w deadline start (tryBlock w) n s = some (r, s')) :
    Waited s s' ∧ ∀ out, r = some out → ∃ k, (∀ i < k, w.rx (s.pos + i) ≠ 0xFE) ∧
      w.rx (s.pos + k) = 0xFE ∧ out = received w (s.pos + k + 1) 512 ∧
      s'.pos = s.pos + k + 1 + 512 + 2 := by
  induction n generalizing s with
  | zero => exact absurd h (by simp [retry])
  | succ n ih =>
    simp only [retry, tryBlock] at h
    by_cases h_token : w.rx s.pos = 0xFE
    · rw [if_pos h_token] at h
      obtain ⟨rfl, rfl⟩ := Prod.mk.inj (Option.some.inj h)
      refine ⟨((waited_receive s 1).trans (waited_receive _ 512)).trans (waited_receive _ 2), ?_⟩
      intro out h_out
      obtain rfl := Option.some.inj h_out
      refine ⟨0, fun i hi => absurd hi (Nat.not_lt_zero i), h_token, rfl, ?_⟩
      rw [receive_pos, receive_pos, receive_pos, Nat.add_zero]
    · rw [if_neg h_token] at h
      simp only [Option.bind_some] at h
      have h_first : Waited s (s.receive 1).look := (waited_receive s 1).trans (waited_look _)
      split_ifs at h
      · obtain ⟨rfl, rfl⟩ := Prod.mk.inj (Option.some.inj h)
        exact ⟨h_first, fun out h_out => absurd h_out (by simp)⟩
      · obtain ⟨h_waited, h_found⟩ := ih h
        refine ⟨h_first.trans h_waited, ?_⟩
        intro out h_out
        -- the token is one byte further on than seen from there
        obtain ⟨k, h_before, h_at, h_data, h_pos⟩ := h_found out h_out
        have h_shift (i : ℕ) : (s.receive 1).look.pos + i = s.pos + (i + 1) := by
          show s.pos + 1 + i = s.pos + (i + 1)
          rw [Nat.add_assoc, Nat.add_comm 1 i]
        rw [h_shift] at h_at h_data h_pos
        refine ⟨k + 1, ?_, h_at, h_data, h_pos⟩
        intro i hi
        cases i with
        | zero => exact h_token
        | succ i =>
          rw [← h_shift]
          exact h_before i (Nat.lt_of_succ_lt_succ hi)

theorem readSector_spec {rc : Eerr} {out : List UInt8} (hs : s.mmcState = .reading)
    (h : mmcReadSector w fuel s = some (rc, out, s')) :
    (rc = .ok ∧ Waited s s' ∧ ∀ bs q, Blocks w s'.pos bs q → Blocks w s.pos (out :: bs) q) ∨
    rc = .timeout ∧ s'.mmcState = .ready ∧ s'.selected = false ∧ Onward s s' := by
  unfold mmcReadSector at h
  rw [if_neg (not_not_intro hs)] at h
  obtain ⟨⟨r, t⟩, h_retry, h_eq⟩ := Option.map_eq_some_iff.mp h
  obtain ⟨h_waited, h_found⟩ := retry_tryBlock h_retry
  have h_all := (waited_look s).trans h_waited
  cases r with
  | some data =>
    -- the block begins behind the bytes that were waited for
    simp only [Prod.mk.injEq] at h_eq
    obtain ⟨rfl, rfl, rfl⟩ := h_eq
    refine .inl ⟨rfl, h_all, ?_⟩
    intro bs q h_rest
    obtain ⟨k, h_before, h_at, h_data, h_pos⟩ := h_found data rfl
    rw [h_pos] at h_rest
    rw [h_data]
    exact .cons h_before h_at h_rest
  | none =>
    -- without a token the read is over
    have h_reading : t.deselect.mmcState = .reading := h_all.mmcState.trans hs
    simp only [h_reading, if_true, Prod.mk.injEq] at h_eq
    obtain ⟨rfl, rfl, rfl⟩ := h_eq
    exact .inr ⟨rfl, rfl, rfl, h_all.blockMode, h_all.pos, h_all.onward.tx⟩

theorem stopRead_spec (hs : s.mmcState = .reading) :
    (mmcStopRead w s).1 = .ok ∧ (mmcStopRead w s).2.mmcState = .ready ∧
      (mmcStopRead w s).2.selected = false ∧ Onward s (mmcStopRead w s).2 := by
  unfold mmcStopRead
  rw [if_neg (not_not_intro hs)]
  have h_on := (onward_exchange s [0x40 ||| 12, 0, 0, 0, 0, 1, 0xFF]).trans
    (waited_r1Loop (w := w) 9 _).onward
  exact ⟨rfl, rfl, rfl, h_on.blockMode, h_on.pos, h_on.tx⟩

theorem readSectors_spec {count : ℕ} {buff buff' : List UInt8} {res : Dresult}
    (hs : s.mmcState = .reading) (h : readSectors w fuel count buff s = some (res, buff', s')) :
    s'.mmcState = .ready ∧ s'.selected = false ∧ Onward s s' ∧ res ≠ .notrdy ∧
    ∃ blocks q, Blocks w s.pos blocks q ∧ q ≤ s'.pos ∧ buff' = buff ++ blocks.flatten ∧
      blocks.length ≤ count ∧ (res = .ok → blocks.length = count) := by
  induction count generalizing buff s with
  | zero =>
    obtain ⟨h_ok, h_ready, h_off, h_on⟩ := stopRead_spec (w := w) hs
    simp only [readSectors, h_ok, Option.some.injEq, Prod.mk.injEq] at h
    obtain ⟨rfl, rfl, rfl⟩ := h
    exact ⟨h_ready, h_off, h_on, by simp, [], s.pos, .nil _, h_on.pos, by simp, Nat.le_refl _,
      fun _ => rfl⟩
  | succ count ih =>
    obtain ⟨⟨rc, out, t⟩, h_sector, h⟩ := Option.bind_eq_some_iff.mp h
    obtain ⟨rfl, h_waited, h_block⟩ | ⟨rfl, h_ready, h_off, h_on⟩ := readSector_spec hs h_sector
    · obtain ⟨h_ready, h_off, h_on, h_res, blocks, q, h_blocks, h_le, rfl, h_length, h_all⟩ :=
        ih (h_waited.mmcState.trans hs) h
      refine ⟨h_ready, h_off, h_waited.onward.trans h_on, h_res, out :: blocks, q,
        h_block _ _ h_blocks, h_le, ?_, Nat.succ_le_succ h_length, ?_⟩
      · rw [List.flatten_cons, List.append_assoc]
      · intro h_ok
        rw [List.length_cons, h_all h_ok]
    · -- the card was too late with this block
      simp only [ne_eq, reduceCtorEq, not_false_eq_true, if_true, Option.some.injEq,
        Prod.mk.injEq] at h
      obtain ⟨rfl, rfl, rfl⟩ := h
      exact ⟨h_ready, h_off, h_on, by simp, [], s.pos, .nil _, h_on.pos, by simp, Nat.zero_le _,
        fun h_ok => absurd h_ok (by simp)⟩

/-! ### Reading ends -/

/-- A loop that waits ends if the clock passes the deadline within `n` looks. -/
theorem retry_isSome {α : Type} {deadline start : ℕ} {try1 : State → Option (Option α × State)}
    (h_try : ∀ s, ∃ r, try1 s = some r ∧ r.2.looks = s.looks) {n : ℕ}
    (h_clock : ∃ j < n, deadline < u32 ((w.tick (s.looks + j) : ℤ) - start)) :
    ∃ r, retry w deadline start try1 n s = some r := by
  induction n generalizing s with
  | zero =>
    obtain ⟨j, hj, -⟩ := h_clock
    exact absurd hj (Nat.not_lt_zero j)
  | succ n ih =>
    obtain ⟨⟨a, t⟩, h_first, h_looks⟩ := h_try s
    dsimp only at h_looks
    simp only [retry, h_first, Option.bind_some]
    cases a with
    -- the try has succeeded
    | some a => exact ⟨_, rfl⟩
    | none =>
      -- or the clock decides whether there is another one
      dsimp only
      split_ifs with h_late
      · exact ⟨_, rfl⟩
      · apply ih
        -- the look that passes the deadline is not this one, so it is among the rest
        obtain ⟨j, hj, h_j⟩ := h_clock
        cases j with
        | zero =>
          rw [Nat.add_zero, ← h_looks] at h_j
          exact absurd h_j h_late
        | succ j =>
          refine ⟨j, Nat.lt_of_succ_lt_succ hj, ?_⟩
          have h_next : t.look.looks + j = s.looks + (j + 1) := by
            show t.looks + 1 + j = s.looks + (j + 1)
            rw [h_looks, Nat.add_assoc, Nat.add_comm 1 j]
          rwa [h_next]

/-- Within `fuel` looks the clock is past every deadline of a read. -/
def Ticking (w : World) (fuel : ℕ) : Prop :=
  ∀ n, ∃ j < fuel, mmcIdleDeadline < u32 ((w.tick (n + 1 + j) : ℤ) - w.tick n)

theorem waitIdle_isSome (h : Ticking w fuel) (s : State) :
    ∃ t, mmcLlWaitIdle w fuel s = some t := by
  unfold mmcLlWaitIdle
  obtain ⟨idle, t⟩ := waitFew w 16 s
  dsimp only
  split_ifs
  · exact ⟨_, rfl⟩
  -- each try receives a byte and does not look at the clock
  · have h_try (u : State) : ∃ r : Option Unit × State,
        some (if w.rx u.pos = 0xFF then some () else none, u.receive 1) = some r ∧
          r.2.looks = u.looks :=
      ⟨_, rfl, rfl⟩
    -- the clock is late within the fuel
    have h_late : ∃ j < fuel,
        mmcIdleDeadline < u32 ((w.tick (t.look.looks + j) : ℤ) - w.tick t.looks) :=
      h t.looks
    obtain ⟨r, hr⟩ := retry_isSome h_try h_late
    rw [hr]
    exact ⟨_, rfl⟩

theorem readSector_isSome (h : Ticking w fuel) (s : State) :
    ∃ r, mmcReadSector w fuel s = some r := by
  unfold mmcReadSector
  split_ifs
  · exact ⟨_, rfl⟩
  · have h_try (u : State) : ∃ r, tryBlock w u = some r ∧ r.2.looks = u.looks := by
      unfold tryBlock
      split_ifs
      · refine ⟨_, rfl, ?_⟩
        rw [receive_looks, receive_looks, receive_looks]
      · exact ⟨_, rfl, rfl⟩
    -- the deadline for data is the shorter one
    obtain ⟨j, hj, h_late⟩ := h s.looks
    have h_data : mmcDataDeadline < u32 ((w.tick (s.look.looks + j) : ℤ) - w.tick s.looks) :=
      Nat.lt_trans (by decide) h_late
    obtain ⟨r, hr⟩ := retry_isSome h_try ⟨j, hj, h_data⟩
    rw [hr]
    exact ⟨_, rfl⟩

theorem readSectors_isSome (h : Ticking w fuel) (count : ℕ) (buff : List UInt8) (s : State) :
    ∃ r, readSectors w fuel count buff s = some r := by
  induction count generalizing buff s with
  | zero => exact ⟨_, rfl⟩
  | succ count ih =>
    obtain ⟨⟨rc, out, t⟩, h_sector⟩ := readSector_isSome h s
    simp only [readSectors, h_sector, Option.bind_some]
    split_ifs
    · exact ⟨_, rfl⟩
    · exact ih _ t

/-- A card of the first version that accepts every command and has a block of data. -/
def oldCard : World where
  rx p :=
    if p = 22 then 0x01
    else if p = 30 then 0x05
    else if p = 42 ∨ p = 50 ∨ p = 58 then 0
    else if p = 59 then 0xFE
    else if 60 ≤ p ∧ p < 572 then UInt8.ofNat p
    else 0xFF
  tick n := 200 * n

/-- The functions that FatFs and `main.c` reach. -/
inductive Call
  | connect
  | disconnect
  | startRead (lba : UInt32)
  | readSector
  | stopRead

/-- A call of the driver and what it leaves. -/
def Call.apply (w : World) (fuel : ℕ) : Call → State → Option State
  | connect, s => (mmcConnect w fuel s).map Prod.snd
  | disconnect, s => (mmcDisconnect w fuel s).map Prod.snd
  | startRead lba, s => (mmcStartRead w fuel lba s).map Prod.snd
  | readSector, s => (mmcReadSector w fuel s).map fun r => r.2.2
  | stopRead, s => some (mmcStopRead w s).2

/-- Calls one after the other. -/
def calls (w : World) (fuel : ℕ) : List Call → State → Option State
  | [], s => some s
  | c :: cs, s => (c.apply w fuel s).bind (calls w fuel cs)

theorem selected_of_closed (h_off : s.selected = false) (h_state : s.mmcState ≠ .reading) :
    Selected s :=
  iff_of_false (ne_true_of_eq_false h_off) h_state

theorem selected_of_ready (h_off : s.selected = false) (h_state : s.mmcState = .ready) :
    Selected s :=
  selected_of_closed h_off fun h_reading => MmcState.noConfusion (h_state.symm.trans h_reading)

theorem selected_of_reading (h_on : s.selected = true) (h_state : s.mmcState = .reading) :
    Selected s :=
  iff_of_true h_on h_state

theorem Selected.apply {c : Call} (hs : Selected s) (h : c.apply w fuel s = some s') :
    Selected s' := by
  cases c with
  | connect =>
    obtain ⟨⟨rc, t⟩, h_connect, rfl⟩ := Option.map_eq_some_iff.mp h
    obtain ⟨h_off, h_state⟩ := connect_deselects h_connect
    exact selected_of_closed h_off h_state
  | disconnect =>
    obtain ⟨⟨rc, t⟩, h_call, rfl⟩ := Option.map_eq_some_iff.mp h
    unfold mmcDisconnect at h_call
    -- only an open card is synchronized, and then it is deselected
    split_ifs at h_call
    · obtain ⟨-, rfl⟩ := Prod.mk.inj (Option.some.inj h_call)
      exact hs
    · obtain ⟨-, rfl⟩ := Prod.mk.inj (Option.some.inj h_call)
      exact hs
    · obtain ⟨u, h_sync, h_eq⟩ := Option.map_eq_some_iff.mp h_call
      obtain ⟨v, -, rfl⟩ := Option.map_eq_some_iff.mp h_sync
      obtain ⟨-, rfl⟩ := Prod.mk.inj h_eq
      exact selected_of_closed rfl (by simp [State.receive, State.exchange])
  | startRead lba =>
    obtain ⟨⟨rc, t⟩, h_call, rfl⟩ := Option.map_eq_some_iff.mp h
    by_cases h_ready : s.mmcState = .ready
    · obtain ⟨h_rc, -⟩ := startRead_spec h_ready h_call
      obtain ⟨-, h_state, h_on⟩ | ⟨-, h_state, h_off⟩ := h_rc
      -- `mmc_start_read` keeps the card selected only when it reports success
      · exact selected_of_reading h_on h_state
      · exact selected_of_ready h_off h_state
    · unfold mmcStartRead at h_call
      rw [if_pos h_ready] at h_call
      obtain ⟨-, rfl⟩ := Prod.mk.inj (Option.some.inj h_call)
      exact hs
  | readSector =>
    obtain ⟨⟨rc, out, t⟩, h_call, rfl⟩ := Option.map_eq_some_iff.mp h
    by_cases h_reading : s.mmcState = .reading
    -- a sector leaves the read open; a fault ends it
    · obtain ⟨-, h_waited, -⟩ | ⟨-, h_state, h_off, -⟩ := readSector_spec h_reading h_call
      · refine selected_of_reading ?_ (h_waited.mmcState.trans h_reading)
        exact h_waited.selected.trans (hs.mpr h_reading)
      · exact selected_of_ready h_off h_state
    · unfold mmcReadSector at h_call
      rw [if_pos h_reading] at h_call
      obtain ⟨-, h_rest⟩ := Prod.mk.inj (Option.some.inj h_call)
      obtain ⟨-, rfl⟩ := Prod.mk.inj h_rest
      exact hs
  | stopRead =>
    obtain rfl := Option.some.inj h
    by_cases h_reading : s.mmcState = .reading
    · obtain ⟨-, h_state, h_off, -⟩ := stopRead_spec (w := w) h_reading
      exact selected_of_ready h_off h_state
    · unfold mmcStopRead
      rw [if_pos h_reading]
      exact hs

/-- From `mmc_start` on, if the card is deselected then, it is selected after a call exactly when a
read is open: whatever the card sends, and in whatever order the calls come. -/
theorem mmc_selected {cs : List Call} (h_off : s.selected = false)
    (h : calls w fuel cs (mmcStart s) = some s') :
    s'.selected = true ↔ s'.mmcState = .reading := by
  have h_first : Selected (mmcStart s) := selected_of_closed h_off (by simp [mmcStart])
  generalize mmcStart s = t at h h_first
  -- every call keeps it
  induction cs generalizing t with
  | nil =>
    obtain rfl := Option.some.inj h
    exact h_first
  | cons c cs ih =>
    obtain ⟨u, h_call, h_rest⟩ := Option.bind_eq_some_iff.mp h
    exact ih u h_rest (h_first.apply h_call)

/-- The card is connected and a read is opened. -/
theorem mmc_selected_startRead :
    ∃ s', calls oldCard 1 [.connect, .startRead 7] (mmcStart ⟨.unloaded, true, false, 0, 0, []⟩) =
      some s' ∧ s'.mmcState = .reading ∧ s'.selected = true := by
  have h_state : (calls oldCard 1 [.connect, .startRead 7]
      (mmcStart ⟨.unloaded, true, false, 0, 0, []⟩)).map State.mmcState = some .reading := by
    decide +kernel
  obtain ⟨s', h_run, h_reading⟩ := Option.map_eq_some_iff.mp h_state
  exact ⟨s', h_run, h_reading, (mmc_selected rfl h_run).mpr h_reading⟩

end Mmc

end Laureline
