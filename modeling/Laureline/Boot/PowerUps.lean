import Laureline.Lib.Machine
import Laureline.Boot.Bootloader

/-!
# Power-ups

`main.c` of the bootloader, over any sequence of power-ups. `try_flash` returns early where the
card, its file system or the file is missing. Otherwise the device is updated, and it halts
unless the update ends in `BLS_DONE`. Whether the application starts then depends on one word of
its vector table only.

A power-up may come in every phase, with any contents of the RAM. Power that goes during an
update is a controller that fails from there on and a file that ends there, so it needs no
action of its own; nor does the reset pin, since what the application left in the RAM may be
anything.

* `starts_whole` — the application starts on a flash that is not partially updated, as long as a
  partial update with a vector table is never followed by an early return or a stray token;
* `starts_partially` — otherwise it does start.
-/

namespace Laureline

namespace Boot

open Ihex Flash

/-- `JUMP_TOKEN`. -/
def jumpTokenValue : UInt32 := 0xeefc63d2

/-- What `try_flash` finds. -/
structure Card where
  /-- `mmc_connect` returns `EERR_OK`. -/
  connected : Bool
  /-- `f_mount` returns `FR_OK`. -/
  mounted : Bool
  /-- `f_open` returns `FR_OK`. -/
  opened : Bool
  /-- What the calls of `f_read` give, up to the first that fails or gives nothing. -/
  reads : List (List UInt8)
  reads_length : ∀ buf ∈ reads, buf ≠ [] ∧ buf.length ≤ 512

/-- There is a file to read. -/
def Card.Ready (card : Card) : Prop :=
  card.connected = true ∧ card.mounted = true ∧ card.opened = true

instance (card : Card) : Decidable card.Ready := inferInstanceAs (Decidable (_ ∧ _))

/-- An update, from `bootloader_start` on (a history record). -/
structure Update where
  controller : Controller
  before : ℕ → UInt8
  reads : List (List UInt8)

section Update

variable (u : Update)

/-- The bootloader at the end of the update. -/
def Update.run : Bootloader .aliased := load .aliased u.controller u.before u.reads

/-- What the update leaves in memory. -/
def Update.after : ℕ → UInt8 := u.run.cache.flash.mem

/-- The update has modified flash. -/
def Update.Modified : Prop := u.after ≠ u.before

/-- The file was read up to the EOF record. -/
def Update.ReadToEof : Prop :=
  let b := bootloaderStart (powerUp .aliased u.before)
  (ihexFeed (bootloaderCallback u.controller) b.ihex b.cache u.reads.flatten).1 = ihexEof

/-- The file was read up to its EOF record and `status` is `DONE`. -/
def Update.Completed : Prop := u.ReadToEof ∧ u.run.status = .done

instance : Decidable u.Completed := inferInstanceAs (Decidable (_ = _ ∧ _ = _))

end Update

/-- No update since the last completed one has modified flash, or the last one that has was
completed. The latest update comes first. -/
def Whole (us : List Update) : Prop :=
  (∀ u ∈ us.takeWhile fun u => ¬ u.Completed, ¬ u.Modified) ∨
  ∃ later u earlier, us = later ++ u :: earlier ∧ (∀ v ∈ later, ¬ v.Modified) ∧
    u.Modified ∧ u.Completed

/-- What runs. -/
inductive Phase
  /-- `HALT()`, and before the first power-up. -/
  | halted
  /-- A reset; `main` comes next. -/
  | main
  | application
deriving DecidableEq, Repr

/-- The device between two steps. -/
structure Device where
  flash : ℕ → UInt8
  /-- `jump_token`, which a reset leaves as it is. -/
  jumpToken : UInt32
  phase : Phase
  /-- The updates so far, the latest first (a history variable). -/
  updates : List Update

/-- `user_vtor[1]`, which `_user_start` puts where the flash is seen from 0 on. -/
def entry (flash : ℕ → UInt8) : List UInt8 :=
  word (fun addr => flash (AddressMap.aliased.cell addr)) (userStart + 4)

/-- The flash has a vector table. -/
def Device.Bootable (d : Device) : Prop := entry d.flash ≠ erased

/-- `NVIC_SystemReset`. -/
def Device.reset (d : Device) : Device := { d with phase := .main }

/-- `reset_and_jump`. -/
def resetAndJump (d : Device) : Device := Device.reset { d with jumpToken := jumpTokenValue }

/-- `jump_application`. -/
def jumpApplication (d : Device) : Device :=
  if entry d.flash ≠ erased then { d with phase := .application } else d

section Boot

variable (card : Card) (c : Controller) (d : Device)

/-- The update `try_flash` makes of what is on the card. -/
def updateOf : Update where
  controller := c
  before := d.flash
  reads := card.reads

/-- `try_flash`. -/
def tryFlash : Device :=
  if ¬ card.connected then d
  else if ¬ card.mounted then d
  else if ¬ card.opened then d
  else
    let u := updateOf card c d
    let d := { d with flash := u.after, updates := u :: d.updates }
    if u.run.status = .done then d else { d with phase := .halted }

/-- `main_thread`. -/
def mainThread : Device :=
  let d := tryFlash card c d
  if d.phase = .halted then d
  else if entry d.flash = erased then d.reset
  else resetAndJump d

/-- `main`. -/
def main : Device :=
  if d.jumpToken = jumpTokenValue then
    let d := jumpApplication { d with jumpToken := 0 }
    if d.phase = .application then d else mainThread card c d
  else mainThread card c d

end Boot

/-- A reset, with what is in the memory of `jump_token` then, and a run of `main`. -/
inductive Action
  | powerUp (jumpToken : UInt32)
  | main (card : Card) (c : Controller)

/-- The device from the factory on. -/
def device (image : ℕ → UInt8) : Machine Device Action where
  init :=
    { flash := image
      jumpToken := 0
      phase := .halted
      updates := [] }
  next
    | d, .powerUp jumpToken => some { d with jumpToken, phase := .main }
    | d, .main card c => if d.phase = .main then some (main card c d) else none

/-! ### Partial updates -/

/-- Only what is read up to its EOF record is done. -/
theorem Update.completed_of_done {u : Update} (h : u.run.status = .done) : u.Completed :=
  ⟨(feedAll_done rfl h).1, h⟩

/-- A completed update ends every partial one. -/
theorem whole_of_completed {u : Update} (h : u.Completed) (us : List Update) :
    Whole (u :: us) := by
  refine .inl fun v hv => ?_
  rw [List.takeWhile_cons_of_neg (by simpa using h)] at hv
  exact absurd hv List.not_mem_nil

/-- What an update leaves that modified flash and was not completed. -/
theorem not_whole_of_modified {u : Update} (h_modified : u.Modified) (h : ¬ u.Completed)
    (us : List Update) : ¬ Whole (u :: us) := by
  rintro (h_none | ⟨later, v, earlier, h_us, h_later, -, h_completed⟩)
  · refine h_none u ?_ h_modified
    rw [List.takeWhile_cons_of_pos (by simpa using h)]
    exact List.mem_cons_self
  · -- the last update that modified flash is `u`, which is not completed
    cases later with
    | nil =>
      obtain ⟨rfl, -⟩ := List.cons.inj h_us
      exact h h_completed
    | cons w later =>
      obtain ⟨rfl, -⟩ := List.cons.inj h_us
      exact h_later u List.mem_cons_self h_modified

/-! ### One pass of `main` -/

section Pass

variable {card : Card} {c : Controller} {d : Device}

theorem tryFlash_of_not_ready (h : ¬ card.Ready) : tryFlash card c d = d := by
  rw [Card.Ready, not_and_or, not_and_or] at h
  rcases h with h_connected | h_mounted | h_opened
  · exact if_pos h_connected
  · simp [tryFlash, h_mounted]
  · simp [tryFlash, h_opened]

/-- The device is updated. -/
theorem tryFlash_update (h : card.Ready) :
    (tryFlash card c d).updates = updateOf card c d :: d.updates ∧
    (tryFlash card c d).flash = (updateOf card c d).after := by
  obtain ⟨h_connected, h_mounted, h_opened⟩ := h
  simp only [tryFlash, h_connected, h_mounted, h_opened, not_true_eq_false, if_false]
  split_ifs <;> exact ⟨rfl, rfl⟩

theorem tryFlash_of_done (h : card.Ready) (h_done : (updateOf card c d).run.status = .done) :
    tryFlash card c d =
      { d with flash := (updateOf card c d).after, updates := updateOf card c d :: d.updates } := by
  obtain ⟨h_connected, h_mounted, h_opened⟩ := h
  simp only [tryFlash, h_connected, h_mounted, h_opened, not_true_eq_false, if_false, h_done,
    if_true]

/-- After an update the device is whole or halted. -/
theorem tryFlash_of_ready (h : card.Ready) :
    (tryFlash card c d).phase = .halted ∨ Whole (tryFlash card c d).updates := by
  obtain ⟨h_connected, h_mounted, h_opened⟩ := h
  simp only [tryFlash, h_connected, h_mounted, h_opened, not_true_eq_false, if_false]
  split_ifs with h_done
  · exact .inr (whole_of_completed (Update.completed_of_done h_done) _)
  · exact .inl rfl

theorem main_of_ne (h : d.jumpToken ≠ jumpTokenValue) : main card c d = mainThread card c d :=
  if_neg h

/-- After `reset_and_jump` the application starts. -/
theorem main_of_token (h_token : d.jumpToken = jumpTokenValue) (h_entry : entry d.flash ≠ erased) :
    main card c d = { d with jumpToken := 0, phase := .application } := by
  simp [main, h_token, jumpApplication, h_entry]

/-- What may come of `main`: the application starts on the flash that is there, or
`main_thread` runs. -/
theorem main_cases (card : Card) (c : Controller) (d : Device) :
    (d.jumpToken = jumpTokenValue ∧ entry d.flash ≠ erased ∧
      main card c d = { d with jumpToken := 0, phase := .application }) ∨
    (d.phase = .main → ∃ d', main card c d = mainThread card c d' ∧ d'.phase = .main ∧
      d'.flash = d.flash ∧ d'.updates = d.updates ∧ d'.jumpToken ≠ jumpTokenValue) := by
  by_cases h_token : d.jumpToken = jumpTokenValue
  · by_cases h_entry : entry d.flash = erased
    · refine .inr fun h_main => ⟨{ d with jumpToken := 0 }, ?_, h_main, rfl, rfl,
        (by decide : (0 : UInt32) ≠ jumpTokenValue)⟩
      simp [main, h_token, jumpApplication, h_entry, h_main]
    · exact .inl ⟨h_token, h_entry, main_of_token h_token h_entry⟩
  · exact .inr fun h_main => ⟨d, main_of_ne h_token, h_main, rfl, rfl, h_token⟩

/-- A device that is partially updated does not start the application. -/
structure Guarded (d : Device) : Prop where
  application : d.phase = .application → Whole d.updates
  token : d.phase = .main → d.jumpToken = jumpTokenValue → d.Bootable → Whole d.updates

/-- `main_thread` itself changes neither. -/
theorem mainThread_eq : (mainThread card c d).updates = (tryFlash card c d).updates ∧
    (mainThread card c d).flash = (tryFlash card c d).flash := by
  simp only [mainThread]
  split_ifs <;> exact ⟨rfl, rfl⟩

/-- `main_thread` leaves the token only on a device that is whole. -/
theorem mainThread_guarded (h_main : d.phase = .main) (h_token : d.jumpToken ≠ jumpTokenValue)
    (h : ¬ Whole d.updates → d.Bootable → card.Ready) : Guarded (mainThread card c d) := by
  by_cases h_ready : card.Ready
  · -- an update either halts the device or is completed
    rcases tryFlash_of_ready (c := c) (d := d) h_ready with h_halted | h_whole
    · have h_thread : mainThread card c d = tryFlash card c d := if_pos h_halted
      rw [h_thread]
      exact ⟨fun h' => absurd (h_halted.symm.trans h') (by decide),
        fun h' => absurd (h_halted.symm.trans h') (by decide)⟩
    · rw [← mainThread_eq.1] at h_whole
      exact ⟨fun _ => h_whole, fun _ _ _ => h_whole⟩
  · -- without one, the token is set for what is there, if that has a vector table
    simp only [mainThread, tryFlash_of_not_ready h_ready, h_main, reduceCtorEq, if_false]
    split_ifs with h_entry
    · exact ⟨fun h' => absurd h' (by simp [Device.reset]), fun _ h' => absurd h' h_token⟩
    · have h_whole : Whole d.updates := not_imp_comm.mp (fun h' => h h' h_entry) h_ready
      exact ⟨fun _ => h_whole, fun _ _ _ => h_whole⟩

end Pass

/-! ### Sequences of power-ups -/

/-- On a partially updated flash with a vector table, no power-up finds the token in the RAM, and
none finds no file. -/
def Attended (d : Device) : Action → Prop
  | .powerUp jumpToken => ¬ Whole d.updates → d.Bootable → jumpToken ≠ jumpTokenValue
  | .main card _ => ¬ Whole d.updates → d.Bootable → card.Ready

theorem next_main {image : ℕ → UInt8} {d : Device} (h : d.phase = .main) (card : Card)
    (c : Controller) : (device image).next d (.main card c) = some (main card c d) :=
  if_pos h

theorem Card.Ready.attended {card : Card} (h : card.Ready) (c : Controller) (d : Device) :
    Attended d (.main card c) :=
  fun _ _ => h

theorem Guarded.step {image : ℕ → UInt8} {d d' : Device} {a : Action} (h : Guarded d)
    (hg : Attended d a) (hn : (device image).next d a = some d') : Guarded d' := by
  cases a with
  | powerUp jumpToken =>
    obtain rfl := Option.some.inj hn
    refine ⟨fun h' => absurd h' (by simp), fun _ h_token h_boot => ?_⟩
    by_contra h_whole
    exact hg h_whole h_boot h_token
  | main card c =>
    simp only [device, Option.ite_none_right_eq_some, Option.some.injEq] at hn
    obtain ⟨h_main, rfl⟩ := hn
    rcases main_cases card c d with ⟨h_token, h_entry, h_start⟩ | h_thread
    · -- the token was set by a pass of `main_thread`, and nothing was modified since
      have h_whole := h.token h_main h_token h_entry
      rw [h_start]
      exact ⟨fun _ => h_whole, fun _ _ _ => h_whole⟩
    · obtain ⟨e, h_eq, h_phase, h_flash, h_updates, h_token⟩ := h_thread h_main
      rw [h_eq]
      refine mainThread_guarded h_phase h_token fun h_whole h_boot => ?_
      rw [h_updates] at h_whole
      rw [Device.Bootable, h_flash] at h_boot
      exact hg h_whole h_boot

/-- **Starts of the application.** It starts on a flash that is not partially updated, in every
sequence of power-ups that meets the condition. -/
theorem starts_whole {image : ℕ → UInt8} {d : Device} (h : (device image).Reach Attended d)
    (h_start : d.phase = .application) : Whole d.updates := by
  have h_init : Guarded (device image).init :=
    ⟨fun h' => absurd h' (by simp [device]), fun h' => absurd h' (by simp [device])⟩
  exact (h.invariant h_init fun _ _ _ hd hg hn => hd.step hg hn).application h_start

/-- After an update that is done, and the next reset, the application starts. -/
theorem reach_of_done {image : ℕ → UInt8} {d : Device} {card : Card} {c : Controller}
    (h : (device image).Reach Attended d) (h_main : d.phase = .main)
    (h_token : d.jumpToken ≠ jumpTokenValue) (h_ready : card.Ready)
    (h_done : (updateOf card c d).run.status = .done)
    (h_entry : entry (updateOf card c d).after ≠ erased) :
    ∃ d', (device image).Reach Attended d' ∧ d'.phase = .application ∧
      d'.updates = updateOf card c d :: d.updates := by
  let e : Device :=
    { d with flash := (updateOf card c d).after, updates := updateOf card c d :: d.updates }
  -- the update is done, and the reset that follows leaves the token
  have h_first : main card c d = resetAndJump e := by
    rw [main_of_ne h_token, mainThread, tryFlash_of_done h_ready h_done]
    exact (if_neg (by rw [h_main]; decide)).trans (if_neg h_entry)
  have h_update := h.step (h_ready.attended c d) (next_main h_main card c)
  rw [h_first] at h_update
  have h_jump := h_update.step (h_ready.attended c _) (next_main rfl card c)
  have h_second : main card c (resetAndJump e) =
      { resetAndJump e with jumpToken := 0, phase := .application } :=
    main_of_token rfl h_entry
  rw [h_second] at h_jump
  exact ⟨_, h_jump, rfl, rfl⟩

/-- A card with the first two words of a vector table for `0x08000800`. -/
def goodCard : Card where
  connected := true
  mounted := true
  opened := true
  reads :=
    [[58, 48, 50, 48, 48, 48, 48, 48, 52, 48, 56, 48, 48, 70, 50, 10],
      [58, 48, 56, 48, 56, 48, 48, 48, 48, 48, 48, 48, 48, 48, 49, 50, 48, 48, 49, 48, 56, 48, 48,
        48, 56, 66, 69, 10],
      [58, 48, 48, 48, 48, 48, 48, 48, 49, 70, 70, 10]]
  reads_length := by decide

/-- A power-up after the factory, on a flash that holds one byte throughout. -/
def fresh (byte : UInt8) : Device where
  flash _ := byte
  jumpToken := 0
  phase := .main
  updates := []

/-- The update of an erased flash with `goodCard`. -/
def goodUpdate : Update := updateOf goodCard ideal (fresh 0xFF)

/-- There is no vector table before, and there is one afterwards. -/
theorem goodUpdate_run :
    (goodUpdate.run.status, entry goodUpdate.before, entry goodUpdate.after) =
      (.done, erased, [0x01, 0x08, 0x00, 0x08]) := by
  decide +kernel

/-- The update is completed, and the application starts. -/
theorem starts_whole_goodCard : Whole [goodUpdate] := by
  obtain ⟨h_done, h_entries⟩ := Prod.mk.inj goodUpdate_run
  obtain ⟨-, h_vector⟩ := Prod.mk.inj h_entries
  have h_entry : entry goodUpdate.after ≠ erased := by
    rw [h_vector]
    decide
  have h_fresh : (device fun _ => 0xFF).Reach Attended (fresh 0xFF) :=
    Machine.Reach.init.step (a := .powerUp 0)
      (fun _ _ => (by decide : (0 : UInt32) ≠ jumpTokenValue)) rfl
  obtain ⟨d, h_reach, h_start, h_updates⟩ :=
    reach_of_done h_fresh rfl (by decide) (by decide : goodCard.Ready) h_done h_entry
  have h_whole := starts_whole h_reach h_start
  rw [h_updates] at h_whole
  exact h_whole

/-- Without the condition the application starts on what is there: at once where the token is
in the RAM, and after the next reset where no file is found. -/
theorem starts_partially {card : Card} (c : Controller) {d : Device} (h_main : d.phase = .main)
    (h_boot : d.Bootable) :
    (d.jumpToken = jumpTokenValue → (main card c d).phase = .application ∧
      (main card c d).updates = d.updates) ∧
    (d.jumpToken ≠ jumpTokenValue → ¬ card.Ready → ∀ card' c',
      let d' := main card' c' (main card c d)
      (main card c d).phase = .main ∧ d'.phase = .application ∧ d'.updates = d.updates) := by
  constructor
  · intro h_token
    rw [main_of_token h_token h_boot]
    exact ⟨rfl, rfl⟩
  · intro h_token h_ready card' c'
    -- without a file `main_thread` goes on to `reset_and_jump`
    have h_first : main card c d = resetAndJump d := by
      rw [main_of_ne h_token, mainThread, tryFlash_of_not_ready h_ready, h_main,
        if_neg (by decide), if_neg h_boot]
    rw [h_first]
    -- and the next `main` finds the token
    have h_second : main card' c' (resetAndJump d) =
        { resetAndJump d with jumpToken := 0, phase := .application } :=
      main_of_token rfl h_boot
    exact ⟨rfl, by rw [h_second], by rw [h_second]; rfl⟩

/-- There is none. -/
def noCard : Card where
  connected := false
  mounted := false
  opened := false
  reads := []
  reads_length := by decide

/-- A power-up without a card is enough to start what is there. -/
theorem reach_application {image : ℕ → UInt8} {d : Device}
    (h : (device image).Reach (fun _ _ => True) d) (h_boot : d.Bootable) :
    ∃ d', (device image).Reach (fun _ _ => True) d' ∧ d'.phase = .application ∧
      d'.updates = d.updates := by
  let e : Device := { d with jumpToken := 0, phase := .main }
  have h_power : (device image).Reach (fun _ _ => True) e :=
    h.step (a := .powerUp 0) trivial rfl
  obtain ⟨h_main, h_start, h_updates⟩ := (@starts_partially noCard ideal e rfl h_boot).2
    (by decide : (0 : UInt32) ≠ jumpTokenValue) (by decide) noCard ideal
  have h_reset := h_power.step trivial (next_main rfl noCard ideal)
  exact ⟨_, h_reset.step trivial (next_main h_main noCard ideal), h_start, h_updates⟩

/-- A linear base record for the flash and two data records for different pages. The file ends
before its EOF record. -/
def twoRecords : Card where
  connected := true
  mounted := true
  opened := true
  reads :=
    [[58, 48, 50, 48, 48, 48, 48, 48, 52, 48, 56, 48, 48, 70, 50, 10],
      [58, 48, 49, 49, 48, 48, 48, 48, 48, 65, 65, 52, 53, 10],
      [58, 48, 49, 49, 56, 48, 48, 48, 48, 65, 65, 51, 68, 10]]
  reads_length := by decide

/-- The update with `twoRecords` of a flash that has a vector table. -/
def halfUpdate : Update := updateOf twoRecords ideal (fresh 0)

/-- The device after it. -/
def halfUpdated : Device := main twoRecords ideal (fresh 0)

theorem halfUpdate_run :
    (halfUpdate.run.status, halfUpdate.after 0x08001000, entry halfUpdate.after) =
      (.flashing, 0xAA, [0, 0, 0, 0]) := by
  decide +kernel

theorem halfUpdated_eq :
    halfUpdated.updates = [halfUpdate] ∧ halfUpdated.flash = halfUpdate.after := by
  obtain ⟨h_updates, h_flash⟩ := @tryFlash_update twoRecords ideal (fresh 0) (by decide)
  rw [halfUpdated, main_of_ne (by decide), mainThread_eq.1, mainThread_eq.2]
  exact ⟨h_updates, h_flash⟩

theorem halfUpdated_partially : ¬ Whole halfUpdated.updates := by
  obtain ⟨h_status, h_rest⟩ := Prod.mk.inj halfUpdate_run
  obtain ⟨h_byte, -⟩ := Prod.mk.inj h_rest
  have h_modified : halfUpdate.Modified := by
    intro h
    have h_before : halfUpdate.before 0x08001000 = 0 := rfl
    rw [h, h_before] at h_byte
    exact absurd h_byte (by decide)
  rw [halfUpdated_eq.1]
  exact not_whole_of_modified h_modified
    (fun h => absurd (h_status.symm.trans h.2) (by decide)) []

theorem halfUpdated_bootable : halfUpdated.Bootable := by
  obtain ⟨-, h_rest⟩ := Prod.mk.inj halfUpdate_run
  obtain ⟨-, h_vector⟩ := Prod.mk.inj h_rest
  rw [Device.Bootable, halfUpdated_eq.2, h_vector]
  decide

/-- A partial update, and then a power-up without a card. -/
theorem starts_halfUpdated :
    ¬ ∀ image d, (device image).Reach (fun _ _ => True) d → d.phase = .application →
      Whole d.updates := by
  intro h
  have h_fresh : (device fun _ => 0).Reach (fun _ _ => True) (fresh 0) :=
    Machine.Reach.init.step (a := .powerUp 0) trivial rfl
  have h_half := h_fresh.step trivial (next_main rfl twoRecords ideal)
  obtain ⟨d, h_reach, h_start, h_updates⟩ := reach_application h_half halfUpdated_bootable
  have h_whole := h _ _ h_reach h_start
  rw [h_updates] at h_whole
  exact halfUpdated_partially h_whole

end Boot

end Laureline
