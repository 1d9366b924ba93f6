import Mathlib

/-!
# The pins of a port

`setup_gpio` and `setup_bank` of `init.c`. A register of the port has four bits for each of eight
pins; `odr` are the levels, which are changed by writing to `BSRR` and `BRR`.

`setup_bank` collects the bits of all pins and writes each register once. That is the same as
setting the pins one after the other (`setup_bank_eq`), whatever was in the registers before.
-/

namespace Laureline

namespace Gpio

/-- `gpio_cfg_t`. -/
structure GpioCfg where
  flags : BitVec 8
  value : BitVec 8
deriving DecidableEq

/-- The registers of a port. -/
@[ext]
structure Bank where
  crl : BitVec 32
  crh : BitVec 32
  odr : BitVec 16
deriving DecidableEq

/-- `BSRR`: the lower half sets, the upper half resets, and setting takes precedence. -/
def Bank.writeBsrr (bank : Bank) (v : BitVec 32) : Bank :=
  { bank with odr := (bank.odr &&& ~~~(v >>> 16).setWidth 16) ||| v.setWidth 16 }

/-- `BRR`. -/
def Bank.writeBrr (bank : Bank) (v : BitVec 32) : Bank :=
  { bank with odr := bank.odr &&& ~~~v.setWidth 16 }

/-- `*reg = (*reg & ~mask) | flags`. -/
def setPin (reg : BitVec 32) (pin : ℕ) (flags : BitVec 32) : BitVec 32 :=
  (reg &&& ~~~(0xF#32 <<< (pin * 4))) ||| (flags <<< (pin * 4))

/-- `setup_gpio`. -/
def setupGpio (bank : Bank) (pin : ℕ) (flags : BitVec 32) (value : Bool) : Bank :=
  let bank := if value then bank.writeBsrr (1#32 <<< pin) else bank.writeBrr (1#32 <<< pin)
  if pin < 8 then { bank with crl := setPin bank.crl pin flags }
  else { bank with crh := setPin bank.crh (pin - 8) flags }

/-- The variables of `setup_bank`. -/
structure Words where
  crl : BitVec 32
  crh : BitVec 32
  bsrr : BitVec 32

/-- The body of the loop. -/
def collect (pins : ℕ → GpioCfg) (w : Words) (i : ℕ) : Words :=
  let flags := (pins i).flags.setWidth 32
  { crl := if i < 8 then w.crl ||| flags <<< (4 * i) else w.crl
    crh := if i < 8 then w.crh else w.crh ||| flags <<< (4 * (i - 8))
    bsrr := w.bsrr ||| 1#32 <<< (if (pins i).value ≠ 0#8 then i else i + 16) }

/-- `setup_bank`. -/
def setupBank (bank : Bank) (pins : ℕ → GpioCfg) : Bank :=
  let w := (List.range 16).foldl (collect pins) ⟨0, 0, 0⟩
  { bank.writeBsrr w.bsrr with crl := w.crl, crh := w.crh }

/-- One pin after the other. -/
def setupPins (bank : Bank) (pins : ℕ → GpioCfg) (k : ℕ) : Bank :=
  (List.range k).foldl
    (fun bank i => setupGpio bank i ((pins i).flags.setWidth 32) ((pins i).value ≠ 0#8)) bank

/-! ### Bit by bit -/

variable {pins : ℕ → GpioCfg} {bank : Bank} {k n : ℕ}

/-- The bit of a register that a pin's flags say. -/
def flagBit (pins : ℕ → GpioCfg) (first n : ℕ) : Bool :=
  (pins (first + n / 4)).flags.getLsbD (n % 4)

theorem flags_high {flags : BitVec 8} (h : flags < 16#8) (hn : 4 ≤ n) :
    flags.getLsbD n = false := by
  have h_lt : flags.toNat < 2 ^ 4 := h
  rw [BitVec.getLsbD]
  exact Nat.testBit_lt_two_pow (Nat.lt_of_lt_of_le h_lt (Nat.pow_le_pow_right Nat.two_pos hn))

theorem getLsbD_shift {flags : BitVec 8} (h : flags < 16#8) (hn : n < 32) (i : ℕ) :
    (flags.setWidth 32 <<< (4 * i)).getLsbD n = (decide (n / 4 = i) && flags.getLsbD (n % 4)) := by
  rw [BitVec.getLsbD_shiftLeft, BitVec.getLsbD_setWidth]
  by_cases h_at : n / 4 = i
  · have h_sub : n - 4 * i = n % 4 := by omega
    have h_ge : ¬n < 4 * i := by omega
    have h_lt : n % 4 < 32 := by omega
    simp [h_at, h_sub, h_ge, h_lt, hn]
  · by_cases h_ge : n < 4 * i
    · simp [h_at, h_ge]
    · -- above the field of the pin
      have h_high : flags.getLsbD (n - 4 * i) = false := flags_high h (by omega)
      simp [h_at, h_high]

theorem getLsbD_setPin {flags : BitVec 8} (h : flags < 16#8) (reg : BitVec 32) (hn : n < 32)
    (i : ℕ) : (setPin reg i (flags.setWidth 32)).getLsbD n =
      if n / 4 = i then flags.getLsbD (n % 4) else reg.getLsbD n := by
  -- the mask covers the four bits of pin `i`
  have h_mask : (0xF#32 <<< (i * 4)).getLsbD n = decide (n / 4 = i) := by
    have h_all : (0xF#8).getLsbD (n % 4) = true := by
      have h_lt : n % 4 < 4 := Nat.mod_lt _ (by decide)
      generalize n % 4 = j at h_lt ⊢
      decide +revert
    have h_flags : 0xF#8 < 16#8 := by decide
    have h_shift := getLsbD_shift h_flags hn i
    rw [h_all, Bool.and_true, Nat.mul_comm] at h_shift
    exact h_shift
  rw [setPin, BitVec.getLsbD_or, BitVec.getLsbD_and, BitVec.getLsbD_not, h_mask, Nat.mul_comm i 4,
    getLsbD_shift h hn]
  by_cases h_at : n / 4 = i
  · simp [h_at]
  · simp [h_at, hn]

theorem getLsbD_one_shift (hn : n < 32) (i : ℕ) : (1#32 <<< i).getLsbD n = decide (n = i) := by
  rw [BitVec.getLsbD_shiftLeft, BitVec.getLsbD_one]
  by_cases h_at : n = i
  · subst h_at
    simp [hn]
  · have h_not : ¬(n - i = 0 ∧ i ≤ n) := by omega
    simp only [h_at, decide_false]
    grind

/-! ### After some pins -/

theorem setupPins_succ (bank : Bank) (pins : ℕ → GpioCfg) (k : ℕ) :
    setupPins bank pins (k + 1) = setupGpio (setupPins bank pins k) k
      ((pins k).flags.setWidth 32) ((pins k).value ≠ 0#8) := by
  rw [setupPins, List.range_succ, List.foldl_append]
  rfl

theorem setupGpio_crl (bank : Bank) (pin : ℕ) (flags : BitVec 32) (value : Bool) :
    (setupGpio bank pin flags value).crl =
      if pin < 8 then setPin bank.crl pin flags else bank.crl := by
  unfold setupGpio
  cases value <;> split_ifs <;> rfl

theorem setupGpio_crh (bank : Bank) (pin : ℕ) (flags : BitVec 32) (value : Bool) :
    (setupGpio bank pin flags value).crh =
      if pin < 8 then bank.crh else setPin bank.crh (pin - 8) flags := by
  unfold setupGpio
  cases value <;> split_ifs <;> rfl

theorem getLsbD_setupGpio_odr (bank : Bank) (flags : BitVec 32) (value : Bool) (hn : n < 16)
    (hk : k < 16) : (setupGpio bank k flags value).odr.getLsbD n =
      if n = k then value else bank.odr.getLsbD n := by
  have h_low : ((1#32 <<< k).setWidth 16).getLsbD n = decide (n = k) := by
    rw [BitVec.getLsbD_setWidth, getLsbD_one_shift (by omega)]
    simp [hn]
  -- the pin is below 16, so the upper half of the written word is zero
  have h_high : ((1#32 <<< k >>> 16).setWidth 16).getLsbD n = false := by
    rw [BitVec.getLsbD_setWidth, BitVec.getLsbD_ushiftRight, getLsbD_one_shift (by omega)]
    have h_ne : 16 + n ≠ k := by omega
    simp [h_ne]
  have h_odr : (setupGpio bank k flags value).odr =
      if value then (bank.odr &&& ~~~(1#32 <<< k >>> 16).setWidth 16) ||| (1#32 <<< k).setWidth 16
      else bank.odr &&& ~~~(1#32 <<< k).setWidth 16 := by
    unfold setupGpio
    cases value <;> split_ifs <;> rfl
  rw [h_odr]
  cases value with
  | true =>
    rw [if_pos rfl, BitVec.getLsbD_or, BitVec.getLsbD_and, BitVec.getLsbD_not, h_low, h_high]
    by_cases h_at : n = k <;> simp [h_at, hn]
  | false =>
    rw [if_neg (by simp), BitVec.getLsbD_and, BitVec.getLsbD_not, h_low]
    by_cases h_at : n = k <;> simp [h_at, hn]

/-- The registers after `k` pins. -/
structure After (pins : ℕ → GpioCfg) (bank : Bank) (k : ℕ) (b : Bank) : Prop where
  crl : ∀ n < 32, b.crl.getLsbD n = if n / 4 < k then flagBit pins 0 n else bank.crl.getLsbD n
  crh : ∀ n < 32, b.crh.getLsbD n = if 8 + n / 4 < k then flagBit pins 8 n else bank.crh.getLsbD n
  odr : ∀ n < 16, b.odr.getLsbD n =
    if n < k then decide ((pins n).value ≠ 0#8) else bank.odr.getLsbD n

theorem after_setupPins (h : ∀ i < 16, (pins i).flags < 16#8) (hk : k ≤ 16) :
    After pins bank k (setupPins bank pins k) := by
  induction k with
  | zero => exact ⟨fun n _ => by simp [setupPins], fun n _ => by simp [setupPins],
      fun n _ => by simp [setupPins]⟩
  | succ k ih =>
    obtain ⟨h_crl, h_crh, h_odr⟩ := ih (Nat.le_of_succ_le hk)
    have h_flags := h k hk
    rw [setupPins_succ]
    refine ⟨?_, ?_, ?_⟩
    · -- only the first eight pins are in this register
      intro n hn
      rw [setupGpio_crl]
      by_cases h_half : k < 8
      · rw [if_pos h_half, getLsbD_setPin h_flags _ hn, h_crl n hn, flagBit]
        grind
      · rw [if_neg h_half, h_crl n hn]
        grind
    · intro n hn
      rw [setupGpio_crh]
      by_cases h_half : k < 8
      · rw [if_pos h_half, h_crh n hn]
        grind
      · rw [if_neg h_half, getLsbD_setPin h_flags _ hn, h_crh n hn, flagBit]
        grind
    · intro n hn
      rw [getLsbD_setupGpio_odr _ _ _ hn hk, h_odr n hn]
      grind

/-- The variables of `setup_bank` after `k` pins. -/
structure Collected (pins : ℕ → GpioCfg) (k : ℕ) (w : Words) : Prop where
  crl : ∀ n < 32, w.crl.getLsbD n = (decide (n / 4 < k) && flagBit pins 0 n)
  crh : ∀ n < 32, w.crh.getLsbD n = (decide (8 + n / 4 < k) && flagBit pins 8 n)
  set : ∀ n < 16, w.bsrr.getLsbD n = (decide (n < k) && decide ((pins n).value ≠ 0#8))
  reset : ∀ n < 16, w.bsrr.getLsbD (16 + n) = (decide (n < k) && decide ((pins n).value = 0#8))

/-- One more of what a loop collects. -/
theorem lt_succ_or (b : ℕ → Bool) (m k : ℕ) :
    (decide (m < k) && b m || decide (m = k) && b k) = (decide (m < k + 1) && b m) := by
  by_cases h_at : m = k
  · subst h_at
    simp
  · have h_iff : m < k + 1 ↔ m < k := by omega
    simp [h_at, h_iff]

theorem collected (h : ∀ i < 16, (pins i).flags < 16#8) (hk : k ≤ 16) :
    Collected pins k ((List.range k).foldl (collect pins) ⟨0, 0, 0⟩) := by
  induction k with
  | zero => exact ⟨fun n _ => by simp, fun n _ => by simp, fun n _ => by simp, fun n _ => by simp⟩
  | succ k ih =>
    obtain ⟨h_crl, h_crh, h_set, h_reset⟩ := ih (Nat.le_of_succ_le hk)
    have h_flags := h k hk
    rw [List.range_succ, List.foldl_append]
    generalize (List.range k).foldl (collect pins) ⟨0, 0, 0⟩ = w at h_crl h_crh h_set h_reset ⊢
    simp only [List.foldl_cons, List.foldl_nil, collect]
    refine ⟨?_, ?_, ?_, ?_⟩
    · intro n hn
      by_cases h_half : k < 8
      · rw [if_pos h_half, BitVec.getLsbD_or, getLsbD_shift h_flags hn, h_crl n hn, flagBit,
          Nat.zero_add]
        exact lt_succ_or (fun i => (pins i).flags.getLsbD (n % 4)) (n / 4) k
      · -- the pins of the other half
        have h_iff : n / 4 < k + 1 ↔ n / 4 < k := by omega
        rw [if_neg h_half, h_crl n hn, decide_eq_decide.mpr h_iff]
    · intro n hn
      dsimp only
      by_cases h_half : k < 8
      · have h_iff : 8 + n / 4 < k + 1 ↔ 8 + n / 4 < k := by omega
        rw [if_pos h_half, h_crh n hn, decide_eq_decide.mpr h_iff]
      · have h_at : n / 4 = k - 8 ↔ 8 + n / 4 = k := by omega
        rw [if_neg h_half, BitVec.getLsbD_or, getLsbD_shift h_flags hn, h_crh n hn, flagBit,
          decide_eq_decide.mpr h_at]
        exact lt_succ_or (fun i => (pins i).flags.getLsbD (n % 4)) (8 + n / 4) k
    · intro n hn
      have h_at : (n = if (pins k).value ≠ 0#8 then k else k + 16) ↔
          n = k ∧ (pins k).value ≠ 0#8 := by
        have h_ne : n ≠ k + 16 := by omega
        by_cases h_value : (pins k).value = 0#8 <;> simp [h_value, h_ne]
      rw [BitVec.getLsbD_or, getLsbD_one_shift (by omega), h_set n hn, decide_eq_decide.mpr h_at,
        Bool.decide_and]
      exact lt_succ_or (fun i => decide ((pins i).value ≠ 0#8)) n k
    · intro n hn
      have h_at : (16 + n = if (pins k).value ≠ 0#8 then k else k + 16) ↔
          n = k ∧ (pins k).value = 0#8 := by
        have h_ne : 16 + n ≠ k := by omega
        have h_iff : 16 + n = k + 16 ↔ n = k := by omega
        by_cases h_value : (pins k).value = 0#8 <;> simp [h_value, h_iff, h_ne]
      rw [BitVec.getLsbD_or, getLsbD_one_shift (by omega), h_reset n hn, decide_eq_decide.mpr h_at,
        Bool.decide_and]
      exact lt_succ_or (fun i => decide ((pins i).value = 0#8)) n k

/-- **One store for all pins.** With four bits of flags for each pin, `setup_bank` leaves the port
as `setup_gpio` would, called for each of the 16 pins. -/
theorem setup_bank_eq (bank : Bank) (pins : ℕ → GpioCfg) (h : ∀ i < 16, (pins i).flags < 16#8) :
    setupBank bank pins = setupPins bank pins 16 := by
  have h_after : After pins bank 16 (setupPins bank pins 16) := after_setupPins h (Nat.le_refl 16)
  obtain ⟨h_crl, h_crh, h_odr⟩ := h_after
  obtain ⟨w_crl, w_crh, w_set, w_reset⟩ := collected h (Nat.le_refl 16)
  apply Bank.ext
  · apply BitVec.eq_of_getLsbD_eq
    intro n hn
    rw [h_crl n hn, if_pos (by omega)]
    refine (w_crl n hn).trans ?_
    rw [decide_eq_true (by omega), Bool.true_and]
  · apply BitVec.eq_of_getLsbD_eq
    intro n hn
    rw [h_crh n hn, if_pos (by omega)]
    refine (w_crh n hn).trans ?_
    rw [decide_eq_true (by omega), Bool.true_and]
  · apply BitVec.eq_of_getLsbD_eq
    intro n hn
    rw [h_odr n hn, if_pos hn]
    simp only [setupBank, Bank.writeBsrr, BitVec.getLsbD_or, BitVec.getLsbD_and, BitVec.getLsbD_not,
      BitVec.getLsbD_setWidth, BitVec.getLsbD_ushiftRight, w_set n hn, w_reset n hn]
    -- a pin is set or reset, and one of the two
    by_cases h_value : (pins n).value = 0#8 <;> simp [h_value, hn]

/-- The pins of the EEPROM's bus. -/
def busPins (i : ℕ) : GpioCfg := if i = 6 ∨ i = 7 then ⟨0b1111, 1⟩ else ⟨0b1000, 1⟩

theorem setup_bank_eq_bus : setupBank ⟨0, 0, 0⟩ busPins = setupPins ⟨0, 0, 0⟩ busPins 16 :=
  setup_bank_eq ⟨0, 0, 0⟩ busPins fun i _ => by
    unfold busPins
    split_ifs <;> decide

end Gpio

end Laureline
