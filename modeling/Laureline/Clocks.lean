import Laureline.Lib.CInt
import Mathlib.Algebra.Order.Ring.Nat
import Mathlib.Data.List.Basic
import Mathlib.Tactic.IntervalCases

/-!
# The system clock

`setup_clocks` of `init.c`: the search for the divider and the multiplier of the PLL, and what is
written to the registers. The two loops are folds over the numbers they run through. The loops that
wait for a ready flag are left out; `sws` is what the hardware reports as the clock in use.

* `Allowed` is what the search accepts; `Upto` says that the best of some settings is kept.
* `mul2Of` and `divOf` read the setting back from the registers, as the PLL does.
* `setup_clocks_fastest` — the registers, the frequency that is announced, and when there is none.
-/

namespace Laureline

namespace Clocks

/-- `DIV_MIN`. -/
def divMin : ℕ := 1

/-- `DIV_MAX`. -/
def divMax : ℕ := 16

/-- `MUL_MIN`. -/
def mulMin : ℕ := 4

/-- `MUL_MAX`. -/
def mulMax : ℕ := 10

/-- `DIV1_MIN`. -/
def div1Min : ℕ := 3000000

/-- `DIV1_MAX`. -/
def div1Max : ℕ := 12000000

/-- `PLL_MIN`. -/
def pllMin : ℕ := 18000000

/-- `PLL_MAX`. -/
def pllMax : ℕ := 72000000

/-- The output of the PLL. A multiplier of 10 stands for 6.5. -/
def pllFreq (hseFreq div mul : ℕ) : ℕ :=
  if mul = 10 then u32 ((hseFreq * 13 : ℕ) : ℤ) / 2 / div else u32 ((hseFreq * mul : ℕ) : ℤ) / div

/-- `best_freq`, `best_div` and `best_mul`. -/
structure Best where
  freq : ℕ
  div : ℕ
  mul : ℕ
deriving DecidableEq, Repr

/-- The body of the inner loop. -/
def tryMul (hseFreq div : ℕ) (best : Best) (mul : ℕ) : Best :=
  let freq := pllFreq hseFreq div mul
  if freq < pllMin ∨ pllMax < freq then best
  else if freq < best.freq then best
  else ⟨freq, div, mul⟩

/-- The body of the outer loop. -/
def tryDiv (hseFreq : ℕ) (best : Best) (div : ℕ) : Best :=
  let div1 := hseFreq / div
  if div1 < div1Min ∨ div1Max < div1 then best
  else (List.range' mulMin (mulMax + 1 - mulMin)).foldl (tryMul hseFreq div) best

/-- Both loops. -/
def search (hseFreq : ℕ) : Best :=
  (List.range' divMin (divMax + 1 - divMin)).foldl (tryDiv hseFreq) ⟨0, 0, 0⟩

/-! ### The registers -/

/-- `CFGR` without the bits of `RCC_CFGR_SWS`, these bits, and `CFGR2`. -/
structure Rcc where
  cfgr : BitVec 32
  sws : BitVec 32
  cfgr2 : BitVec 32
deriving DecidableEq

/-- `RCC_CFGR_SW`. -/
def rccCfgrSw : BitVec 32 := 0x00000003

/-- `RCC_CFGR_SW_HSI`. -/
def rccCfgrSwHsi : BitVec 32 := 0x00000000

/-- `RCC_CFGR_SW_PLL`. -/
def rccCfgrSwPll : BitVec 32 := 0x00000002

/-- `RCC_CFGR_SWS_HSI`. -/
def rccCfgrSwsHsi : BitVec 32 := 0x00000000

/-- `RCC_CFGR_SWS_PLL`. -/
def rccCfgrSwsPll : BitVec 32 := 0x00000008

/-- `RCC_CFGR_PLLSRC`. -/
def rccCfgrPllsrc : BitVec 32 := 0x00010000

/-- `RCC_CFGR_PLLSRC_PREDIV1`. -/
def rccCfgrPllsrcPrediv1 : BitVec 32 := 0x00010000

/-- `RCC_CFGR_PLLMULL`. -/
def rccCfgrPllmull : BitVec 32 := 0x003C0000

/-- `RCC_CFGR_PLLMULL6_5`. -/
def rccCfgrPllmull65 : BitVec 32 := 0x00340000

/-- `RCC_CFGR2_PREDIV1`. -/
def rccCfgr2Prediv1 : BitVec 32 := 0x0000000F

/-- `RCC_CFGR2_PREDIV1SRC`. -/
def rccCfgr2Prediv1src : BitVec 32 := 0x00010000

/-- `RCC_CFGR2_PREDIV1SRC_HSE`. -/
def rccCfgr2Prediv1srcHse : BitVec 32 := 0x00000000

/-- `SET_BITS`. -/
def setBits (var mask value : BitVec 32) : BitVec 32 := (var &&& ~~~mask) ||| (value &&& mask)

/-- The registers from the switch to HSI to the switch to the PLL. -/
def configure (bestDiv bestMul : ℕ) (rcc : Rcc) : Rcc :=
  let cfgr :=
    if rcc.sws = rccCfgrSwsHsi then rcc.cfgr else setBits rcc.cfgr rccCfgrSw rccCfgrSwHsi
  let cfgr := setBits cfgr rccCfgrPllsrc rccCfgrPllsrcPrediv1
  let cfgr2 := setBits rcc.cfgr2 rccCfgr2Prediv1src rccCfgr2Prediv1srcHse
  let reg := if bestMul = 10 then rccCfgrPllmull65 else BitVec.ofNat 32 (bestMul - 2) <<< 18
  let cfgr := setBits cfgr rccCfgrPllmull reg
  let cfgr2 := setBits cfgr2 rccCfgr2Prediv1 (BitVec.ofNat 32 (bestDiv - 1))
  let cfgr := setBits cfgr rccCfgrSw rccCfgrSwPll
  ⟨cfgr, rccCfgrSwsPll, cfgr2⟩

/-- `setup_clocks`, with `system_frequency` in the end; `none` stands for `HALT()`. -/
def setupClocks (hseFreq : ℕ) (rcc : Rcc) : Option (Rcc × ℕ) :=
  if ¬(hseFreq > 1000000) ∨ ¬(hseFreq < 50000000) then none
  else
    let best := search hseFreq
    if best.freq = 0 then none else some (configure best.div best.mul rcc, best.freq)

/-- Twice the factor of the PLL: the field `PLLMULL` is the factor less 2, and 13 stands for 6.5. -/
def mul2Of (rcc : Rcc) : ℕ :=
  let field := ((rcc.cfgr &&& rccCfgrPllmull) >>> 18).toNat
  if field = 13 then 13 else 2 * (field + 2)

/-- The divider in front of the PLL. -/
def divOf (rcc : Rcc) : ℕ := (rcc.cfgr2 &&& rccCfgr2Prediv1).toNat + 1

/-! ### The search -/

variable {hseFreq div mul : ℕ} {best : Best}

/-- The settings that the search accepts. -/
structure Allowed (hseFreq div mul : ℕ) : Prop where
  div_range : divMin ≤ div ∧ div ≤ divMax
  mul_range : mulMin ≤ mul ∧ mul ≤ mulMax
  input : div1Min ≤ hseFreq / div ∧ hseFreq / div ≤ div1Max
  output : pllMin ≤ pllFreq hseFreq div mul ∧ pllFreq hseFreq div mul ≤ pllMax

/-- The best of the settings seen. -/
structure Upto (hseFreq : ℕ) (seen : ℕ → ℕ → Prop) (best : Best) : Prop where
  found : best.freq = 0 ∨
    Allowed hseFreq best.div best.mul ∧ best.freq = pllFreq hseFreq best.div best.mul
  most : ∀ d m, seen d m → Allowed hseFreq d m → pllFreq hseFreq d m ≤ best.freq

theorem Upto.tryMul {seen : ℕ → ℕ → Prop} (h : Upto hseFreq seen best)
    (h_div : divMin ≤ div ∧ div ≤ divMax) (h_mul : mulMin ≤ mul ∧ mul ≤ mulMax)
    (h_input : div1Min ≤ hseFreq / div ∧ hseFreq / div ≤ div1Max) :
    Upto hseFreq (fun d m => seen d m ∨ d = div ∧ m = mul) (tryMul hseFreq div best mul) := by
  unfold Clocks.tryMul
  dsimp only
  split_ifs with h_out h_less
  · -- the output is out of range
    refine ⟨h.found, ?_⟩
    rintro d m (h_seen | ⟨rfl, rfl⟩) h_allowed
    · exact h.most d m h_seen h_allowed
    · obtain ⟨h_low, h_high⟩ := h_allowed.output
      omega
  · refine ⟨h.found, ?_⟩
    rintro d m (h_seen | ⟨rfl, rfl⟩) h_allowed
    · exact h.most d m h_seen h_allowed
    · exact h_less.le
  · -- a new best setting
    rw [not_or, not_lt, not_lt] at h_out
    refine ⟨.inr ⟨⟨h_div, h_mul, h_input, h_out⟩, rfl⟩, ?_⟩
    rintro d m (h_seen | ⟨rfl, rfl⟩) h_allowed
    · exact (h.most d m h_seen h_allowed).trans (not_lt.mp h_less)
    · exact le_rfl

theorem Upto.tryMuls {muls : List ℕ} {seen : ℕ → ℕ → Prop} (h : Upto hseFreq seen best)
    (h_div : divMin ≤ div ∧ div ≤ divMax) (h_muls : ∀ m ∈ muls, mulMin ≤ m ∧ m ≤ mulMax)
    (h_input : div1Min ≤ hseFreq / div ∧ hseFreq / div ≤ div1Max) :
    Upto hseFreq (fun d m => seen d m ∨ d = div ∧ m ∈ muls)
      (muls.foldl (Clocks.tryMul hseFreq div) best) := by
  induction muls generalizing seen best with
  | nil => exact ⟨h.found, fun d m h_seen => h.most d m (by simpa using h_seen)⟩
  | cons mul muls ih =>
    have h_first := h.tryMul h_div (h_muls mul List.mem_cons_self) h_input
    have h_rest := ih h_first fun m hm => h_muls m (List.mem_cons_of_mem _ hm)
    refine ⟨h_rest.found, fun d m h_seen => h_rest.most d m ?_⟩
    rw [List.mem_cons, and_or_left, ← or_assoc] at h_seen
    exact h_seen

theorem Upto.tryDiv {seen : ℕ → ℕ → Prop} (h : Upto hseFreq seen best)
    (h_div : divMin ≤ div ∧ div ≤ divMax) :
    Upto hseFreq (fun d m => seen d m ∨ d = div) (tryDiv hseFreq best div) := by
  unfold Clocks.tryDiv
  dsimp only
  split_ifs with h_out
  · -- the input is out of range
    refine ⟨h.found, ?_⟩
    rintro d m (h_seen | rfl) h_allowed
    · exact h.most d m h_seen h_allowed
    · obtain ⟨h_low, h_high⟩ := h_allowed.input
      omega
  · rw [not_or, not_lt, not_lt] at h_out
    have h_muls : ∀ m ∈ List.range' mulMin (mulMax + 1 - mulMin), mulMin ≤ m ∧ m ≤ mulMax := by
      intro m hm
      rw [List.mem_range'_1] at hm
      simp only [mulMin, mulMax] at hm ⊢
      omega
    have h_all := h.tryMuls h_div h_muls h_out
    refine ⟨h_all.found, fun d m h_seen h_allowed => h_all.most d m ?_ h_allowed⟩
    refine h_seen.imp_right fun h_eq => ⟨h_eq, ?_⟩
    have h_mul := h_allowed.mul_range
    rw [List.mem_range'_1]
    simp only [mulMin, mulMax] at h_mul ⊢
    omega

theorem Upto.tryDivs {divs : List ℕ} {seen : ℕ → ℕ → Prop} (h : Upto hseFreq seen best)
    (h_divs : ∀ d ∈ divs, divMin ≤ d ∧ d ≤ divMax) :
    Upto hseFreq (fun d m => seen d m ∨ d ∈ divs) (divs.foldl (Clocks.tryDiv hseFreq) best) := by
  induction divs generalizing seen best with
  | nil => exact ⟨h.found, fun d m h_seen => h.most d m (by simpa using h_seen)⟩
  | cons div divs ih =>
    have h_first := h.tryDiv (h_divs div List.mem_cons_self)
    have h_rest := ih h_first fun d hd => h_divs d (List.mem_cons_of_mem _ hd)
    refine ⟨h_rest.found, fun d m h_seen => h_rest.most d m ?_⟩
    rw [List.mem_cons, ← or_assoc] at h_seen
    exact h_seen

/-- No setting that is allowed is faster than the one found. -/
theorem upto_search (hseFreq : ℕ) : Upto hseFreq (fun d _ => divMin ≤ d ∧ d ≤ divMax)
    (search hseFreq) := by
  have h_start : Upto hseFreq (fun _ _ => False) ⟨0, 0, 0⟩ :=
    ⟨.inl rfl, fun _ _ h_seen => h_seen.elim⟩
  have h_mem (d : ℕ) :
      d ∈ List.range' divMin (divMax + 1 - divMin) ↔ divMin ≤ d ∧ d ≤ divMax := by
    rw [List.mem_range'_1]
    simp only [divMin, divMax]
    omega
  have h_all := h_start.tryDivs fun d hd => (h_mem d).mp hd
  exact ⟨h_all.found, fun d m h_seen => h_all.most d m (.inr ((h_mem d).mpr h_seen))⟩

theorem Allowed.le_search (h : Allowed hseFreq div mul) :
    pllFreq hseFreq div mul ≤ (search hseFreq).freq :=
  (upto_search hseFreq).most div mul h.div_range h

/-- Nothing overflows. -/
theorem pllFreq_eq (h_hse : hseFreq < 50000000) (h_mul : mul ≤ mulMax) :
    pllFreq hseFreq div mul = hseFreq * (if mul = 10 then 13 else 2 * mul) / (2 * div) := by
  have h_u32 (x : ℕ) (hx : x < 2 ^ 32) : u32 (x : ℤ) = x := by
    unfold u32
    omega
  have h_le : mul ≤ 10 := h_mul
  unfold pllFreq
  split_ifs
  · rw [h_u32 _ (by omega), Nat.div_div_eq_div_mul]
  · have h_prod : hseFreq * mul < 2 ^ 32 := by
      calc hseFreq * mul ≤ hseFreq * 10 := Nat.mul_le_mul_left _ h_le
        _ < 2 ^ 32 := by omega
    rw [h_u32 _ h_prod, Nat.mul_left_comm, Nat.mul_div_mul_left _ _ Nat.two_pos]

/-- From 3 MHz on a divider gives an input of at most 12 MHz, which is multiplied by 6. -/
theorem exists_allowed (h_low : div1Min ≤ hseFreq) (h_high : hseFreq < 50000000) :
    Allowed hseFreq (hseFreq / 12000000 + 1) 6 := by
  have h_le : hseFreq / 12000000 ≤ 4 := by omega
  have h_freq : pllFreq hseFreq (hseFreq / 12000000 + 1) 6 =
      hseFreq * (2 * 6) / (2 * (hseFreq / 12000000 + 1)) :=
    pllFreq_eq h_high (by decide)
  refine ⟨?_, ⟨by decide, by decide⟩, ?_, ?_⟩
  · simp only [divMin, divMax]
    omega
  · simp only [div1Min, div1Max] at h_low ⊢
    generalize h_div : hseFreq / 12000000 = k at h_le ⊢
    interval_cases k <;> omega
  · rw [h_freq]
    simp only [div1Min, pllMin, pllMax] at h_low ⊢
    generalize h_div : hseFreq / 12000000 = k at h_le ⊢
    interval_cases k <;> omega

theorem search_eq_zero_iff (h_high : hseFreq < 50000000) :
    (search hseFreq).freq = 0 ↔ hseFreq < div1Min := by
  constructor
  · intro h_zero
    by_contra h_low
    have h_allowed := exists_allowed (not_lt.mp h_low) h_high
    have h_le := h_allowed.output.1.trans h_allowed.le_search
    rw [h_zero] at h_le
    exact absurd h_le (by decide)
  · intro h_low
    -- an allowed divider would not make the input larger
    refine (upto_search hseFreq).found.resolve_right ?_
    rintro ⟨h_allowed, _⟩
    have h_le := h_allowed.input.1.trans (Nat.div_le_self _ _)
    exact absurd h_le (not_le.mpr h_low)

/-! ### What is written -/

theorem setBits_and_self (var mask value : BitVec 32) :
    setBits var mask value &&& mask = value &&& mask := by
  apply BitVec.eq_of_getLsbD_eq
  intro i hi
  simp only [setBits, BitVec.getLsbD_and, BitVec.getLsbD_or, BitVec.getLsbD_not, hi, decide_true,
    Bool.true_and]
  cases mask.getLsbD i <;> simp

/-- Other fields stay as they are. -/
theorem setBits_and_of_disjoint {mask other : BitVec 32} (h : mask &&& other = 0)
    (var value : BitVec 32) : setBits var mask value &&& other = var &&& other := by
  apply BitVec.eq_of_getLsbD_eq
  intro i hi
  have h_bit : (mask.getLsbD i && other.getLsbD i) = false := by
    rw [← BitVec.getLsbD_and, h]
    exact BitVec.getLsbD_zero
  simp only [setBits, BitVec.getLsbD_and, BitVec.getLsbD_or, BitVec.getLsbD_not, hi, decide_true,
    Bool.true_and]
  cases h_mask : mask.getLsbD i with
  | false => simp
  | true =>
    rw [h_mask, Bool.true_and] at h_bit
    simp [h_bit]

theorem mul2_field (h_mul : mulMin ≤ mul ∧ mul ≤ mulMax) :
    (let field := (((if mul = 10 then rccCfgrPllmull65 else BitVec.ofNat 32 (mul - 2) <<< 18) &&&
        rccCfgrPllmull) >>> 18).toNat
      if field = 13 then 13 else 2 * (field + 2)) = if mul = 10 then 13 else 2 * mul := by
  obtain ⟨h_low, h_high⟩ := h_mul
  simp only [mulMin, mulMax] at h_low h_high
  interval_cases mul <;> decide

theorem div_field (h_div : divMin ≤ div ∧ div ≤ divMax) :
    (BitVec.ofNat 32 (div - 1) &&& rccCfgr2Prediv1).toNat + 1 = div := by
  obtain ⟨h_low, h_high⟩ := h_div
  simp only [divMin, divMax] at h_low h_high
  interval_cases div <;> decide

theorem mul2Of_configure (h_mul : mulMin ≤ mul ∧ mul ≤ mulMax) (rcc : Rcc) :
    mul2Of (configure div mul rcc) = if mul = 10 then 13 else 2 * mul := by
  have h_field : (configure div mul rcc).cfgr &&& rccCfgrPllmull =
      (if mul = 10 then rccCfgrPllmull65 else BitVec.ofNat 32 (mul - 2) <<< 18) &&&
        rccCfgrPllmull := by
    dsimp only [configure]
    rw [setBits_and_of_disjoint (by decide), setBits_and_self]
  unfold mul2Of
  rw [h_field]
  exact mul2_field h_mul

theorem divOf_configure (h_div : divMin ≤ div ∧ div ≤ divMax) (rcc : Rcc) :
    divOf (configure div mul rcc) = div := by
  have h_field : (configure div mul rcc).cfgr2 &&& rccCfgr2Prediv1 =
      BitVec.ofNat 32 (div - 1) &&& rccCfgr2Prediv1 := setBits_and_self ..
  unfold divOf
  rw [h_field]
  exact div_field h_div

/-- The PLL runs from the crystal, and the processor from the PLL. -/
theorem sources_configure (div mul : ℕ) (rcc : Rcc) :
    (configure div mul rcc).cfgr &&& rccCfgrSw = rccCfgrSwPll ∧
    (configure div mul rcc).cfgr &&& rccCfgrPllsrc = rccCfgrPllsrcPrediv1 ∧
    (configure div mul rcc).cfgr2 &&& rccCfgr2Prediv1src = rccCfgr2Prediv1srcHse := by
  dsimp only [configure]
  refine ⟨?_, ?_, ?_⟩
  · rw [setBits_and_self]
    rfl
  · rw [setBits_and_of_disjoint (by decide), setBits_and_of_disjoint (by decide), setBits_and_self]
    rfl
  · rw [setBits_and_of_disjoint (by decide), setBits_and_self]
    rfl

/-- **The fastest setting.** `setup_clocks` stops for crystals below 3 MHz and from 50 MHz on, and
for no other. Otherwise the frequency that it announces is the one that the PLL makes out of the
registers, the setting is allowed, and no allowed setting is faster. -/
theorem setup_clocks_fastest (hseFreq : ℕ) (rcc : Rcc) :
    (setupClocks hseFreq rcc = none ↔ hseFreq < 3000000 ∨ 50000000 ≤ hseFreq) ∧
    ∀ rcc' freq, setupClocks hseFreq rcc = some (rcc', freq) →
      freq = hseFreq * mul2Of rcc' / (2 * divOf rcc') ∧
      (∃ mul, Allowed hseFreq (divOf rcc') mul ∧ pllFreq hseFreq (divOf rcc') mul = freq) ∧
      (∀ div mul, Allowed hseFreq div mul → pllFreq hseFreq div mul ≤ freq) ∧
      rcc'.cfgr &&& rccCfgrSw = rccCfgrSwPll ∧
      rcc'.cfgr &&& rccCfgrPllsrc = rccCfgrPllsrcPrediv1 ∧
      rcc'.cfgr2 &&& rccCfgr2Prediv1src = rccCfgr2Prediv1srcHse := by
  -- the assertion; then a search without a result; then the setting that is found
  by_cases h_assert : ¬(hseFreq > 1000000) ∨ ¬(hseFreq < 50000000)
  · have h_none : setupClocks hseFreq rcc = none := if_pos h_assert
    refine ⟨⟨fun _ => by omega, fun _ => h_none⟩, fun rcc' freq h_some => ?_⟩
    exact absurd (h_none.symm.trans h_some) (by simp)
  have h_high : hseFreq < 50000000 := by omega
  by_cases h_zero : (search hseFreq).freq = 0
  · have h_none : setupClocks hseFreq rcc = none := (if_neg h_assert).trans (if_pos h_zero)
    have h_low : hseFreq < 3000000 := (search_eq_zero_iff h_high).mp h_zero
    refine ⟨⟨fun _ => .inl h_low, fun _ => h_none⟩, ?_⟩
    intro rcc' freq h_some
    exact absurd (h_none.symm.trans h_some) (by simp)
  · have h_low : ¬ hseFreq < 3000000 := mt (search_eq_zero_iff h_high).mpr h_zero
    have h_found : setupClocks hseFreq rcc =
        some (configure (search hseFreq).div (search hseFreq).mul rcc, (search hseFreq).freq) :=
      (if_neg h_assert).trans (if_neg h_zero)
    refine ⟨⟨fun h_none => ?_, fun h_out => by omega⟩, fun rcc' freq h_some => ?_⟩
    · exact absurd (h_none.symm.trans h_found) (by simp)
    rw [h_found, Option.some.injEq, Prod.mk.injEq] at h_some
    obtain ⟨rfl, rfl⟩ := h_some
    -- the search keeps the best setting so far, and it has seen all of them
    obtain ⟨h_allowed, h_freq⟩ := (upto_search hseFreq).found.resolve_left h_zero
    rw [divOf_configure h_allowed.div_range, mul2Of_configure h_allowed.mul_range]
    refine ⟨?_, ⟨_, h_allowed, h_freq.symm⟩, fun div mul h => h.le_search, sources_configure _ _ _⟩
    rw [h_freq]
    exact pllFreq_eq h_high h_allowed.mul_range.2

/-- A crystal of 25 MHz. -/
theorem setup_clocks_fastest_25 :
    ∃ rcc', setupClocks 25000000 ⟨0, 0, 0⟩ = some (rcc', 66666666) ∧
      66666666 = 25000000 * mul2Of rcc' / (2 * divOf rcc') := by
  have h_found : setupClocks 25000000 ⟨0, 0, 0⟩ = some (configure 3 8 ⟨0, 0, 0⟩, 66666666) := by
    decide +kernel
  exact ⟨_, h_found, ((setup_clocks_fastest 25000000 ⟨0, 0, 0⟩).2 _ _ h_found).1⟩

end Clocks

end Laureline
