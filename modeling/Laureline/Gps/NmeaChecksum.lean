import Laureline.Gps.NmeaText
import Laureline.Util.Numerals

/-!
# The checksum of an NMEA sentence

A sentence with `*` is taken if the two characters behind it, folded into the exclusive or of the
characters before it, clear it. `parse_hex` gives 0 for a character that is no digit, and a CR or LF
among the characters is not folded in, as it has ended a sentence without checksum.

* `heard` is the sentence so far, by the bytes alone;
* `Stage` — the parser is where the bytes say (`stage`);
* `nmea_checksum_iff` — when a sentence that is taken has its checksum.
-/

namespace Laureline
namespace Gps

open Run

/-! ### The sentence by its bytes -/

/-- What has come since the last `$`: the characters before `*`, and those from `*` on. -/
abbrev Heard := Option (List UInt8 × List UInt8)

/-- A byte more. -/
def hear (heard : Heard) (b : UInt8) : Heard :=
  if b = 0x24 then some ([], [])
  else heard.map fun s => if s.2 = [] ∧ b ≠ 0x2A then (s.1 ++ [b], []) else (s.1, s.2 ++ [b])

/-- What a sequence leaves. -/
def heard (bs : List UInt8) : Heard := bs.foldl hear none

theorem heard_append (bs : List UInt8) (b : UInt8) : heard (bs ++ [b]) = hear (heard bs) b :=
  List.foldl_append

/-- CR and LF. -/
def isEol (b : UInt8) : Bool := b = 0x0D ∨ b = 0x0A

/-- The characters that the parser keeps. -/
def kept (body : List UInt8) : List UInt8 := body.filter fun b => !isEol b

/-- Those that it takes for an end. -/
def eols (body : List UInt8) : List UInt8 := body.filter isEol

theorem kept_append (body : List UInt8) (b : UInt8) :
    kept (body ++ [b]) = if isEol b then kept body else kept body ++ [b] := by
  rw [kept, List.filter_append, List.filter_singleton]
  cases isEol b <;> simp [kept]

/-- The characters are folded in any order. -/
theorem xorAll_kept (body : List UInt8) :
    xorAll body = xorAll (kept body) ^^^ xorAll (eols body) := by
  induction body using List.reverseRecOn with
  | nil => rfl
  | append_singleton body b ih =>
    rw [kept_append, eols, List.filter_append, List.filter_singleton, xorAll_append, ih]
    cases h : isEol b with
    | false =>
      simp only [cond_false, Bool.false_eq_true, if_false, List.append_nil]
      rw [xorAll_append, UInt8.xor_assoc, UInt8.xor_comm (xorAll (eols body)), ← UInt8.xor_assoc,
        eols]
    | true =>
      simp only [cond_true, if_true]
      rw [xorAll_append, UInt8.xor_assoc, eols]

/-- The place of the parser in a sentence that fits. -/
def At (n : Nmea) (body : List UInt8) : List UInt8 → Prop
  | [] => n.rxState = .copying ∧ n.rxCount = (kept body).length ∧ n.rxCksum = xorAll (kept body)
  | [_] => n.rxState = .checksum1 ∧ n.rxCksum = xorAll (kept body)
  | [_, c] => n.rxState = .checksum2 ∧ n.rxCksum = xorAll (kept body) ^^^ (parseHex c <<< 4)
  | _ :: _ :: _ :: _ => n.rxState = .waiting

/-- The place of the parser. -/
def Stage (n : Nmea) : Heard → Prop
  | none => n.rxState = .waiting
  | some (body, tail) =>
    if 127 < (kept body).length then n.rxState = .waiting else At n body tail

/-- `nmea_feed` completes a sentence with `*` only if the checksum is right. -/
def Checked (p : Pbuf) (xs : List Input) (x : Input) : Prop :=
  ∀ body tail, heard ((xs ++ [x]).map Input.data) = some (body, 0x2A :: tail) →
    (nmeaByte (after nmeaByte (.powerUp, p) xs).1 (after nmeaByte (.powerUp, p) xs).2 x).rc =
        .feedComplete →
      ∃ c d hi lo, tail = [c, d] ∧ IsHexDigit c hi ∧ IsHexDigit d lo ∧
        (xorAll body).toNat = 16 * hi + lo

/-- If the characters that are kept fit into the buffer and the two behind `*` clear their exclusive
or, then these are digits, and CR and LF cancel. -/
def Genuine (bs : List UInt8) : Prop :=
  ∀ body c d, heard bs = some (body, [0x2A, c, d]) → (kept body).length ≤ 127 →
    xorAll (kept body) ^^^ (parseHex c <<< 4) ^^^ parseHex d = 0 →
      (∃ hi, IsHexDigit c hi) ∧ (∃ lo, IsHexDigit d lo) ∧ xorAll (eols body) = 0

/-! ### One byte -/

theorem stage_of_long {n : Nmea} {body : List UInt8} (h : 127 < (kept body).length)
    (tail : List UInt8) : Stage n (some (body, tail)) ↔ n.rxState = .waiting :=
  iff_of_eq (if_pos h)

theorem stage_of_fits {n : Nmea} {body : List UInt8} (h : (kept body).length ≤ 127)
    (tail : List UInt8) : Stage n (some (body, tail)) ↔ At n body tail :=
  iff_of_eq (if_neg (Nat.not_lt.mpr h))

/-- A byte among the characters. -/
theorem stage_char {n : Nmea} {p : Pbuf} {body : List UInt8} {x : Input}
    (h_fits : (kept body).length ≤ 127) (h_state : n.rxState = .copying)
    (h_count : n.rxCount = (kept body).length) (h_cksum : n.rxCksum = xorAll (kept body))
    (h_dollar : x.data ≠ 0x24) (h_star : x.data ≠ 0x2A) :
    Stage (nmeaByte n p x).st (some (body ++ [x.data], [])) := by
  by_cases h_eol : x.data = 0x0D ∨ x.data = 0x0A
  · -- the sentence ends, and the parser goes on
    have h_kept : kept (body ++ [x.data]) = kept body := by
      rw [kept_append, if_pos (by simpa [isEol] using h_eol)]
    rw [nmeaByte_eol h_state h_eol, nmeaSentence_st]
    obtain ⟨h_state', h_count', h_cksum'⟩ :=
      sentenceSeen_frame n x.tick.toNat (pieces 0x2C (sentenceText n p))
    rw [stage_of_fits (by rwa [h_kept]), At, h_kept]
    exact ⟨h_state'.trans h_state, h_count'.trans h_count, h_cksum'.trans h_cksum⟩
  · have h_kept : kept (body ++ [x.data]) = kept body ++ [x.data] := by
      rw [kept_append, if_neg (by simpa [isEol] using h_eol)]
    rw [nmeaByte_char h_state (by simp only [List.mem_cons, List.not_mem_nil]; tauto)]
    split
    · next h_full =>
      rw [stage_of_long (by rw [h_kept, List.length_append, List.length_singleton]; omega)]
    · next h_room =>
      rw [stage_of_fits (by rw [h_kept, List.length_append, List.length_singleton]; omega), At,
        h_kept]
      refine ⟨h_state, ?_, ?_⟩
      · rw [List.length_append, List.length_singleton, ← h_count]
        dsimp only
        omega
      · rw [xorAll_append, ← h_cksum]

/-- **The parser stays with the bytes.** -/
theorem Stage.next {c : Nmea × Pbuf} {h : Heard} (h_stage : Stage c.1 h) (x : Input) :
    Stage (Run.next nmeaByte c x).1 (hear h x.data) := by
  obtain ⟨n, p⟩ := c
  have h_st : (Run.next nmeaByte (n, p) x).1 = (nmeaByte n p x).st := rfl
  rw [h_st]
  by_cases h_dollar : x.data = 0x24
  · rw [hear, if_pos h_dollar, nmeaByte, nmeaFeed, if_pos h_dollar]
    exact ⟨rfl, rfl, rfl⟩
  rw [hear, if_neg h_dollar]
  cases h with
  | none => rwa [nmeaByte_waiting h_stage h_dollar]
  | some s =>
    obtain ⟨body, tail⟩ := s
    rw [Option.map_some]
    dsimp only at h_stage ⊢
    by_cases h_long : 127 < (kept body).length
    · -- a sentence that is too long stays so
      have h_waiting := (stage_of_long h_long tail).mp h_stage
      rw [nmeaByte_waiting h_waiting h_dollar]
      split
      · refine (stage_of_long ?_ _).mpr h_waiting
        rw [kept_append]
        split
        · exact h_long
        · rw [List.length_append]; omega
      · exact (stage_of_long h_long _).mpr h_waiting
    · have h_fits := Nat.not_lt.mp h_long
      rw [stage_of_fits h_fits] at h_stage
      -- by the number of bytes behind the characters, the `*` included
      rcases tail with _ | ⟨a, _ | ⟨b, _ | ⟨d, tail⟩⟩⟩
      · obtain ⟨h_state, h_count, h_cksum⟩ := h_stage
        by_cases h_star : x.data = 0x2A
        · rw [if_neg fun h => h.2 h_star, nmeaByte_star h_state h_star]
          exact (stage_of_fits h_fits _).mpr ⟨rfl, h_cksum⟩
        · rw [if_pos ⟨rfl, h_star⟩]
          exact stage_char h_fits h_state h_count h_cksum h_dollar h_star
      · obtain ⟨h_state, h_cksum⟩ := h_stage
        rw [if_neg fun h => List.cons_ne_nil _ _ h.1, nmeaByte_checksum1 h_state h_dollar]
        exact (stage_of_fits h_fits _).mpr ⟨rfl, by rw [← h_cksum]⟩
      · -- the second digit is the last byte, whatever it is
        obtain ⟨h_state, h_cksum⟩ := h_stage
        rw [if_neg fun h => List.cons_ne_nil _ _ h.1, nmeaByte_checksum2 h_state h_dollar]
        refine (stage_of_fits h_fits _).mpr ?_
        split
        · rfl
        · exact (nmeaSentence_frame _ _ _).2.2.2.1
      · rw [if_neg fun h => List.cons_ne_nil _ _ h.1, nmeaByte_waiting h_stage h_dollar]
        exact (stage_of_fits h_fits _).mpr h_stage

/-- The parser from power-up on. -/
theorem stage (p : Pbuf) (xs : List Input) :
    Stage (after nmeaByte (.powerUp, p) xs).1 (heard (xs.map Input.data)) := by
  have h_start : Stage Nmea.powerUp (heard []) := rfl
  refine after_induction nmeaByte (I := fun xs c => Stage c.1 (heard (xs.map Input.data))) h_start
    (fun xs c x h => ?_) xs
  rw [List.map_append, List.map_singleton, heard_append]
  exact h.next x

/-- **A sentence with `*` is complete with the second character behind it**, if it fits and the two
clear its exclusive or. -/
theorem nmea_star_complete_iff (p : Pbuf) (xs : List Input) (x : Input) {body tail : List UInt8}
    (h : heard ((xs ++ [x]).map Input.data) = some (body, 0x2A :: tail)) :
    (nmeaByte (after nmeaByte (.powerUp, p) xs).1 (after nmeaByte (.powerUp, p) xs).2 x).rc =
        .feedComplete ↔
      ∃ c d, tail = [c, d] ∧ (kept body).length ≤ 127 ∧
        xorAll (kept body) ^^^ (parseHex c <<< 4) ^^^ parseHex d = 0 := by
  have h_stage := stage p xs
  rw [List.map_append, List.map_singleton, heard_append] at h
  generalize after nmeaByte (.powerUp, p) xs = c at h_stage
  obtain ⟨n, p⟩ := c
  dsimp only at h_stage ⊢
  have h_dollar : x.data ≠ 0x24 := by
    intro h_dollar
    rw [hear, if_pos h_dollar] at h
    cases h
  rw [hear, if_neg h_dollar] at h
  obtain ⟨⟨body', tail'⟩, h_heard, h_split⟩ := Option.map_eq_some_iff.mp h
  dsimp only at h_split
  split at h_split
  · cases h_split
  obtain ⟨rfl, h_tail⟩ := Prod.mk.inj h_split
  rw [h_heard] at h_stage
  by_cases h_long : 127 < (kept body').length
  · rw [nmeaByte_waiting ((stage_of_long h_long _).mp h_stage) h_dollar]
    refine iff_of_false (by simp) ?_
    rintro ⟨c, d, -, h_fits, -⟩
    omega
  have h_fits := Nat.not_lt.mp h_long
  rw [stage_of_fits h_fits] at h_stage
  -- only the second byte behind the `*` can complete it
  rcases tail' with _ | ⟨a, _ | ⟨b, _ | ⟨d, tail'⟩⟩⟩
  · obtain ⟨h_star, rfl⟩ := List.cons_eq_cons.mp h_tail
    rw [nmeaByte_star h_stage.1 h_star]
    exact iff_of_false (by simp) (by simp)
  · obtain ⟨-, rfl⟩ := List.cons_eq_cons.mp h_tail
    rw [nmeaByte_checksum1 h_stage.1 h_dollar]
    exact iff_of_false (by simp) (by simp)
  · obtain ⟨-, rfl⟩ := List.cons_eq_cons.mp h_tail
    rw [nmeaByte_checksum2 h_stage.1 h_dollar, h_stage.2]
    split
    · next h_ne =>
      refine iff_of_false (by simp) ?_
      rintro ⟨c, d, h_eq, -, h_zero⟩
      obtain ⟨h_c, h_d⟩ : b = c ∧ x.data = d := by simpa using h_eq
      exact h_ne (h_c ▸ h_d ▸ h_zero)
    · next h_zero =>
      exact iff_of_true (nmeaSentence_frame _ _ _).1 ⟨b, x.data, rfl, h_fits, not_not.mp h_zero⟩
  · obtain ⟨-, rfl⟩ := List.cons_eq_cons.mp h_tail
    rw [nmeaByte_waiting h_stage h_dollar]
    exact iff_of_false (by simp) (by simp)

/-- **A sentence that is taken has its checksum, exactly if it is genuine.** -/
theorem nmea_checksum_iff (p : Pbuf) (xs : List Input) (x : Input) :
    Checked p xs x ↔ Genuine ((xs ++ [x]).map Input.data) := by
  constructor
  · intro h_checked body c d h_heard h_fits h_zero
    obtain ⟨c', d', hi, lo, h_eq, h_c, h_d, h_value⟩ := h_checked body [c, d] h_heard
      ((nmea_star_complete_iff p xs x h_heard).mpr ⟨c, d, rfl, h_fits, h_zero⟩)
    obtain ⟨rfl, rfl⟩ : c = c' ∧ d = d' := by simpa using h_eq
    refine ⟨⟨hi, h_c⟩, ⟨lo, h_d⟩, ?_⟩
    -- the kept characters have the value, and so have all of them
    have h_kept := (h_c.fold h_d).mp h_zero
    have h_same : xorAll body = xorAll (kept body) := UInt8.toNat_inj.mp (h_value.trans h_kept.symm)
    rw [xorAll_kept] at h_same
    have h_fold := congrArg (xorAll (kept body) ^^^ ·) h_same
    simpa only [← UInt8.xor_assoc, UInt8.xor_self, UInt8.zero_xor] using h_fold
  · intro h_genuine body tail h_heard h_complete
    obtain ⟨c, d, rfl, h_fits, h_zero⟩ := (nmea_star_complete_iff p xs x h_heard).mp h_complete
    obtain ⟨⟨hi, h_c⟩, ⟨lo, h_d⟩, h_eols⟩ := h_genuine body c d h_heard h_fits h_zero
    refine ⟨c, d, hi, lo, rfl, h_c, h_d, ?_⟩
    rw [xorAll_kept, h_eols, UInt8.xor_zero]
    exact (h_c.fold h_d).mp h_zero

/-- A sentence whose first digit is none is taken. -/
theorem nmea_checksum_letter : ¬ ∀ (p : Pbuf) (xs : List Input) (x : Input), Checked p xs x := by
  intro h_all
  have h_checked := h_all (fun _ => 0) ([0x24, 0x41, 0x44, 0x2A, 0x58].map (Input.mk 1)) ⟨1, 0x35⟩
    [0x41, 0x44] [0x58, 0x35] (by decide)
  obtain ⟨c, d, hi, lo, h_eq, h_c, -, -⟩ := h_checked (by decide +kernel)
  obtain ⟨rfl, -⟩ := List.cons_eq_cons.mp h_eq
  have h_lt := h_c.lt
  interval_cases hi <;> exact absurd h_c (by decide)

end Gps
end Laureline
