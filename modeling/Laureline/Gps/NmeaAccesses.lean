import Laureline.Gps.Accesses
import Laureline.Gps.NmeaText

/-!
# The NMEA parser by its accesses

`nmea_feed` as a program that loads and stores single bytes of `pbuf`. `strlen`, `strcmp`,
`strtok_s` and the two conversions go through the text byte by byte, as in `parse.c`.

`Nmea.runs_feed`: it ends inside the buffer and does what the parser does. The reason is the NUL
behind the sentence. Every loop stops there at the latest (`Ended`), `strtok_s` overwrites nothing
from it on (`OnBuffer`), and `strlen` is asked before a fixed number of characters is read
(`follows_atLeastSix`, `follows_six`).
-/

namespace Laureline
namespace Gps

open Access

/-! ### The functions on texts

A loop that has gone through as many bytes as the buffer has is given up. -/

/-- `strlen`. -/
def strlen : ℕ → ℕ → Access UInt8 ℕ
  | 0, _ => hang
  | fuel + 1, str => do
    if (← fetch str) = 0 then return 0 else return (← strlen fuel (str + 1)) + 1

/-- `strcmp(str, name) == 0`. -/
def strcmpEq : List UInt8 → ℕ → Access UInt8 Bool
  | [], str => do return decide ((← fetch str) = 0)
  | c :: name, str => do
    if (← fetch str) = c then strcmpEq name (str + 1) else return false

/-- `atoi_2dig`. -/
def atoi2digAt (str : ℕ) : Access UInt8 ℕ := do
  let c ← fetch str
  if !isDigit c then return 0
  else
    let d ← fetch (str + 1)
    if !isDigit d then return 0 else return (d - 0x30).toNat + (c - 0x30).toNat * 10

/-- `atoi_decimal`. -/
def atoiDecimalAt (ret : ℕ) : ℕ → ℕ → Access UInt8 ℕ
  | 0, _ => hang
  | fuel + 1, str => do
    let c ← fetch str
    if c = 0 then return ret
    else if c = 0x2E then return ret
    else if !isDigit c then return 0
    else atoiDecimalAt ((ret * 10 + (c - 0x30).toNat) % 2 ^ 32) fuel (str + 1)

/-- The loop of `strtok_s`, with the new value of `last`. -/
def strtokLoop (delim : UInt8) : ℕ → ℕ → Access UInt8 (Option ℕ)
  | 0, _ => hang
  | fuel + 1, str => do
    let c ← fetch str
    if c = 0 then return none
    else if c = delim then
      put str 0
      return some (str + 1)
    else strtokLoop delim fuel (str + 1)

/-- `strtok_s`: the piece and `last`. -/
def strtok (str last : Option ℕ) (delim : UInt8) : Access UInt8 (Option ℕ × Option ℕ) :=
  match str.or last with
  | none => return (none, last)
  | some p => return (some p, ← strtokLoop delim pbufSize p)

section Texts

variable {p : Pbuf} {r str : ℕ}

theorem Pbuf.drop_bytes (h : str < pbufSize) :
    p.bytes.drop str = p str :: p.bytes.drop (str + 1) := by
  have h_length : str < p.bytes.length := by
    rw [Pbuf.bytes, List.length_map, List.length_range]
    exact h
  rw [List.drop_eq_getElem_cons h_length]
  congr 1
  simp [Pbuf.bytes]

theorem cstr_bytes (h : str < pbufSize) :
    cstr p.bytes str = if p str = 0 then [] else p str :: cstr p.bytes (str + 1) := by
  rw [cstr, Pbuf.drop_bytes h, text]
  rfl

/-- There is a NUL at `r`, not before `str`. -/
structure Ended (p : Pbuf) (r str : ℕ) : Prop where
  nul : p r = 0
  room : r < pbufSize
  le : str ≤ r

theorem Ended.lt (h : Ended p r str) : str < pbufSize := h.le.trans_lt h.room

/-- A character is before the NUL. -/
theorem Ended.succ (h : Ended p r str) (h_char : p str ≠ 0) : Ended p r (str + 1) := by
  refine ⟨h.nul, h.room, Nat.succ_le_of_lt (lt_of_le_of_ne h.le ?_)⟩
  rintro rfl
  exact h_char h.nul

/-- The characters of the text are in the memory, before the NUL. -/
theorem Ended.char (h : Ended p r str) {i : ℕ} (hi : i < (cstr p.bytes str).length) :
    Ended p r (str + i + 1) ∧
      (cstr p.bytes str).drop i = p (str + i) :: (cstr p.bytes str).drop (i + 1) := by
  -- each character before the NUL is not the NUL
  induction i generalizing str with
  | zero =>
    rw [cstr_bytes h.lt] at hi ⊢
    split at hi
    · exact absurd hi (by simp)
    · next h_char =>
      rw [if_neg h_char]
      exact ⟨h.succ h_char, rfl⟩
  | succ i ih =>
    rw [cstr_bytes h.lt] at hi ⊢
    split at hi
    · exact absurd hi (by simp)
    · next h_char =>
      rw [if_neg h_char, List.drop_succ_cons, List.drop_succ_cons]
      have h_rest := ih (h.succ h_char) (Nat.lt_of_succ_lt_succ hi)
      rw [show str + 1 + i = str + (i + 1) by omega] at h_rest
      exact h_rest

theorem reads_strlen {fuel : ℕ} (h : Ended p r str) (h_fuel : r < str + fuel) :
    Reads (strlen fuel str) p (cstr p.bytes str).length := by
  induction fuel generalizing str with
  | zero => exact absurd h.le (by omega)
  | succ fuel ih =>
    rw [cstr_bytes h.lt]
    refine (reads_fetch h.lt).then ?_
    split
    · exact reads_pure
    · next h_char => exact (ih (h.succ h_char) (by omega)).then reads_pure

theorem reads_strcmpEq {name : List UInt8} (h_name : 0 ∉ name) (h : Ended p r str) :
    Reads (strcmpEq name str) p (decide (cstr p.bytes str = name)) := by
  induction name generalizing str with
  | nil =>
    -- the name is over: the text has to be over too
    refine (reads_fetch h.lt).then ?_
    rw [cstr_bytes h.lt]
    split
    · next h_nul => simp [h_nul]
    · next h_char => simp [h_char]
  | cons c name ih =>
    obtain ⟨h_c, h_name⟩ := List.ne_and_not_mem_of_not_mem_cons h_name
    rw [cstr_bytes h.lt]
    refine (reads_fetch h.lt).then ?_
    split
    · next h_eq =>
      -- the same character, which is not the NUL, since the name has none
      have h_char : p str ≠ 0 := h_eq ▸ h_c.symm
      rw [if_neg h_char, h_eq]
      simp only [List.cons.injEq, true_and]
      exact ih h_name (h.succ h_char)
    · next h_ne =>
      split
      · simp
      · simp [h_ne]

/-- Both characters are looked at only if they are there. -/
theorem reads_atoi2digAt (h : Ended p r str) {i : ℕ} (hi : i + 1 < (cstr p.bytes str).length) :
    Reads (atoi2digAt (str + i)) p (atoi2dig ((cstr p.bytes str).drop i)) := by
  obtain ⟨h_first, h_drop⟩ := h.char (Nat.lt_of_succ_lt hi)
  obtain ⟨h_second, h_drop'⟩ := h.char hi
  rw [h_drop, h_drop', atoi2dig]
  -- the second character is loaded only behind a digit
  refine (reads_fetch (Nat.lt_of_succ_lt h_first.lt)).then ?_
  split
  · next h_digit =>
    rw [Bool.not_eq_true'] at h_digit
    rw [if_neg fun h => absurd h.1 (by simp [h_digit])]
    exact reads_pure
  · next h_digit =>
    refine (reads_fetch h_first.lt).then ?_
    rw [Nat.add_assoc]
    split
    · next h_digit' =>
      rw [Bool.not_eq_true'] at h_digit'
      rw [if_neg fun h => absurd h.2 (by simp [h_digit'])]
      exact reads_pure
    · next h_digit' =>
      rw [Bool.not_eq_true, Bool.not_eq_false'] at h_digit h_digit'
      rw [if_pos ⟨h_digit, h_digit'⟩]
      exact reads_pure

theorem reads_atoiDecimalAt {ret fuel : ℕ} (h : Ended p r str) (h_fuel : r < str + fuel) :
    Reads (atoiDecimalAt ret fuel str) p (atoiDecimalFrom ret (cstr p.bytes str)) := by
  induction fuel generalizing str ret with
  | zero => exact absurd h.le (by omega)
  | succ fuel ih =>
    rw [cstr_bytes h.lt]
    refine (reads_fetch h.lt).then ?_
    split
    · exact reads_pure
    · next h_char =>
      rw [atoiDecimalFrom]
      split
      · exact reads_pure
      · split
        · exact reads_pure
        · exact ih (h.succ h_char) (by omega)

/-- The loop stops at the delimiter or at the NUL. -/
theorem strtokLoop_spec {fuel : ℕ} (delim : UInt8) (h : Ended p r str) (h_fuel : r < str + fuel) :
    (strtokLoop delim fuel str).Within pbufSize p fun last p' =>
      match findDelim delim (p.bytes.drop str) with
      | some k => str + k < r ∧ last = some (str + k + 1) ∧ p' = Function.update p (str + k) 0
      | none => last = none ∧ p' = p := by
  induction fuel generalizing str with
  -- the NUL at `r` is not behind the last position that is looked at
  | zero => exact absurd h.le (by omega)
  | succ fuel ih =>
    rw [Pbuf.drop_bytes h.lt, findDelim]
    refine (reads_fetch h.lt).then ?_
    -- the NUL ends the loop with nothing written
    split
    · exact within_pure.mpr ⟨rfl, rfl⟩
    · next h_char =>
      -- the delimiter is overwritten; any other character is passed over
      split
      · exact within_bind.mpr <| within_put.mpr
          ⟨h.lt, within_pure.mpr ⟨(h.succ h_char).le, rfl, rfl⟩⟩
      · refine (ih (h.succ h_char) (by omega)).mono fun last p' h_post => ?_
        cases h_find : findDelim delim (p.bytes.drop (str + 1)) with
        | none =>
          rw [h_find] at h_post
          exact h_post
        | some k =>
          rw [h_find] at h_post
          rw [Option.map_some]
          dsimp only at h_post ⊢
          rw [show str + (k + 1) = str + 1 + k by omega]
          exact h_post

end Texts


/-! ### NMEA -/

/-- `strtok_s` on the buffer `p`, with a NUL at `r` that it does not pass. -/
structure OnBuffer (p : Pbuf) (r : ℕ) (t : Strtok) : Prop where
  mem : Strtok.Of p t
  nul : p.cut t.zeroed.reverse r = 0
  room : r < pbufSize
  last : ∀ q, t.last = some q → q ≤ r

/-- The buffer as `strtok_s` has left it. -/
def Pbuf.leftBy (p : Pbuf) (t : Strtok) : Pbuf := p.cut t.zeroed.reverse

/-- **One call of `strtok_s`.** -/
theorem strtok_spec {p : Pbuf} {r : ℕ} {t : Strtok} (h : OnBuffer p r t) (str : Option ℕ)
    (h_str : ∀ q, str = some q → q ≤ r) (delim : UInt8) :
    (strtok str t.last delim).Within pbufSize (p.leftBy t) fun res p' =>
      res = ((strtokS t str delim).1, (strtokS t str delim).2.last) ∧
        p' = p.leftBy (strtokS t str delim).2 ∧ OnBuffer p r (strtokS t str delim).2 ∧
        ∀ q, res.1 = some q → q ≤ r := by
  have h_of := h.mem.strtokS str delim
  have h_mem : t.mem = (p.leftBy t).bytes := h.mem.symm
  unfold strtok
  unfold strtokS at h_of ⊢
  cases h_or : str.or t.last with
  | none =>
    -- there is nothing to go on with
    exact within_pure.mpr ⟨rfl, rfl, h, fun q h_q => absurd h_q (by simp)⟩
  | some q =>
    -- the piece begins at the argument or behind the last delimiter, both before the NUL
    have h_le : q ≤ r := by
      cases str with
      | none => exact h.last q h_or
      | some q' => exact h_str q h_or
    have h_ended : Ended (p.leftBy t) r q := ⟨h.nul, h.room, h_le⟩
    have h_room := h.room
    rw [h_or] at h_of
    dsimp only at h_of ⊢
    -- the loop stays between there and the NUL
    refine within_bind.mpr <| (strtokLoop_spec delim h_ended (by omega)).mono ?_
    intro last p' h_post
    rw [← h_mem] at h_post
    refine within_pure.mpr ?_
    cases h_find : findDelim delim (t.mem.drop q) with
    | none =>
      rw [h_find] at h_post h_of
      obtain ⟨rfl, rfl⟩ := h_post
      exact ⟨rfl, rfl, ⟨h_of, h.nul, h.room, fun q h_q => absurd h_q (by simp)⟩,
        fun q' h_q => Option.some.inj h_q ▸ h_le⟩
    | some k =>
      rw [h_find] at h_post h_of
      obtain ⟨h_lt, rfl, rfl⟩ := h_post
      -- the buffer as it is left has one more zero, in front of the NUL
      have h_cut : p.leftBy ⟨t.mem.set (q + k) 0, some (q + k + 1), (q + k) :: t.zeroed⟩ =
          Function.update (p.leftBy t) (q + k) 0 := by
        unfold Pbuf.leftBy Pbuf.cut Pbuf.store
        rw [List.reverse_cons, List.map_append, List.foldl_append]
        rfl
      refine ⟨rfl, h_cut.symm, ⟨h_of, ?_, h.room, ?_⟩, fun q' h_q => Option.some.inj h_q ▸ h_le⟩
      · refine (congrFun h_cut r).trans ?_
        rw [Function.update_of_ne (by omega)]
        exact h.nul
      · intro q' h_q
        obtain rfl := Option.some.inj h_q
        omega

/-- `if ((ptr = strtok_s(NULL, ',')) == NULL) { return FEED_COMPLETE; }`. -/
def nextPiece (last : Option ℕ) (k : ℕ → Option ℕ → Access UInt8 (List Call)) :
    Access UInt8 (List Call) := do
  match ← strtok none last 0x2C with
  | (none, _) => return []
  | (some ptr, last) => k ptr last

/-- `if (strlen(ptr) < 6) { return FEED_COMPLETE; }`. -/
def atLeastSix (ptr : ℕ) (k : Access UInt8 (List Call)) : Access UInt8 (List Call) := do
  if (← strlen pbufSize ptr) < 6 then return [] else k

/-- The branch for `GPZDA`. -/
def gpzdaAt (last : Option ℕ) : Access UInt8 (List Call) :=
  nextPiece last fun ptr last => atLeastSix ptr do
  let hour ← atoi2digAt ptr
  let minute ← atoi2digAt (ptr + 2)
  let second ← atoi2digAt (ptr + 4)
  nextPiece last fun ptr last => do
  let day ← atoiDecimalAt 0 pbufSize ptr
  nextPiece last fun ptr last => do
  let month ← atoiDecimalAt 0 pbufSize ptr
  nextPiece last fun ptr _ => do
  let year ← atoiDecimalAt 0 pbufSize ptr
  return [.setUtc (year % 65536) (month % 256) (day % 256) hour minute second]

/-- The branch for `GPRMC`. -/
def gprmcAt (last : Option ℕ) : Access UInt8 (List Call) :=
  nextPiece last fun ptr last => atLeastSix ptr do
  let hour ← atoi2digAt ptr
  let minute ← atoi2digAt (ptr + 2)
  let second ← atoi2digAt (ptr + 4)
  -- skip some stuff
  nextPiece last fun _ last => nextPiece last fun _ last => nextPiece last fun _ last =>
  nextPiece last fun _ last => nextPiece last fun _ last => nextPiece last fun _ last =>
  nextPiece last fun _ last =>
  nextPiece last fun ptr _ => atLeastSix ptr do
  let day ← atoi2digAt ptr
  let month ← atoi2digAt (ptr + 2)
  let year ← atoi2digAt (ptr + 4)
  return [.setUtc (fullYear year) month day hour minute second]

/-- The branch for `PGRMF`. -/
def pgrmfAt (last : Option ℕ) : Access UInt8 (List Call) :=
  -- skip some stuff
  nextPiece last fun _ last => nextPiece last fun _ last =>
  nextPiece last fun ptr last => atLeastSix ptr do
  let day ← atoi2digAt ptr
  let month ← atoi2digAt (ptr + 2)
  let year ← atoi2digAt (ptr + 4)
  nextPiece last fun ptr _ => atLeastSix ptr do
  let hour ← atoi2digAt ptr
  let minute ← atoi2digAt (ptr + 2)
  let second ← atoi2digAt (ptr + 4)
  return [.setUtc (fullYear year) month day hour minute second]

/-- The program does on the buffer what the reader does on the pieces. -/
def Follows (p : Pbuf) (c : Access UInt8 (List Call)) (reader : Reader Call) (t : Strtok) : Prop :=
  c.Within pbufSize (p.leftBy t) fun calls p' =>
    calls = (reader.run 0x2C t).1.toList ∧ p' = p.leftBy (reader.run 0x2C t).2

section Readers

variable {p : Pbuf} {r : ℕ} {t : Strtok}

theorem follows_ret {call : Call} : Follows p (pure [call]) (.ret call) t :=
  within_pure.mpr ⟨rfl, rfl⟩

/-- The next piece ends before the NUL, and the program goes on from there. -/
theorem follows_next (h : OnBuffer p r t) {k : ℕ → Option ℕ → Access UInt8 (List Call)}
    {k' : List UInt8 → Reader Call}
    (h_next : ∀ ptr t', OnBuffer p r t' → Ended (p.leftBy t') r ptr →
      Follows p (k ptr t'.last) (k' (cstr (p.leftBy t').bytes ptr)) t') :
    Follows p (nextPiece t.last k) (.next k') t := by
  unfold Follows nextPiece Reader.run
  -- the next piece is looked for, and the terminator is stored
  refine within_bind.mpr <| (strtok_spec h none (by simp) 0x2C).mono ?_
  rintro res p' ⟨rfl, rfl, h_on, h_le⟩
  cases h_call : strtokS t none 0x2C with
  | mk first t' =>
    rw [h_call] at h_on h_le
    cases first with
    -- no piece is left, so the reader ends without a call
    | none => exact within_pure.mpr ⟨rfl, rfl⟩
    | some ptr =>
      have h_mem : t'.mem = (p.leftBy t').bytes := h_on.mem.symm
      dsimp only
      rw [h_mem]
      exact h_next ptr t' h_on ⟨h_on.nul, h_on.room, h_le ptr rfl⟩

theorem follows_atLeastSix {ptr : ℕ} (h : Ended (p.leftBy t) r ptr)
    {c : Access UInt8 (List Call)} {reader : Reader Call}
    (h_six : 6 ≤ (cstr (p.leftBy t).bytes ptr).length → Follows p c reader t) :
    Follows p (atLeastSix ptr c) (sixChars (cstr (p.leftBy t).bytes ptr) reader) t := by
  have h_room := h.room
  unfold atLeastSix sixChars
  refine (reads_strlen h (by omega)).then ?_
  split
  · exact within_pure.mpr ⟨rfl, rfl⟩
  · next h_long => exact h_six (not_lt.mp h_long)

/-- Six characters are three numbers. -/
theorem follows_six {ptr : ℕ} (h : Ended (p.leftBy t) r ptr)
    (h_six : 6 ≤ (cstr (p.leftBy t).bytes ptr).length)
    {k : ℕ → ℕ → ℕ → Access UInt8 (List Call)} {reader : Reader Call}
    (h_next : Follows p (k (atoi2dig (cstr (p.leftBy t).bytes ptr))
      (atoi2dig ((cstr (p.leftBy t).bytes ptr).drop 2))
      (atoi2dig ((cstr (p.leftBy t).bytes ptr).drop 4))) reader t) :
    Follows p (do
      let a ← atoi2digAt ptr
      let b ← atoi2digAt (ptr + 2)
      let c ← atoi2digAt (ptr + 4)
      k a b c) reader t :=
  (reads_atoi2digAt (i := 0) h (by omega)).then <|
    (reads_atoi2digAt (i := 2) h (by omega)).then <|
    (reads_atoi2digAt (i := 4) h (by omega)).then h_next

theorem follows_decimal {ptr : ℕ} (h : Ended (p.leftBy t) r ptr)
    {k : ℕ → Access UInt8 (List Call)} {reader : Reader Call}
    (h_next : Follows p (k (atoiDecimal (cstr (p.leftBy t).bytes ptr))) reader t) :
    Follows p (do k (← atoiDecimalAt 0 pbufSize ptr)) reader t := by
  have h_room := h.room
  exact (reads_atoiDecimalAt h (by omega)).then h_next

theorem follows_gpzda (h : OnBuffer p r t) : Follows p (gpzdaAt t.last) gpzda t := by
  refine follows_next h fun ptr t h h_ptr => follows_atLeastSix h_ptr fun h_six =>
    follows_six h_ptr h_six ?_
  refine follows_next h fun ptr t h h_ptr => follows_decimal h_ptr ?_
  refine follows_next h fun ptr t h h_ptr => follows_decimal h_ptr ?_
  exact follows_next h fun ptr t h h_ptr => follows_decimal h_ptr follows_ret

theorem follows_gprmc (h : OnBuffer p r t) : Follows p (gprmcAt t.last) gprmc t := by
  refine follows_next h fun ptr t h h_ptr => follows_atLeastSix h_ptr fun h_six =>
    follows_six h_ptr h_six ?_
  refine follows_next h fun _ t h _ => follows_next h fun _ t h _ => follows_next h fun _ t h _ =>
    follows_next h fun _ t h _ => follows_next h fun _ t h _ => follows_next h fun _ t h _ =>
    follows_next h fun _ t h _ => ?_
  exact follows_next h fun ptr t h h_ptr => follows_atLeastSix h_ptr fun h_six =>
    follows_six h_ptr h_six follows_ret

theorem follows_pgrmf (h : OnBuffer p r t) : Follows p (pgrmfAt t.last) pgrmf t := by
  refine follows_next h fun _ t h _ => follows_next h fun _ t h _ => ?_
  refine follows_next h fun ptr t h h_ptr => follows_atLeastSix h_ptr fun h_six =>
    follows_six h_ptr h_six ?_
  exact follows_next h fun ptr t h h_ptr => follows_atLeastSix h_ptr fun h_six =>
    follows_six h_ptr h_six follows_ret

/-- The branch of a sentence type. -/
def Stype.branch : Stype → Option ℕ → Access UInt8 (List Call)
  | none, _ => pure []
  | gpzda, last => gpzdaAt last
  | gprmc, last => gprmcAt last
  | pgrmf, last => pgrmfAt last

/-- The chain of comparisons, each with its `use_sentence`. -/
def sentenceAt (n : Nmea) (tick ptr : ℕ) (last : Option ℕ) :
    List Stype → Access UInt8 (Result Nmea)
  | [] => pure { st := n, rc := .feedComplete }
  | type :: types => do
    if ← strcmpEq type.name ptr then
      match useSentence n tick type with
      | (true, n) => return { st := n, rc := .feedComplete, calls := ← type.branch last }
      | (false, n) => sentenceAt n tick ptr last types
    else sentenceAt n tick ptr last types

theorem Stype.ofName_iff {s : List UInt8} {type : Stype} :
    ofName s = some type ↔ type ≠ none ∧ s = type.name := by
  unfold ofName
  split_ifs with h_zda h_rmc h_rmf
  · subst h_zda; cases type <;> simp [name]
  · subst h_rmc; cases type <;> simp [name]
  · subst h_rmf; cases type <;> simp [name]
  · cases type <;> simp [name, h_zda, h_rmc, h_rmf]

theorem Stype.nul_notMem_name (type : Stype) : 0 ∉ type.name := by cases type <;> decide

/-- A sentence that is not in use leaves the preference alone. -/
theorem useSentence_false {n n' : Nmea} {tick : ℕ} {type : Stype}
    (h : useSentence n tick type = (false, n')) : n' = n := by
  unfold useSentence at h
  split at h
  · exact (congrArg Prod.snd h).symm
  · exact absurd (congrArg Prod.fst h) (by simp)

theorem useSentence_true {n n' : Nmea} {tick : ℕ} {type : Stype}
    (h : useSentence n tick type = (true, n')) :
    n' = { n with seenType := type, seenTime := tick } := by
  unfold useSentence at h
  split at h
  · exact absurd (congrArg Prod.fst h) (by simp)
  · exact (congrArg Prod.snd h).symm

/-- None of the names is that of the sentence. -/
theorem reads_sentenceAt {n : Nmea} {tick ptr : ℕ} {last : Option ℕ} {types : List Stype}
    (h : Ended p r ptr) (h_not : ∀ type ∈ types, cstr p.bytes ptr ≠ type.name) :
    Reads (sentenceAt n tick ptr last types) p { st := n, rc := .feedComplete } := by
  induction types with
  | nil => exact reads_pure
  | cons type types ih =>
    obtain ⟨h_type, h_types⟩ := List.forall_mem_cons.mp h_not
    refine (reads_strcmpEq type.nul_notMem_name h).then ?_
    rw [decide_eq_false h_type, if_neg (by simp)]
    exact ih h_types

theorem follows_branch {type : Stype} (h_type : type ≠ .none) (h : OnBuffer p r t) :
    Follows p (type.branch t.last) type.reader t := by
  cases type with
  | none => exact absurd rfl h_type
  | gpzda => exact follows_gpzda h
  | gprmc => exact follows_gprmc h
  | pgrmf => exact follows_pgrmf h

/-- The sentence has one of the names. -/
theorem sentenceAt_spec {n : Nmea} {tick ptr : ℕ} {types : List Stype} (h : OnBuffer p r t)
    (h_ptr : Ended (p.leftBy t) r ptr) (h_nodup : types.Nodup) (type : Stype) (h_mem : type ∈ types)
    (h_types : ∀ type ∈ types, type ≠ .none)
    (h_name : cstr (p.leftBy t).bytes ptr = type.name) :
    (sentenceAt n tick ptr t.last types).Within pbufSize (p.leftBy t) fun res p' =>
      match useSentence n tick type with
      | (true, n) => res = { st := n, rc := .feedComplete,
                             calls := (type.reader.run 0x2C t).1.toList } ∧
          p' = p.leftBy (type.reader.run 0x2C t).2
      | (false, n) => res = { st := n, rc := .feedComplete } ∧ p' = p.leftBy t := by
  have h_ne : ∀ other ∈ types, other ≠ type → cstr (p.leftBy t).bytes ptr ≠ other.name := by
    intro other h_other h_diff h_eq
    have h_first := Stype.ofName_iff.mpr ⟨h_types other h_other, h_eq⟩
    rw [Stype.ofName_iff.mpr ⟨h_types type h_mem, h_name⟩] at h_first
    exact h_diff (Option.some.inj h_first).symm
  induction types with
  | nil => exact absurd h_mem List.not_mem_nil
  | cons first types ih =>
    obtain ⟨h_new, h_nodup⟩ := List.nodup_cons.mp h_nodup
    refine (reads_strcmpEq first.nul_notMem_name h_ptr).then ?_
    by_cases h_first : first = type
    · subst h_first
      rw [decide_eq_true h_name, if_pos rfl]
      cases h_use : useSentence n tick first with
      | mk used n' =>
        cases used with
        | true =>
          refine within_bind.mpr <| (follows_branch (h_types first h_mem) h).mono ?_
          rintro calls p' ⟨rfl, rfl⟩
          exact within_pure.mpr ⟨rfl, rfl⟩
        | false =>
          -- the other names differ
          exact reads_sentenceAt h_ptr fun other h_other =>
            h_ne other (List.mem_cons_of_mem _ h_other) fun h_eq => h_new (h_eq ▸ h_other)
    · rw [decide_eq_false (h_ne first List.mem_cons_self h_first), if_neg (by simp)]
      exact ih h_nodup ((List.mem_cons.mp h_mem).resolve_left fun h_eq => h_first h_eq.symm)
        (fun other h_other => h_types other (List.mem_cons_of_mem _ h_other))
        fun other h_other => h_ne other (List.mem_cons_of_mem _ h_other)

end Readers

/-- The second half of `nmea_feed`. -/
def Nmea.finish (n : Nmea) (tick : ℕ) : Access UInt8 (Result Nmea) := do
  put n.rxCount 0
  match ← strtok (some 0) none 0x2C with
  | (none, _) => return { st := n, rc := .feedComplete }
  | (some ptr, last) => sentenceAt n tick ptr last [.gpzda, .gprmc, .pgrmf]

theorem Nmea.runs_finish {n : Nmea} (h : n.rxCount < pbufSize) (p : Pbuf) (tick : ℕ) :
    Runs (n.finish tick) p (nmeaSentence n p tick) := by
  -- the sentence is ended at `rxCount` before the first call
  have h_on : OnBuffer (p.store [(n.rxCount, 0)]) n.rxCount
      ⟨(p.store [(n.rxCount, 0)]).bytes, none, []⟩ :=
    ⟨rfl, Function.update_self _ _ _, h, fun q h_q => absurd h_q (by simp)⟩
  unfold Runs finish nmeaSentence
  refine within_bind.mpr <| within_put.mpr ⟨h, within_bind.mpr <|
    (strtok_spec h_on (some 0) (by simp) 0x2C).mono ?_⟩
  rintro res p' ⟨rfl, rfl, h_on, h_le⟩
  dsimp only
  cases h_call : strtokS ⟨(p.store [(n.rxCount, 0)]).bytes, none, []⟩ (some 0) 0x2C with
  | mk first t =>
    rw [h_call] at h_on h_le
    cases first with
    | none => exact within_pure.mpr ⟨rfl, rfl⟩
    | some ptr =>
      have h_mem : t.mem = ((p.store [(n.rxCount, 0)]).leftBy t).bytes := h_on.mem.symm
      have h_ptr : Ended ((p.store [(n.rxCount, 0)]).leftBy t) n.rxCount ptr :=
        ⟨h_on.nul, h_on.room, h_le ptr rfl⟩
      dsimp only
      rw [h_mem]
      cases h_name : Stype.ofName (cstr ((p.store [(n.rxCount, 0)]).leftBy t).bytes ptr) with
      | none =>
        -- a name of no known type: none of the comparisons succeeds
        refine (reads_sentenceAt h_ptr fun type h_type h_eq => ?_).mono fun _ _ h_post => h_post
        have h_some := Stype.ofName_iff.mpr ⟨?_, h_eq⟩
        · rw [h_name] at h_some
          exact absurd h_some (by simp)
        · rintro rfl
          exact absurd h_type (by decide)
      | some type =>
        -- the comparisons before the one that succeeds are of other types
        obtain ⟨h_type, h_eq⟩ := Stype.ofName_iff.mp h_name
        refine (sentenceAt_spec h_on h_ptr (by decide) type ?_ (by decide) h_eq).mono ?_
        · cases type with
          | none => exact absurd rfl h_type
          | gpzda | gprmc | pgrmf => decide
        · intro res p' h_post
          dsimp only
          -- `use_sentence` decides whether the fields are read at all
          cases h_use : useSentence n tick type with
          | mk used n' =>
            rw [h_use] at h_post
            cases used with
            | true =>
              obtain rfl := useSentence_true h_use
              exact h_post
            | false =>
              obtain rfl := useSentence_false h_use
              exact h_post

/-- `nmea_feed` at the given tick. -/
def Nmea.feed (n : Nmea) (tick : ℕ) (val : UInt8) : Access UInt8 (Result Nmea) :=
  if val = 0x24 then
    pure { st := { n with rxState := .copying, rxCount := 0, rxCksum := 0 }, rc := .feedContinue }
  else
    match n.rxState with
    | .waiting => pure { st := n, rc := .feedUnknown }
    | .copying =>
      if val = 0x2A then pure { st := { n with rxState := .checksum1 }, rc := .feedContinue }
      else if val = 0x0D ∨ val = 0x0A then n.finish tick
      else if n.rxCount ≥ pbufSize - 1 then
        pure { st := { n with rxState := .waiting }, rc := .feedUnknown }
      else do
        put n.rxCount val
        return { st := { n with rxCount := (n.rxCount + 1) % 256, rxCksum := n.rxCksum ^^^ val }
                 rc := .feedContinue }
    | .checksum1 =>
      pure { st := { n with rxCksum := n.rxCksum ^^^ (parseHex val <<< 4), rxState := .checksum2 }
             rc := .feedContinue }
    | .checksum2 =>
      let n := { n with rxCksum := n.rxCksum ^^^ parseHex val, rxState := .waiting }
      if n.rxCksum ≠ 0 then pure { st := n, rc := .feedUnknown } else n.finish tick

theorem Nmea.runs_feed {n : Nmea} (h : n.rxCount < pbufSize) (p : Pbuf) (tick : ℕ) (val : UInt8) :
    Runs (n.feed tick val) p (nmeaFeed n p tick val) := by
  unfold feed nmeaFeed
  split
  · exact runs_pure rfl rfl rfl
  · cases n.rxState with
    | waiting | checksum1 => exact runs_pure rfl rfl rfl
    | copying =>
      dsimp only
      split
      · exact runs_pure rfl rfl rfl
      · split
        · exact runs_finish h p tick
        · split
          · exact runs_pure rfl rfl rfl
          · exact runs_put h rfl rfl reads_pure
    | checksum2 =>
      dsimp only
      split
      · exact runs_pure rfl rfl rfl
      · -- the checksum and the state have no part in the sentence
        refine runs_finish ?_ p tick
        exact h

end Gps
end Laureline
