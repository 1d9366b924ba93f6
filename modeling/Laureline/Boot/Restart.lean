import Laureline.Boot.HexText
import Laureline.Boot.Bootloader

/-!
# A restart

`bootloader_start` calls `ihex_init`, which should make a new load independent of what was fed
before. It leaves `ihex_base` as it is. So two loads of one text are compared here, after two
histories.

* `Alike` — two parsers that have read the same part of a line;
* `ihexFeed_alike` — with one base, or without data, they go on alike;
* `ihexFeed_differs` — the first data record shows the base;
* `restart_iff` — when a restart makes the histories equal.
-/

namespace Laureline

namespace Ihex

/-! ### The first data record -/

/-- The first record is a data record. Start address records do not count. -/
def dataFirst : List (List UInt8) → Bool
  | [] => false
  | line :: more =>
    match taken line with
    | some (.data _ _) => true
    | some .start => dataFirst more
    | _ => false

section Results

variable {σ : Type*} (callback : σ → ℕ → List UInt8 → ℕ × σ)

/-- Calls of `ihex_feed` for as long as it goes on, with what each of them returns. -/
def feedResults : Parser → σ → List (List UInt8) → List ℕ × σ
  | _, s, [] => ([], s)
  | p, s, inbuf :: inbufs =>
    let r := ihexFeed callback p s inbuf
    if r.1 = ihexContinue then
      let rs := feedResults r.2.1 r.2.2 inbufs
      (r.1 :: rs.1, rs.2)
    else ([r.1], r.2.2)

theorem feedResults_snd (p : Parser) (s : σ) (inbufs : List (List UInt8)) :
    (feedResults callback p s inbufs).2 = (ihexFeed callback p s inbufs.flatten).2.2 := by
  induction inbufs generalizing p s with
  | nil => rfl
  | cons inbuf inbufs ih =>
    rw [List.flatten_cons, ihexFeed_append, feedResults]
    dsimp only
    split_ifs
    · exact ih _ _
    · rfl

end Results

/-- After a byte that no record has, there is no data. -/
theorem dataFirst_of_taken {line : List UInt8} (h : line ≠ [])
    (h_none : ∀ more, taken (line ++ more) = none) (text : List UInt8) :
    dataFirst (lines line text) = false := by
  rcases lines_cases h text with h_nil | ⟨more, rest, h_more⟩
  · rw [h_nil]
    rfl
  · rw [h_more, dataFirst, h_none more]

/-! ### Two parsers in one line -/

/-- The parsers have read the same part of a line. -/
structure Alike (p q : Parser) (line : List UInt8) : Prop where
  left : Reads p line
  right : Reads q line
  left_fits : p.InBuf
  right_fits : q.InBuf

theorem Alike.of_start {p q : Parser} (h_p : p.state = .start) (h_q : q.state = .start) :
    Alike p q [] :=
  ⟨.start h_p, .start h_q, .of_start h_p, .of_start h_q⟩

/-- The bases are equal as the code sees them. -/
def SameBase (p q : Parser) : Prop := p.base % 2 ^ 32 = q.base % 2 ^ 32

theorem SameBase.address {p q : Parser} (h : SameBase p q) (addr : ℕ) :
    (addr + p.base) % 2 ^ 32 = (addr + q.base) % 2 ^ 32 := by
  unfold SameBase at h
  omega

theorem SameBase.of_address {p q : Parser} {addr : ℕ}
    (h : (addr + p.base) % 2 ^ 32 = (addr + q.base) % 2 ^ 32) : SameBase p q := by
  unfold SameBase
  omega

section Reading

variable {σ : Type*} {callback : σ → ℕ → List UInt8 → ℕ × σ} {p q : Parser} {s : σ}
  {line bytes : List UInt8} {dat : UInt8}

/-- The part of the line says where in it the parser is, and what it holds. -/
theorem Reads.alike (h_p : Reads p line) (h_q : Reads q line) :
    p.state = q.state ∧ (p.state ≠ .start → ∃ bytes, Held p bytes ∧ Held q bytes) := by
  cases h_p with
  | start h_state =>
    cases h_q with
    | start h_state' => exact ⟨h_state.trans h_state'.symm, fun h => absurd h_state h⟩
  | copy1 digits bytes h_state h_held h_digits h_even =>
    generalize h_line : 58 :: digits = line at h_q
    cases h_q with
    | start => exact absurd h_line (by simp)
    | copy1 digits' bytes' h_state' h_held' h_digits' h_even' =>
      obtain rfl := (List.cons.inj h_line).2
      obtain rfl := Option.some.inj (h_digits.symm.trans h_digits')
      exact ⟨h_state.trans h_state'.symm, fun _ => ⟨bytes, h_held, h_held'⟩⟩
    | copy2 digits' bytes' hi v h_state' h_held' h_digits' h_even' =>
      -- one part has an even number of digits and the other an odd one
      have h_length := congrArg List.length (List.cons.inj h_line).2
      rw [List.length_append, List.length_singleton] at h_length
      omega
  | copy2 digits bytes hi v h_state h_held h_digits h_even =>
    generalize h_line : 58 :: (digits ++ [hi]) = line at h_q
    cases h_q with
    | start => exact absurd h_line (by simp)
    | copy1 digits' bytes' h_state' h_held' h_digits' h_even' =>
      have h_length := congrArg List.length (List.cons.inj h_line).2
      rw [List.length_append, List.length_singleton] at h_length
      omega
    | copy2 digits' bytes' hi' v' h_state' h_held' h_digits' h_even' =>
      obtain ⟨rfl, -⟩ := List.append_inj' (List.cons.inj h_line).2 rfl
      obtain rfl := Option.some.inj (h_digits.symm.trans h_digits')
      exact ⟨h_state.trans h_state'.symm, fun _ => ⟨bytes, h_held, h_held'⟩⟩

theorem Held.unique {bytes' : List UInt8} (h : Held p bytes) (h' : Held p bytes') :
    bytes = bytes' := by
  have h_length := h.count.symm.trans h'.count
  exact List.ext_getElem h_length fun i h_i h_i' => (h.buf i h_i).symm.trans (h'.buf i h_i')

variable (callback s) in
/-- Lines without a record are refused for the same reason. -/
theorem Held.endRecord_rv (h_p : Held p bytes) (h_q : Held q bytes)
    (h_none : Record.ofBytes bytes = none) :
    (endRecord callback p s).1 = (endRecord callback q s).1 := by
  by_cases h_short : bytes.length < 5
  · simp only [endRecord, h_p.count, h_q.count, h_short, if_true]
  obtain ⟨n, hi, lo, rtype, rest, rfl⟩ := exists_header h_short
  have h_buf (i : ℕ) (h_i : i < 4) : p.buf i = q.buf i := by
    have h_lt : i < (n :: hi :: lo :: rtype :: rest).length := by
      simp only [List.length_cons]
      omega
    rw [h_p.buf i h_lt, h_q.buf i h_lt]
  have h_n : q.buf 0 = n := h_q.buf 0 (by simp)
  have h_type : q.buf 3 = rtype := h_q.buf 3 (by simp)
  simp only [endRecord, h_p.count, h_q.count, h_short, if_false, h_p.cksum, h_q.cksum,
    h_buf 0 (by decide)]
  split_ifs with h_count h_sum
  · rfl
  · rfl
  have h_rest : rest.length = n.toNat + 1 := by
    rw [not_not, h_n] at h_count
    simp only [List.length_cons] at h_count
    omega
  simp only [Record.ofBytes, h_rest, not_not.mp h_sum, and_self, if_true] at h_none
  rw [← h_type] at h_none
  -- the types that have a record whatever the data are excluded by `h_none`
  simp only [switchType, h_buf 0 (by decide), h_buf 3 (by decide)]
  generalize (q.buf 3).toNat = k at h_none ⊢
  rcases k with _ | _ | _ | _ | _ | _ | k
  · exact absurd h_none (by simp [Record.ofType])
  · rfl
  · split_ifs <;> rfl
  · rfl
  · split_ifs <;> rfl
  · rfl
  · rfl

variable (callback s) in
/-- A byte of a line. The parsers both go on, or both stop. -/
theorem Alike.byte (h : Alike p q line) (h_dat : isEol dat = false) :
    (ihexByte callback q s dat).1 = (ihexByte callback p s dat).1 ∧
      ((ihexByte callback p s dat).1 = 0 →
        Alike (ihexByte callback p s dat).2.1 (ihexByte callback q s dat).2.1 (line ++ [dat])) := by
  -- the code depends on the state, the count and the digit, which the two have in common
  have h_rv : (ihexByte callback q s dat).1 = (ihexByte callback p s dat).1 := by
    obtain ⟨h_state, h_held⟩ := h.left.alike h.right
    unfold ihexByte
    simp only [h_dat, Bool.false_eq_true, if_false, ← h_state]
    by_cases h_start : p.state = .start
    · simp only [h_start, if_true]
      split_ifs <;> rfl
    · obtain ⟨bytes, h_p, h_q⟩ := h_held h_start
      simp only [h_start, if_false, h_p.count, h_q.count]
      cases nybble dat with
      | none => rfl
      | some v => split_ifs <;> rfl
  refine ⟨h_rv, fun h_zero => ?_⟩
  have h_zero' := h_rv.trans h_zero
  exact ⟨(ihexByte_text h.left h_dat h_zero).1, (ihexByte_text h.right h_dat h_zero').1,
    h.left_fits.next, h.right_fits.next⟩

variable (callback s) in
/-- The end of a line. The parsers both do what its record says, or both refuse it. -/
theorem Alike.endOfLine (h : Alike p q line) (h_ne : line ≠ []) (h_dat : isEol dat = true) :
    (∃ record, taken line = some record ∧ ∀ r ∈ [p, q],
      ihexByte callback r s dat =
        let e := Record.exec callback r.base s record
        (e.1, { r with state := .start, base := e.2.1 }, e.2.2)) ∨
    taken line = none ∧ ∃ rv ≠ 0, ∀ r ∈ [p, q],
      ihexByte callback r s dat = (rv, { r with state := .start }, s) := by
  obtain ⟨h_state, bytes, h_p, h_decode⟩ := h.left.decode h_ne
  -- both parsers hold the bytes of the line, whatever their bases are
  obtain ⟨h_same, h_both⟩ := h.left.alike h.right
  obtain ⟨bytes', h_p', h_q⟩ := h_both h_state
  obtain rfl := h_p.unique h_p'
  have h_state' : q.state ≠ .start := by rwa [← h_same]
  rw [taken_of_reads h.left h.left_fits, h_decode]
  cases h_record : Record.ofBytes bytes with
  | some record =>
    refine Or.inl ⟨record, rfl, fun r h_r => ?_⟩
    rcases List.mem_pair.mp h_r with rfl | rfl
    · exact ihexByte_end h_dat h_state h_p h_record
    · exact ihexByte_end h_dat h_state' h_q h_record
  | none =>
    -- both report the same error
    have h_left := endRecord_eq callback (s := s) h_p
    have h_right := endRecord_eq callback (s := s) h_q
    have h_rv := h_p.endRecord_rv callback s h_q h_record
    rw [h_record] at h_left h_right
    obtain ⟨rv, h_error, h_left⟩ := h_left
    obtain ⟨rv', -, h_right⟩ := h_right
    rw [h_left, h_right] at h_rv
    obtain rfl : rv = rv' := h_rv
    refine Or.inr ⟨rfl, rv, (ihexErrors_ne h_error).1, fun r h_r => ?_⟩
    rcases List.mem_pair.mp h_r with rfl | rfl
    · simpa only [ihexByte, h_dat, if_true, h_state, if_false] using h_left
    · simpa only [ihexByte, h_dat, if_true, h_state', if_false] using h_right

/-! ### Two parsers in one text -/

variable (callback s) in
/-- With one base, or without data, the parsers go on alike. -/
theorem ihexFeed_alike (h : Alike p q line) {text : List UInt8} (more : List UInt8)
    (h_base : SameBase p q ∨ dataFirst (lines line (text ++ more)) = false) :
    let r := ihexFeed callback p s text
    let r' := ihexFeed callback q s text
    r'.1 = r.1 ∧ r'.2.2 = r.2.2 ∧ (r.1 = ihexContinue → ∃ line', Alike r.2.1 r'.2.1 line' ∧
      (SameBase r.2.1 r'.2.1 ∨ dataFirst (lines line' more) = false)) := by
  induction text generalizing p q s line with
  | nil => exact ⟨rfl, rfl, fun _ => ⟨line, h, h_base⟩⟩
  | cons dat text ih =>
    simp only [List.cons_append, lines] at h_base
    simp only [ihexFeed]
    cases h_dat : isEol dat with
    | false =>
      simp only [h_dat, Bool.false_eq_true, if_false] at h_base
      obtain ⟨h_rv, h_next⟩ := h.byte callback s h_dat
      obtain ⟨-, h_p, h_s⟩ := @ihexByte_quiet _ callback p s _ h_dat
      obtain ⟨-, h_q, h_s'⟩ := @ihexByte_quiet _ callback q s _ h_dat
      rw [h_rv, h_s, h_s']
      split_ifs with h_zero
      · -- neither the bases nor the state of the callback change within a line
        refine ih _ (h_next h_zero) (h_base.imp_left fun h_same => ?_)
        rw [SameBase, h_p, h_q]
        exact h_same
      · exact ⟨h_rv, h_s'.trans h_s.symm, fun h_go => absurd h_go h_zero⟩
    | true =>
      simp only [h_dat, if_true] at h_base
      by_cases h_line : line = []
      · subst h_line
        rw [ihexByte_emptyLine h.left h_dat, ihexByte_emptyLine h.right h_dat]
        simp only [if_true] at h_base ⊢
        exact ih _ h h_base
      simp only [h_line, if_false, dataFirst] at h_base
      rcases h.endOfLine callback s h_line h_dat with
        ⟨record, h_taken, h_end⟩ | ⟨-, rv, h_rv, h_end⟩
      · rw [h_end p (by simp), h_end q (by simp)]
        rw [h_taken] at h_base
        have h_start (b b' : ℕ) : Alike { p with state := .start, base := b }
          { q with state := .start, base := b' } [] := .of_start rfl rfl
        cases record with
        | data addr bytes =>
          -- the one record that shows the base
          have h_same : SameBase p q := h_base.resolve_right (by simp)
          simp only [Record.exec, h_same.address addr]
          by_cases h_zero : (callback s ((addr + q.base) % 2 ^ 32) bytes).1 = 0
          · simp only [h_zero, if_true]
            exact ih _ (h_start _ _) (Or.inl h_same)
          · simp only [h_zero, if_false]
            exact ⟨trivial, trivial, fun h_go => absurd h_go h_zero⟩
        | eof => exact ⟨rfl, rfl, fun h_go => absurd h_go (by decide : ihexEof ≠ ihexContinue)⟩
        -- from here on the bases are equal
        | base b => exact ih _ (h_start b b) (Or.inl rfl)
        | start => exact ih _ (h_start _ _) h_base
      · rw [h_end p (by simp), h_end q (by simp)]
        simp only [if_neg h_rv]
        exact ⟨trivial, trivial, fun h_go => absurd h_go h_rv⟩

theorem feedResults_alike (h : Alike p q line) (inbufs : List (List UInt8))
    (h_base : SameBase p q ∨ dataFirst (lines line inbufs.flatten) = false) :
    feedResults callback p s inbufs = feedResults callback q s inbufs := by
  induction inbufs generalizing p q s line with
  | nil => rfl
  | cons inbuf inbufs ih =>
    rw [List.flatten_cons] at h_base
    obtain ⟨h_rv, h_s, h_next⟩ := ihexFeed_alike callback s h _ h_base
    simp only [feedResults]
    rw [h_rv, h_s]
    split_ifs with h_go
    · obtain ⟨line', h_alike, h_base'⟩ := h_next h_go
      rw [ih h_alike h_base']
    · rfl

/-- The calls of the callback so far are not forgotten. -/
theorem logged_prefix (t : σ × List (ℕ × List UInt8)) (text : List UInt8) :
    t.2 <+: (ihexFeed (logged callback) p t text).2.2.2 :=
  ihexFeed_invariant (I := fun s : σ × List (ℕ × List UInt8) => t.2 <+: s.2)
    (fun _ _ _ _ h => h.trans (List.prefix_append _ _)) p (List.prefix_refl _) text

variable (callback) in
/-- A data record is called back with its address, and the call is not forgotten. -/
theorem logged_data (p : Parser) (t : σ × List (ℕ × List UInt8)) (addr : ℕ)
    (bytes text : List UInt8) :
    let e := Record.exec (logged callback) p.base t (.data addr bytes)
    let q : Parser := { p with state := .start, base := e.2.1 }
    t.2 ++ [((addr + p.base) % 2 ^ 32, bytes)] <+:
      (if e.1 = 0 then ihexFeed (logged callback) q e.2.2 text else (e.1, q, e.2.2)).2.2.2 := by
  dsimp only
  split_ifs
  · exact logged_prefix (Record.exec (logged callback) p.base t (.data addr bytes)).2.2 text
  · exact List.prefix_refl _

variable (callback) in
/-- The first data record shows the base. -/
theorem ihexFeed_differs (h : Alike p q line) {text : List UInt8}
    (t : σ × List (ℕ × List UInt8)) (h_base : ¬ SameBase p q)
    (h_first : dataFirst (lines line text) = true) :
    (ihexFeed (logged callback) p t text).2.2.2 ≠ (ihexFeed (logged callback) q t text).2.2.2 := by
  induction text generalizing p q line with
  | nil => exact absurd h_first (by simp [lines, dataFirst])
  | cons dat text ih =>
    simp only [lines] at h_first
    simp only [ihexFeed]
    cases h_dat : isEol dat with
    | false =>
      simp only [h_dat, Bool.false_eq_true, if_false] at h_first
      obtain ⟨h_rv, h_next⟩ := h.byte (logged callback) t h_dat
      obtain ⟨-, h_p, h_t⟩ := @ihexByte_quiet _ (logged callback) p t _ h_dat
      obtain ⟨-, h_q, h_t'⟩ := @ihexByte_quiet _ (logged callback) q t _ h_dat
      -- where the reading stops there is no data record any more
      have h_zero : (ihexByte (logged callback) p t dat).1 = 0 := by
        by_contra h_stop
        have h_none := dataFirst_of_taken (by simp) (h.left.taken_none h_dat h_stop) text
        rw [h_none] at h_first
        exact absurd h_first (by simp)
      rw [h_rv, h_t, h_t', if_pos h_zero, if_pos h_zero]
      refine ih (h_next h_zero) ?_ h_first
      rw [SameBase, h_p, h_q]
      exact h_base
    | true =>
      simp only [h_dat, if_true] at h_first
      by_cases h_line : line = []
      · subst h_line
        rw [ihexByte_emptyLine h.left h_dat, ihexByte_emptyLine h.right h_dat]
        simp only [if_true] at h_first ⊢
        exact ih h h_base h_first
      simp only [h_line, if_false, dataFirst] at h_first
      rcases h.endOfLine (logged callback) t h_line h_dat with
        ⟨record, h_taken, h_end⟩ | ⟨h_taken, -⟩
      · rw [h_end p (by simp), h_end q (by simp)]
        rw [h_taken] at h_first
        cases record with
        | data addr bytes =>
          -- both logs begin with this call, at an address that gives the base away
          dsimp only
          intro h_log
          have h_p := logged_data callback p t addr bytes text
          have h_q := logged_data callback q t addr bytes text
          dsimp only at h_q
          rw [← h_log] at h_q
          have h_calls := (List.prefix_of_prefix_length_le h_p h_q (by simp)).eq_of_length
            (by simp)
          have h_call := List.singleton_inj.mp (List.append_cancel_left h_calls)
          exact h_base (.of_address (congrArg Prod.fst h_call))
        | eof | base _ => exact absurd h_first (by simp)
        | start => exact ih (.of_start rfl rfl) h_base h_first
      · rw [h_taken] at h_first
        exact absurd h_first (by simp)

end Reading

/-- **What a restart forgets.** Two loads of one text make the same calls and return the same
just if the histories before them left the same base, or the text has no data record before its
first base record. -/
theorem restart_iff {σ : Type*} (callback : σ → ℕ → List UInt8 → ℕ × σ) (s : σ)
    {map : Flash.AddressMap} (b b' : Boot.Bootloader map) (inbufs : List (List UInt8)) :
    feedResults (logged callback) (Boot.bootloaderStart b).ihex (s, []) inbufs =
        feedResults (logged callback) (Boot.bootloaderStart b').ihex (s, []) inbufs ↔
      b.ihex.base % 2 ^ 32 = b'.ihex.base % 2 ^ 32 ∨
        dataFirst (lines [] inbufs.flatten) = false := by
  have h_alike : Alike (Boot.bootloaderStart b).ihex (Boot.bootloaderStart b').ihex [] :=
    .of_start rfl rfl
  constructor
  · intro h_results
    by_contra h_or
    rw [not_or, Bool.not_eq_false] at h_or
    refine ihexFeed_differs callback h_alike (s, []) h_or.1 h_or.2 ?_
    rw [← feedResults_snd, ← feedResults_snd, h_results]
  · exact feedResults_alike h_alike inbufs

/-- A linear base record of an earlier file moves a data record. -/
theorem restart_base :
    let earlier : List UInt8 := [58, 48, 50, 48, 48, 48, 48, 48, 52, 48, 56, 48, 48, 70, 50, 10]
    let text : List UInt8 := [58, 48, 49, 48, 48, 48, 48, 48, 48, 53, 53, 65, 65, 10]
    let b := Boot.bootloaderStart (Boot.powerUp .aliased fun _ => 255)
    let b' := { b with
      ihex := (ihexFeed (fun _ _ _ => (0, ())) b.ihex () earlier).2.1 }
    let r := feedResults (logged fun _ _ _ => (0, ())) (Boot.bootloaderStart b).ihex ((), []) [text]
    let r' := feedResults (logged fun _ _ _ => (0, ())) (Boot.bootloaderStart b').ihex ((), [])
      [text]
    r ≠ r' ∧ r = ([0], (), [(0, [0x55])]) ∧ r' = ([0], (), [(0x08000000, [0x55])]) := by
  decide

end Ihex

end Laureline
