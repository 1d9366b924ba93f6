import Mathlib.Tactic.Common
import Mathlib.Logic.Function.Basic
import Mathlib.Data.Nat.Notation

/-!
# What the GPS parsers share

The four parsers have private states and write one packet buffer, `pbuf`. A
parser is a function from its state, the buffer and one byte to an `Out`: its next
state, its return code, and what it did on the way. Writes to the buffer are
recorded one by one, so that it can be said who wrote what; the buffer itself is
the memory from `pbuf` on, and `pbufSize` bytes of it are the array.

Calls into `vtimer.c` are recorded with the values that the parameters of the
called function receive.
-/

namespace Laureline
namespace Gps

/-- `PBUF_SIZE`. -/
def pbufSize : ℕ := 128

/-- The memory from `pbuf` on. -/
abbrev Pbuf := ℕ → UInt8

/-- A byte stored at a position of the buffer. -/
abbrev Write := ℕ × UInt8

/-- The buffer after the given writes, the first of them first. -/
def Pbuf.store (p : Pbuf) (ws : List Write) : Pbuf :=
  ws.foldl (fun p w => Function.update p w.1 w.2) p

/-- The buffer after NULs at the given positions. -/
def Pbuf.cut (p : Pbuf) (cuts : List ℕ) : Pbuf := p.store (cuts.map fun i => (i, 0))

/-- The little-endian 16-bit value at a position. -/
def Pbuf.le16 (p : Pbuf) (i : ℕ) : ℕ := (p i).toNat + 256 * (p (i + 1)).toNat

/-- The little-endian 32-bit value at a position. -/
def Pbuf.le32 (p : Pbuf) (i : ℕ) : ℕ := p.le16 i + 65536 * p.le16 (i + 2)

/-- The big-endian 16-bit value at a position. -/
def Pbuf.be16 (p : Pbuf) (i : ℕ) : ℕ := 256 * (p i).toNat + (p (i + 1)).toNat

/-- The return codes of the parsers. -/
inductive Rc
  | feedUnknown
  | feedContinue
  | feedComplete
deriving DecidableEq, Repr

/-- `quant_leadlag_t`. -/
inductive Leadlag
  | leading
  | lagging
deriving DecidableEq, Repr

/-- What a parser does outside its own state and the buffer. -/
inductive Call
  /-- `vtimer_set_utc`. -/
  | setUtc (year month day hour minute second : ℕ)
  /-- `vtimer_set_gps`. -/
  | setGps (wkn tow : ℕ)
  /-- `vtimer_set_correction`, with the 32 bits of which the correction is computed. -/
  | setCorrection (raw : ℕ) (leadlag : Leadlag)
  /-- The assignment to `gps_fix_svs`. -/
  | setFixSvs (n : ℕ)
deriving DecidableEq, Repr

/-- The result of feeding one byte to a parser with the state `σ`. -/
structure Out (σ : Type) where
  st : σ
  rc : Rc
  /-- The bytes stored before a packet is decoded. -/
  writes : List Write := []
  /-- The positions overwritten with NUL while it is decoded. -/
  cuts : List ℕ := []
  calls : List Call := []
  /-- The number of positions of the buffer filled by the packet that is complete. -/
  filled : ℕ := 0

@[simp] theorem Pbuf.store_nil (p : Pbuf) : p.store [] = p := rfl

@[simp] theorem Pbuf.store_cons (p : Pbuf) (w : Write) (ws : List Write) :
    p.store (w :: ws) = Pbuf.store (Function.update p w.1 w.2) ws := rfl

/-- A byte stored behind the others. -/
theorem Pbuf.store_append {p : Pbuf} {got : List UInt8}
    (h : (List.range got.length).map p = got) (v : UInt8) :
    (List.range (got ++ [v]).length).map (p.store [(got.length, v)]) = got ++ [v] := by
  rw [List.length_append, List.length_singleton, List.range_succ, List.map_append]
  refine congrArg₂ (· ++ ·) ?_ (by simp)
  conv_rhs => rw [← h]
  -- the earlier positions are not written
  refine List.map_congr_left fun i hi => ?_
  have h_lt := List.mem_range.mp hi
  rw [Pbuf.store_cons, Pbuf.store_nil, Function.update_of_ne (by omega)]

/-- Two memories that agree at a position agree there after the same writes. -/
theorem Pbuf.store_congr {p q : Pbuf} {i : ℕ} (h : p i = q i) (ws : List Write) :
    p.store ws i = q.store ws i := by
  induction ws generalizing p q with
  | nil => exact h
  | cons w ws ih =>
    refine ih ?_
    by_cases hi : i = w.1
    · subst hi; simp
    · simp [Function.update_of_ne hi, h]

/-- Two memories agree at every position that the same writes have stored. -/
theorem Pbuf.store_congr_of_mem {p q : Pbuf} {i : ℕ} {ws : List Write}
    (h : i ∈ ws.map Prod.fst) : p.store ws i = q.store ws i := by
  induction ws generalizing p q with
  | nil => exact absurd h (by simp)
  | cons w ws ih =>
    rw [Pbuf.store_cons, Pbuf.store_cons]
    rcases List.mem_cons.mp h with rfl | h
    · -- this write makes them agree, and later ones keep it so
      exact Pbuf.store_congr (by simp) ws
    · exact ih h

theorem Pbuf.cut_congr {p q : Pbuf} {i : ℕ} (h : p i = q i) (cuts : List ℕ) :
    p.cut cuts i = q.cut cuts i := Pbuf.store_congr h _

end Gps
end Laureline
