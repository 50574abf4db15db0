/-
Frequency tables (`frequency_table.c`, `constants.c`).

`compaction_buffer` is the scratch array of the halving and no field here.

`symbol` is an `int16_t`, and the number of symbols is converted to it where
the source counts them.
-/
import Scomp.DataStructures.FenwickTree
import Mathlib.Algebra.BigOperators.Group.Finset.Basic
import Mathlib.Algebra.BigOperators.Intervals
import Mathlib.Algebra.Order.BigOperators.Group.Finset

namespace Scomp

/-! ## The coder's constants -/

def ACOD_STATE_SIZE_BITS : Nat := 32
def ACOD_FULL_RANGE : SymbolFrequency := 0x100000000
def ACOD_HALF_RANGE : SymbolFrequency := 0x80000000
def ACOD_QUARTER_RANGE : SymbolFrequency := 0x40000000
def ACOD_MIN_RANGE : SymbolFrequency := 0x40000002
/-- `UINT64_MAX / ACOD_FULL_RANGE` is greater than `ACOD_MIN_RANGE`. -/
def ACOD_MAX_TOTAL : SymbolFrequency := ACOD_MIN_RANGE
def ACOD_STATE_MASK : SymbolFrequency := 0xffffffff

def FTABLE_INCLUDE_EOF : Nat := 1
def FTABLE_EXCLUDE_EOF : Nat := 2
def FTABLE_INIT_ZERO : Nat := 4
def FTABLE_INIT_ONE : Nat := 8

/-! ## Tables -/

structure Ftable where
  frequencies : Ftree
  /-- Sum of all frequencies. -/
  total : SymbolFrequency
  isEofIncluded : Bool

/-- How many symbols a table has, EOF included. -/
def Ftable.length (table : Ftable) : Nat := ftreeLength table.frequencies

/-- The number of symbols in a `symbol`, which the largest table that
`ftable_init` can make is too long for: it has 32768 symbols and this is
-32768. -/
def ftableGetSymbolLimit (table : Ftable) : Int := symbolOf table.length

def ftableGetSymbolCount (table : Ftable) : Nat :=
  if table.isEofIncluded then (symbolOf (ftableGetSymbolLimit table - 1)).toNat else (ftableGetSymbolLimit table).toNat

def ftableGetEofSymbol (table : Ftable) : Symbol := (symbolOf (ftableGetSymbolLimit table - 1)).toNat

def ftableGetFrequency (table : Ftable) (symbol : Symbol) : SymbolFrequency := ftreeGet table.frequencies symbol

/-- The sum of the frequencies of the symbols strictly below. -/
def ftableGetLow (table : Ftable) (symbol : Symbol) : SymbolFrequency :=
  if symbol = 0 then 0 else ftreeSum table.frequencies (symbol - 1 : Int)

def ftableGetHigh (table : Ftable) (symbol : Symbol) : SymbolFrequency := ftreeSum table.frequencies symbol

def ftableGetTotal (table : Ftable) : SymbolFrequency := table.total

/-- Half of a frequency, rounded up. -/
def ftableHalfOf (freq : SymbolFrequency) : SymbolFrequency :=
  (if freq &&& 1 ≠ 0 then freq + 1 else freq) / 2

/-- The loop runs over `symbol length`: what it leaves out is put back as it
was read. -/
def ftableDivideByHalf (table : Ftable) : Ftable :=
  let length := (ftableGetSymbolLimit table).toNat
  let compactionBuffer := ftreeToSourceArray table.frequencies
  let halves := (compactionBuffer.take length).map ftableHalfOf
  { table with
    frequencies := ftreeFillFromSourceFrequencies table.frequencies (halves ++ compactionBuffer.drop length) 0
    total := halves.foldl (· + ·) 0 }

/-- The loop that halves while the total is not below the limit. -/
def ftableHalveRounds : Nat → Ftable → SymbolFrequency → Ftable
  | 0, table, _ => table
  | rounds + 1, table, limit =>
    if table.total ≥ limit then ftableHalveRounds rounds (ftableDivideByHalf table) limit else table

/-- After 64 rounds no frequency is above 1 and further ones change nothing:
a loop that is still not done never ends. -/
def ftableHalveUntilTotalBelowLimit (table : Ftable) (limit : SymbolFrequency) : Ftable :=
  ftableHalveRounds 64 table limit

def ftableIncrement (table : Ftable) (symbol : Symbol) : Ftable :=
  let table := ftableHalveUntilTotalBelowLimit table ACOD_MAX_TOTAL
  { table with total := table.total + 1, frequencies := ftreeAdd table.frequencies symbol 1 }

def ftableInit (length : Nat) (initFlags : Nat) : Ftable :=
  let isEofIncluded : Bool := initFlags &&& FTABLE_INCLUDE_EOF ≠ 0
  let table : Ftable :=
    { frequencies := ftreeInit (length + if isEofIncluded then 1 else 0), total := 0, isEofIncluded := isEofIncluded }
  let table := if isEofIncluded then ftableIncrement table length else table
  if initFlags &&& FTABLE_INIT_ONE ≠ 0 then (List.range length).foldl ftableIncrement table else table

/-! ## Frequencies as numbers -/

open Finset (range)

/-- How often a symbol counts. -/
def Ftable.freq (table : Ftable) (symbol : Symbol) : Nat := (ftableGetFrequency table symbol).toNat

/-- The sum of the frequencies below a symbol. -/
def Ftable.below (table : Ftable) (symbol : Symbol) : Nat := ∑ x ∈ range symbol, table.freq x

/-- What the coder relies on: the total is the sum of the frequencies, and
small enough. -/
structure FtableOK (table : Ftable) : Prop where
  sum : table.below table.length = table.total.toNat
  le : table.total ≤ ACOD_MAX_TOTAL

theorem Ftable.below_succ (table : Ftable) (symbol : Symbol) :
    table.below (symbol + 1) = table.below symbol + table.freq symbol := Finset.sum_range_succ _ _

theorem Ftable.below_mono (table : Ftable) {x y : Symbol} (h : x ≤ y) : table.below x ≤ table.below y :=
  Finset.sum_le_sum_of_subset (Finset.range_mono h)

theorem Ftable.owner_unique {table : Ftable} {x y value : Nat} (hx : table.below x ≤ value)
    (hx' : value < table.below (x + 1)) (hy : table.below y ≤ value) (hy' : value < table.below (y + 1)) : x = y := by
  rcases Nat.lt_trichotomy x y with hlt | rfl | hgt
  · have hmono := table.below_mono (show x + 1 ≤ y from hlt)
    omega
  · rfl
  · have hmono := table.below_mono (show y + 1 ≤ x from hgt)
    omega

/-- Every value below the last sum is some symbol's. -/
theorem Ftable.exists_owner (table : Ftable) {value n : Nat} (h : value < table.below n) :
    ∃ x < n, table.below x ≤ value ∧ value < table.below (x + 1) := by
  induction n with
  | zero => exact absurd h (Nat.not_lt_zero _)
  | succ n ih =>
    by_cases hlt : value < table.below n
    · obtain ⟨x, hx, howner⟩ := ih hlt
      exact ⟨x, Nat.lt_succ_of_lt hx, howner⟩
    · exact ⟨n, Nat.lt_succ_self n, Nat.not_lt.mp hlt, h⟩

theorem FtableOK.total_le {table : Ftable} (h : FtableOK table) : table.total.toNat ≤ 2 ^ 30 + 2 :=
  UInt64.le_iff_toNat_le.mp h.le

/-- The total is the sum of the frequencies, however large. -/
def Ftable.Exact (table : Ftable) : Prop := table.below table.length = table.total.toNat

theorem FtableOK.exact {table : Ftable} (h : FtableOK table) : table.Exact := h.sum

section

variable {table : Ftable} {symbol : Symbol}

theorem Ftable.Exact.below_le (h : table.Exact) (hs : symbol ≤ table.length) :
    table.below symbol ≤ table.total.toNat := by
  rw [← h]
  exact table.below_mono hs

/-- Cumulative frequencies do not wrap. -/
theorem Ftable.Exact.low_toNat (h : table.Exact) (hs : symbol ≤ table.length) :
    (ftableGetLow table symbol).toNat = table.below symbol := by
  induction symbol with
  | zero => rfl
  | succ symbol ih =>
    have hprev : (ftreeSum table.frequencies (symbol - 1 : Int)).toNat = table.below symbol := by
      rw [← ih (Nat.le_of_succ_le hs), ftableGetLow]
      split
      · next hz => rw [hz]; rfl
      · rfl
    have hle := h.below_le hs
    have hsmall := table.total.toNat_lt
    rw [table.below_succ] at hle
    rw [ftableGetLow, if_neg (Nat.succ_ne_zero _), show ((symbol + 1 : Nat) : Int) - 1 = (symbol : Nat) by omega,
      ftreeSum_succ, UInt64.toNat_add, hprev, table.below_succ]
    unfold Ftable.freq ftableGetFrequency at hle ⊢
    omega

/-- The interval of a symbol ends where that of the next one starts. -/
theorem Ftable.Exact.high_toNat (h : table.Exact) (hs : symbol < table.length) :
    (ftableGetHigh table symbol).toNat = table.below symbol + table.freq symbol := by
  have hlow := h.low_toNat (Nat.succ_le_of_lt hs)
  rw [ftableGetLow, if_neg (Nat.succ_ne_zero _), table.below_succ,
    show ((symbol + 1 : Nat) : Int) - 1 = (symbol : Nat) by omega] at hlow
  exact hlow

end

/-! ## The number of symbols as a `symbol` -/

section

variable {table : Ftable}

theorem ftableGetSymbolLimit_of_lt (h : table.length < 2 ^ 15) : ftableGetSymbolLimit table = table.length :=
  symbolOf_of_fits (Int.natCast_nonneg _) (by omega)

/-- The largest table's number of symbols is the first that a `symbol` cannot
hold. -/
theorem ftableGetSymbolLimit_wraps (h : table.length = 2 ^ 15) : ftableGetSymbolLimit table = -2 ^ 15 := by
  rw [ftableGetSymbolLimit, h]
  rfl

theorem ftableGetSymbolLimit_toNat (h : table.length < 2 ^ 15) : (ftableGetSymbolLimit table).toNat = table.length := by
  rw [ftableGetSymbolLimit_of_lt h, Int.toNat_natCast]

theorem ftableGetSymbolLimit_wraps_toNat (h : table.length = 2 ^ 15) : (ftableGetSymbolLimit table).toNat = 0 := by
  rw [ftableGetSymbolLimit_wraps h]
  rfl

/-- One less fits again. -/
theorem ftableGetEofSymbol_eq (h : table.length ≤ 2 ^ 15) : ftableGetEofSymbol table = table.length - 1 := by
  rw [ftableGetEofSymbol]
  rcases Nat.lt_or_eq_of_le h with hlt | heq
  · rw [ftableGetSymbolLimit_of_lt hlt]
    rcases Nat.eq_zero_or_pos table.length with hzero | hpos
    · rw [hzero]
      rfl
    · rw [show ((table.length : Int) - 1) = (table.length - 1 : Nat) by omega,
        symbolOf_of_fits (Int.natCast_nonneg _) (by omega), Int.toNat_natCast]
  · rw [ftableGetSymbolLimit_wraps heq, heq]
    rfl

theorem ftableGetEofSymbol_of_length {length : Nat} (h : table.length = length) (hlength : length ≤ 2 ^ 15) :
    ftableGetEofSymbol table = length - 1 := by
  rw [ftableGetEofSymbol_eq (by rw [h]; exact hlength), h]

theorem ftableGetSymbolCount_eq (h : table.length < 2 ^ 15) :
    ftableGetSymbolCount table = table.length - if table.isEofIncluded then 1 else 0 := by
  rw [ftableGetSymbolCount]
  split
  · exact ftableGetEofSymbol_eq (Nat.le_of_lt h)
  · exact ftableGetSymbolLimit_toNat h

end

/-! ## Halving and incrementing -/

theorem ftableHalfOf_toNat {freq : SymbolFrequency} (h : freq.toNat < 2 ^ 63) :
    (ftableHalfOf freq).toNat = (freq.toNat + 1) / 2 := by
  have hand : (freq &&& 1).toNat = freq.toNat % 2 := by
    rw [UInt64.toNat_and, show UInt64.toNat 1 = 1 from rfl, Nat.and_one_is_mod]
  have hiff : freq &&& 1 ≠ 0 ↔ freq.toNat % 2 = 1 := by
    rw [Ne, ← UInt64.toNat_inj, hand, show UInt64.toNat 0 = 0 from rfl]
    omega
  rw [ftableHalfOf, UInt64.toNat_div, show UInt64.toNat 2 = 2 from rfl]
  by_cases hodd : freq.toNat % 2 = 1
  · rw [if_pos (hiff.mpr hodd), UInt64.toNat_add, show UInt64.toNat 1 = 1 from rfl]
    omega
  · rw [if_neg (fun hn => hodd (hiff.mp hn))]
    omega

theorem foldl_add_toNat {values : List SymbolFrequency} {start : SymbolFrequency}
    (h : start.toNat + (values.map UInt64.toNat).sum < 2 ^ 64) :
    (values.foldl (· + ·) start).toNat = start.toNat + (values.map UInt64.toNat).sum := by
  induction values generalizing start with
  | nil => rfl
  | cons value values ih =>
    rw [List.map_cons, List.sum_cons] at h ⊢
    have hadd : (start + value).toNat = start.toNat + value.toNat := by
      rw [UInt64.toNat_add]
      omega
    rw [List.foldl_cons, ih (by omega), hadd]
    omega

theorem sum_map_range (f : Nat → Nat) (n : Nat) : ((List.range n).map f).sum = ∑ x ∈ range n, f x := by
  induction n with
  | zero => rfl
  | succ n ih => rw [List.range_succ, List.map_append, List.sum_append, ih, Finset.sum_range_succ]; simp

@[simp] theorem ftableDivideByHalf_limit (table : Ftable) :
    (ftableDivideByHalf table).length = table.length := by
  simp [Ftable.length, ftreeLength, ftableDivideByHalf, ftreeFillFromSourceFrequencies]

theorem ftableHalveRounds_limit (rounds : Nat) (table : Ftable) (limit : SymbolFrequency) :
    (ftableHalveRounds rounds table limit).length = table.length := by
  induction rounds generalizing table with
  | zero => rfl
  | succ rounds ih =>
    rw [ftableHalveRounds]
    split
    · rw [ih, ftableDivideByHalf_limit]
    · rfl

/-- No increment changes which symbols a table has. -/
@[simp] theorem ftableIncrement_limit (table : Ftable) (symbol : Symbol) :
    (ftableIncrement table symbol).length = table.length :=
  ftableHalveRounds_limit 64 table ACOD_MAX_TOTAL

theorem ftableDivideByHalf_eq {table : Ftable} (hlimit : table.length < 2 ^ 15) :
    let halves := (ftreeToSourceArray table.frequencies).map ftableHalfOf
    ftableDivideByHalf table =
      { table with
        frequencies := ftreeFillFromSourceFrequencies table.frequencies halves 0
        total := halves.foldl (· + ·) 0 } := by
  have hall : (ftreeToSourceArray table.frequencies).length = table.length := by
    rw [ftreeToSourceArray, List.length_map, List.length_range]
    rfl
  rw [ftableDivideByHalf, ftableGetSymbolLimit_toNat hlimit, ← hall, List.take_length, List.drop_length, List.append_nil]

@[simp] theorem ftableGetEofSymbol_increment (table : Ftable) (symbol : Symbol) :
    ftableGetEofSymbol (ftableIncrement table symbol) = ftableGetEofSymbol table := by
  rw [ftableGetEofSymbol, ftableGetEofSymbol, ftableGetSymbolLimit, ftableGetSymbolLimit, ftableIncrement_limit]

theorem Ftable.Exact.freq_le {table : Ftable} (h : table.Exact) {symbol : Symbol}
    (hs : symbol < table.length) : table.freq symbol ≤ table.total.toNat := by
  have hle := h.below_le (Nat.succ_le_of_lt hs)
  rw [table.below_succ] at hle
  exact Nat.le_trans (Nat.le_add_left _ _) hle

/-- Below `2^63` no rounding up wraps. -/
theorem ftableDivideByHalf_freq {table : Ftable} (h : table.Exact) (hlimit : table.length < 2 ^ 15)
    (htotal : table.total.toNat < 2 ^ 63) {symbol : Symbol} (hs : symbol < table.length) :
    (ftableDivideByHalf table).freq symbol = (table.freq symbol + 1) / 2 := by
  have hlt := Nat.lt_of_le_of_lt (h.freq_le hs) htotal
  have hlen : symbol < (ftreeToSourceArray table.frequencies).length := by
    rw [ftreeToSourceArray, List.length_map, List.length_range]
    exact hs
  have hget := @ftreeToSourceArray_getD table.frequencies symbol hs
  unfold Ftable.freq ftableGetFrequency at hlt ⊢
  rw [← ftableHalfOf_toNat hlt, ftableDivideByHalf_eq hlimit, ftreeGet_fill hs]
  rw [List.getD_eq_getElem?_getD, List.getElem?_eq_getElem hlen, Option.getD_some] at hget
  rw [List.getD_eq_getElem?_getD, List.getElem?_map, List.getElem?_eq_getElem hlen, Option.map_some,
    Option.getD_some, hget]

theorem half_sum_le_sum (f : Nat → Nat) (n : Nat) : ∑ x ∈ range n, (f x + 1) / 2 ≤ ∑ x ∈ range n, f x :=
  Finset.sum_le_sum fun x _ => by omega

/-- The new total is the sum of the halves. -/
theorem ftableDivideByHalf_total {table : Ftable} (h : table.Exact) (hlimit : table.length < 2 ^ 15)
    (htotal : table.total.toNat < 2 ^ 63) :
    (ftableDivideByHalf table).total.toNat = ∑ x ∈ range table.length, (table.freq x + 1) / 2 := by
  have hhalf := half_sum_le_sum table.freq table.length
  have harray : (((ftreeToSourceArray table.frequencies).map ftableHalfOf).map UInt64.toNat) =
      (List.range table.length).map fun x => (table.freq x + 1) / 2 := by
    rw [ftreeToSourceArray, List.map_map, List.map_map]
    apply List.map_congr_left
    intro x hx
    have hlt := Nat.lt_of_le_of_lt (h.freq_le (List.mem_range.mp hx)) htotal
    unfold Ftable.freq ftableGetFrequency at hlt ⊢
    rw [← ftableHalfOf_toNat hlt, ftreeGet_eq]
    rfl
  unfold Ftable.Exact Ftable.below at h
  rw [ftableDivideByHalf_eq hlimit, foldl_add_toNat, harray, sum_map_range, show UInt64.toNat 0 = 0 from rfl, Nat.zero_add]
  rw [harray, sum_map_range, show UInt64.toNat 0 = 0 from rfl]
  omega

/-- **A round of halving keeps the total exact.** -/
theorem ftableDivideByHalf_exact {table : Ftable} (h : table.Exact) (hlimit : table.length < 2 ^ 15)
    (htotal : table.total.toNat < 2 ^ 63) : (ftableDivideByHalf table).Exact := by
  rw [Ftable.Exact, ftableDivideByHalf_limit, ftableDivideByHalf_total h hlimit htotal]
  exact Finset.sum_congr rfl fun x hx => ftableDivideByHalf_freq h hlimit htotal (Finset.mem_range.mp hx)

/-- Rounding up adds at most a half for each symbol. -/
theorem half_sum_le (f : Nat → Nat) (n : Nat) : 2 * ∑ x ∈ range n, (f x + 1) / 2 ≤ (∑ x ∈ range n, f x) + n := by
  induction n with
  | zero => simp
  | succ n ih => rw [Finset.sum_range_succ, Finset.sum_range_succ]; omega

theorem FtableOK.total_lt {table : Ftable} (h : FtableOK table) : table.total.toNat < 2 ^ 63 :=
  Nat.lt_of_le_of_lt h.total_le (by decide)

theorem ftableDivideByHalf_ok {table : Ftable} (h : FtableOK table)
    (hlimit : table.length < 2 ^ 15) :
    FtableOK (ftableDivideByHalf table) ∧
      2 * (ftableDivideByHalf table).total.toNat ≤ table.total.toNat + table.length := by
  have htotal := ftableDivideByHalf_total h.exact hlimit h.total_lt
  have hhalf := half_sum_le table.freq table.length
  have hsum := h.sum
  have hsmall := h.total_le
  have hmax : ACOD_MAX_TOTAL.toNat = 2 ^ 30 + 2 := rfl
  unfold Ftable.below at hsum
  refine ⟨⟨ftableDivideByHalf_exact h.exact hlimit h.total_lt, ?_⟩, ?_⟩
  · rw [UInt64.le_iff_toNat_le, htotal]
    omega
  · rw [htotal]
    omega

/-- What the coder's tables keep: on top of `FtableOK`, no symbol is
impossible, and a `symbol` can hold their number. -/
structure FtableReady (table : Ftable) (limit : Nat) : Prop where
  ok : FtableOK table
  limit_eq : table.length = limit
  limit_lt : limit < 2 ^ 15
  positive : ∀ symbol < limit, 0 < table.freq symbol

theorem FtableReady.length_lt {table : Ftable} {limit : Nat} (h : FtableReady table limit) : table.length < 2 ^ 15 := by
  rw [h.limit_eq]
  exact h.limit_lt

/-- A full table is halved once, any other is left alone. -/
theorem ftableHalve_cases {table : Ftable} (h : FtableOK table) (hlimit : table.length < 2 ^ 15) :
    (table.total.toNat < 2 ^ 30 + 2 ∧ ftableHalveUntilTotalBelowLimit table ACOD_MAX_TOTAL = table) ∨
      (table.total.toNat = 2 ^ 30 + 2 ∧
        ftableHalveUntilTotalBelowLimit table ACOD_MAX_TOTAL = ftableDivideByHalf table) := by
  have hmax : ACOD_MAX_TOTAL.toNat = 2 ^ 30 + 2 := rfl
  by_cases hfull : table.total ≥ ACOD_MAX_TOTAL
  · obtain ⟨-, hle⟩ := ftableDivideByHalf_ok h hlimit
    have hsmall := h.total_le
    have hroom : ¬ (ftableDivideByHalf table).total ≥ ACOD_MAX_TOTAL := by
      rw [ge_iff_le, UInt64.le_iff_toNat_le]
      omega
    right
    rw [ge_iff_le, UInt64.le_iff_toNat_le] at hfull
    refine ⟨by omega, ?_⟩
    rw [ftableHalveUntilTotalBelowLimit, ftableHalveRounds, if_pos (UInt64.le_iff_toNat_le.mpr hfull),
      ftableHalveRounds, if_neg hroom]
  · left
    refine ⟨?_, by rw [ftableHalveUntilTotalBelowLimit, ftableHalveRounds, if_neg hfull]⟩
    rw [ge_iff_le, UInt64.le_iff_toNat_le] at hfull
    omega

/-- Before an increment there is room for it; halving loses no symbol. -/
theorem ftableHalve_spec {table : Ftable} (h : FtableOK table) (hlimit : table.length < 2 ^ 15) :
    let table' := ftableHalveUntilTotalBelowLimit table ACOD_MAX_TOTAL
    FtableOK table' ∧ table'.total.toNat < 2 ^ 30 + 2 ∧
      table'.length = table.length ∧ table'.isEofIncluded = table.isEofIncluded ∧
      ∀ symbol < table.length, 0 < table.freq symbol → 0 < table'.freq symbol := by
  rcases ftableHalve_cases h hlimit with ⟨hroom, hround⟩ | ⟨hfull, hround⟩
  · rw [hround]
    exact ⟨h, hroom, rfl, rfl, fun _ _ hpos => hpos⟩
  · obtain ⟨hok, hle⟩ := ftableDivideByHalf_ok h hlimit
    rw [hround]
    refine ⟨hok, by omega, ftableDivideByHalf_limit table, rfl, ?_⟩
    intro symbol hs hpos
    rw [ftableDivideByHalf_freq h.exact hlimit h.total_lt hs]
    omega

/-- What counting a symbol does to a table with room for it. -/
theorem ftableCount_spec {table : Ftable} (symbol : Symbol) (h : FtableOK table) (hroom : table.total.toNat < 2 ^ 30 + 2) :
    let counted := { table with total := table.total + 1, frequencies := ftreeAdd table.frequencies symbol 1 }
    counted.total.toNat = table.total.toNat + 1 ∧
      ∀ x < table.length, counted.freq x = table.freq x + if x = symbol then 1 else 0 := by
  constructor
  · show (table.total + 1).toNat = _
    rw [UInt64.toNat_add, show UInt64.toNat 1 = 1 from rfl]
    omega
  · intro x hx
    have hlt := h.exact.freq_le hx
    have hle := h.total_le
    show (ftreeGet (ftreeAdd table.frequencies symbol 1) x).toNat = _
    rw [ftreeGet_add _ hx, UInt64.toNat_add]
    unfold Ftable.freq ftableGetFrequency at hlt ⊢
    split
    · rw [show UInt64.toNat 1 = 1 from rfl]
      omega
    · rw [show UInt64.toNat 0 = 0 from rfl]
      omega

/-- A table with a symbol counted is what it was, and the symbol possible. -/
structure FtableCounts (table counted : Ftable) (symbol : Symbol) : Prop where
  ok : FtableOK counted
  length : counted.length = table.length
  eof : counted.isEofIncluded = table.isEofIncluded
  new : 0 < counted.freq symbol
  keeps : ∀ x < table.length, 0 < table.freq x → 0 < counted.freq x

theorem ftableCount_ok {table : Ftable} {symbol : Symbol} (h : FtableOK table) (hroom : table.total.toNat < 2 ^ 30 + 2)
    (hs : symbol < table.length) :
    FtableCounts table { table with total := table.total + 1, frequencies := ftreeAdd table.frequencies symbol 1 }
      symbol := by
  obtain ⟨htotal, hfreq⟩ := ftableCount_spec symbol h hroom
  refine ⟨⟨?_, ?_⟩, rfl, rfl, ?_, fun x hx hpos => ?_⟩
  · have hsum := h.sum
    show Ftable.below _ table.length = _
    rw [htotal, ← hsum, Ftable.below, Finset.sum_congr rfl fun x hx => hfreq x (Finset.mem_range.mp hx),
      Finset.sum_add_distrib, Finset.sum_ite_eq', if_pos (Finset.mem_range.mpr hs), Ftable.below]
  · rw [UInt64.le_iff_toNat_le, htotal]
    exact hroom
  · rw [hfreq symbol hs, if_pos rfl]
    omega
  · rw [hfreq x hx]
    exact Nat.lt_of_lt_of_le hpos (Nat.le_add_right _ _)

theorem ftableIncrement_eq_count {table : Ftable} (symbol : Symbol) (hroom : table.total.toNat < 2 ^ 30 + 2) :
    ftableIncrement table symbol =
      { table with total := table.total + 1, frequencies := ftreeAdd table.frequencies symbol 1 } := by
  have hfull : ¬ table.total ≥ ACOD_MAX_TOTAL := by
    rw [ge_iff_le, UInt64.le_iff_toNat_le]
    exact Nat.not_le.mpr hroom
  rw [ftableIncrement, ftableHalveUntilTotalBelowLimit, ftableHalveRounds, if_neg hfull]

/-- With room there is no halving, whatever the number of symbols. -/
theorem ftableIncrement_small {table : Ftable} {symbol : Symbol} (h : FtableOK table)
    (hroom : table.total.toNat < 2 ^ 30 + 2) (hs : symbol < table.length) :
    FtableCounts table (ftableIncrement table symbol) symbol := by
  rw [ftableIncrement_eq_count symbol hroom]
  exact ftableCount_ok h hroom hs

/-- **An increment keeps the table usable by the coder**: the total stays
exact and small, no symbol is lost, and the counted one is possible now. -/
theorem ftableIncrement_spec {table : Ftable} {symbol : Symbol} (h : FtableOK table)
    (hlimit : table.length < 2 ^ 15) (hs : symbol < table.length) :
    FtableCounts table (ftableIncrement table symbol) symbol := by
  obtain ⟨hok, hroom, hlen, heof, hkeep⟩ := ftableHalve_spec h hlimit
  have hcounts := ftableCount_ok hok hroom (by rw [hlen]; exact hs)
  refine ⟨hcounts.ok, hcounts.length.trans hlen, hcounts.eof.trans heof, hcounts.new, fun x hx hpos => ?_⟩
  exact hcounts.keeps x (by rw [hlen]; exact hx) (hkeep x hx hpos)

/-- An increment always changes the table. -/
theorem ftableIncrement_ne {table : Ftable} (symbol : Symbol) (h : FtableOK table)
    (hlimit : table.length < 2 ^ 15) : ftableIncrement table symbol ≠ table := by
  intro he
  obtain ⟨hok, hroom, -⟩ := ftableHalve_spec h hlimit
  have htotal : (ftableIncrement table symbol).total.toNat =
      (ftableHalveUntilTotalBelowLimit table ACOD_MAX_TOTAL).total.toNat + 1 := (ftableCount_spec symbol hok hroom).1
  rw [he] at htotal
  rcases ftableHalve_cases h hlimit with ⟨-, hround⟩ | ⟨hfull, hround⟩
  · rw [hround] at htotal
    omega
  · obtain ⟨-, hle⟩ := ftableDivideByHalf_ok h hlimit
    rw [hround] at htotal
    omega

/-- Without a halving an increment is exact. -/
theorem ftableIncrement_exact {table : Ftable} (symbol : Symbol) (h : FtableOK table)
    (hroom : table.total.toNat < 2 ^ 30 + 2) :
    (ftableIncrement table symbol).total.toNat = table.total.toNat + 1 ∧
      ∀ x < table.length, (ftableIncrement table symbol).freq x = table.freq x + if x = symbol then 1 else 0 := by
  rw [ftableIncrement_eq_count symbol hroom]
  exact ftableCount_spec symbol h hroom

theorem FtableReady.increment {table : Ftable} {limit : Nat} (h : FtableReady table limit) {symbol : Symbol}
    (hs : symbol < limit) : FtableReady (ftableIncrement table symbol) limit := by
  have hlimit := h.limit_eq
  have hcounts := ftableIncrement_spec h.ok h.length_lt (by rw [hlimit]; exact hs)
  exact ⟨hcounts.ok, hcounts.length.trans hlimit, h.limit_lt,
    fun x hx => hcounts.keeps x (by rw [hlimit]; exact hx) (h.positive x hx)⟩

/-- One of each symbol, with room for them. -/
theorem ftableIncrement_all {table : Ftable} (h : FtableOK table) {length : Nat} (hlength : length ≤ table.length)
    (hroom : table.total.toNat + length ≤ 2 ^ 30 + 2) :
    let table' := (List.range length).foldl ftableIncrement table
    FtableOK table' ∧ table'.total.toNat = table.total.toNat + length ∧ table'.length = table.length ∧
      table'.isEofIncluded = table.isEofIncluded ∧
      (∀ x < table.length, 0 < table.freq x → 0 < table'.freq x) ∧
      ∀ x < length, 0 < table'.freq x := by
  induction length with
  | zero => exact ⟨h, rfl, rfl, rfl, fun _ _ hpos => hpos, fun x hx => absurd hx (Nat.not_lt_zero x)⟩
  | succ length ih =>
    obtain ⟨hok, htotal, hlen, heof, hkeep, hpos⟩ := ih (by omega) (by omega)
    rw [List.range_succ, List.foldl_append]
    generalize (List.range length).foldl ftableIncrement table = table₁ at *
    have hroom₁ : table₁.total.toNat < 2 ^ 30 + 2 := by rw [htotal]; omega
    have hcounts := @ftableIncrement_small table₁ length hok hroom₁ (by rw [hlen]; exact hlength)
    obtain ⟨htotal', -⟩ := ftableIncrement_exact length hok hroom₁
    refine ⟨hcounts.ok, by rw [List.foldl_cons, List.foldl_nil, htotal', htotal, Nat.add_assoc],
      hcounts.length.trans hlen, hcounts.eof.trans heof, fun x hx hx₁ => ?_, fun x hx => ?_⟩
    · exact hcounts.keeps x (by omega) (hkeep x hx hx₁)
    · rcases Nat.lt_succ_iff_lt_or_eq.mp hx with hlt | rfl
      · exact hcounts.keeps x (by omega) (hpos x hlt)
      · exact hcounts.new

theorem ftableEmpty_ok (length : Nat) (isEofIncluded : Bool) :
    FtableOK { frequencies := ftreeInit length, total := 0, isEofIncluded := isEofIncluded } := by
  refine ⟨Finset.sum_eq_zero fun x _ => ?_, show (0 : UInt64) ≤ ACOD_MAX_TOTAL by decide⟩
  rw [Ftable.freq, ftableGetFrequency, ftreeGet_eq, ftreeInit, ftreeSum_zeroes, ftreeSum_zeroes]
  rfl

/-- What an initialised table starts from: the EOF symbol, if there is one,
is counted. -/
theorem ftableInit_eof_ok (length : Nat) (isEofIncluded : Bool) :
    let empty : Ftable :=
      { frequencies := ftreeInit (length + if isEofIncluded then 1 else 0), total := 0, isEofIncluded := isEofIncluded }
    let table := if isEofIncluded then ftableIncrement empty length else empty
    FtableOK table ∧ table.total.toNat = (if isEofIncluded then 1 else 0) ∧
      table.length = length + (if isEofIncluded then 1 else 0) ∧
      table.isEofIncluded = isEofIncluded ∧
      ∀ x, length ≤ x → x < length + (if isEofIncluded then 1 else 0) → 0 < table.freq x := by
  cases isEofIncluded with
  | false =>
    exact ⟨ftableEmpty_ok length false, rfl, rfl, rfl, fun x hge hlt => absurd hge (Nat.not_le.mpr hlt)⟩
  | true =>
    have hempty := ftableEmpty_ok (length + 1) true
    have hroom : (0 : UInt64).toNat < 2 ^ 30 + 2 := by decide
    have hcounts := @ftableIncrement_small _ length hempty hroom (Nat.lt_succ_self length)
    obtain ⟨htotal, -⟩ := ftableIncrement_exact length hempty hroom
    refine ⟨hcounts.ok, htotal, hcounts.length, hcounts.eof, fun x hge hlt => ?_⟩
    obtain rfl : x = length := Nat.le_antisymm (Nat.le_of_lt_succ hlt) hge
    exact hcounts.new

/-- **An initialised table**, with or without EOF, empty or with one of each
symbol. -/
theorem ftableInit_ok (length initFlags : Nat) (hlength : length < 2 ^ 15) :
    FtableOK (ftableInit length initFlags) ∧
      (ftableInit length initFlags).length = length + (if initFlags &&& FTABLE_INCLUDE_EOF ≠ 0 then 1 else 0) ∧
      (ftableInit length initFlags).isEofIncluded = decide (initFlags &&& FTABLE_INCLUDE_EOF ≠ 0) ∧
      (initFlags &&& FTABLE_INIT_ONE ≠ 0 →
        ∀ x < (ftableInit length initFlags).length, 0 < (ftableInit length initFlags).freq x) := by
  obtain ⟨hok, htotal, hlen, heof, hlast⟩ := ftableInit_eof_ok length (decide (initFlags &&& FTABLE_INCLUDE_EOF ≠ 0))
  simp only [decide_eq_true_eq] at hok htotal hlen heof hlast
  unfold ftableInit
  simp only [decide_eq_true_eq]
  generalize (if initFlags &&& FTABLE_INCLUDE_EOF ≠ 0 then ftableIncrement _ length else _) = table at *
  by_cases hone : initFlags &&& FTABLE_INIT_ONE ≠ 0
  · obtain ⟨hok', -, hlen', heof', hkeep, hpos⟩ := @ftableIncrement_all table hok length
      (by rw [hlen]; exact Nat.le_add_right _ _) (by rw [htotal]; split <;> omega)
    rw [if_pos hone]
    refine ⟨hok', hlen'.trans hlen, heof'.trans heof, fun _ x hx => ?_⟩
    rw [hlen'] at hx
    rcases Nat.lt_or_ge x length with hlt | hge
    · exact hpos x hlt
    · exact hkeep x hx (hlast x hge (by rw [← hlen]; exact hx))
  · rw [if_neg hone]
    exact ⟨hok, hlen, heof, fun h => absurd h hone⟩

/-- **A one-initialised table is ready for the coder**, with at most 32767
symbols, EOF included. -/
theorem ftableInit_ready (length initFlags : Nat) (hone : initFlags &&& FTABLE_INIT_ONE ≠ 0)
    (hlength : length + (if initFlags &&& FTABLE_INCLUDE_EOF ≠ 0 then 1 else 0) < 2 ^ 15) :
    FtableReady (ftableInit length initFlags)
        (length + if initFlags &&& FTABLE_INCLUDE_EOF ≠ 0 then 1 else 0) ∧
      (ftableInit length initFlags).isEofIncluded = decide (initFlags &&& FTABLE_INCLUDE_EOF ≠ 0) := by
  obtain ⟨hok, hlen, heof, hpos⟩ := ftableInit_ok length initFlags (Nat.lt_of_le_of_lt (Nat.le_add_right _ _) hlength)
  exact ⟨⟨hok, hlen, hlength, fun x hx => hpos hone x (by rw [hlen]; exact hx)⟩, heof⟩

/-- **A one-initialised table has one of each symbol**, EOF included. -/
theorem ftableInit_ones {length initFlags : Nat} (hone : initFlags &&& FTABLE_INIT_ONE ≠ 0) (hlength : length < 2 ^ 15) :
    (ftableInit length initFlags).total.toNat = (ftableInit length initFlags).length ∧
      ∀ symbol < (ftableInit length initFlags).length, (ftableInit length initFlags).freq symbol = 1 := by
  obtain ⟨hok, hlen, -, hpos⟩ := ftableInit_ok length initFlags hlength
  have htotal : (ftableInit length initFlags).total.toNat = (ftableInit length initFlags).length := by
    obtain ⟨hokEof, htotalEof, hlenEof, -⟩ := ftableInit_eof_ok length (decide (initFlags &&& FTABLE_INCLUDE_EOF ≠ 0))
    have hle : (if decide (initFlags &&& FTABLE_INCLUDE_EOF ≠ 0) then 1 else 0) ≤ 1 := by split <;> decide
    obtain ⟨-, htotal, -⟩ := @ftableIncrement_all _ hokEof length (by rw [hlenEof]; exact Nat.le_add_right _ _)
      (by rw [htotalEof]; omega)
    rw [htotalEof] at htotal
    rw [hlen, ftableInit, if_pos hone]
    simp only [decide_eq_true_eq] at htotal ⊢
    rw [htotal, Nat.add_comm]
  -- as many positive frequencies as their sum
  have hones : ∑ x ∈ range (ftableInit length initFlags).length, 1 =
      ∑ x ∈ range (ftableInit length initFlags).length, (ftableInit length initFlags).freq x := by
    rw [Finset.sum_const, Finset.card_range, smul_eq_mul, Nat.mul_one]
    exact (hok.sum.trans htotal).symm
  refine ⟨htotal, fun symbol hs => ?_⟩
  have hle := fun x (hx : x ∈ range (ftableInit length initFlags).length) => hpos hone x (Finset.mem_range.mp hx)
  exact ((Finset.sum_eq_sum_iff_of_le hle).mp hones symbol (Finset.mem_range.mpr hs)).symm

/-! ## The largest table -/

/-- The most symbols that an `int16_t` can ask for, and EOF. -/
def ftableLargest : Ftable := ftableInit 32767 (FTABLE_INCLUDE_EOF ||| FTABLE_INIT_ONE)

/-- It has one symbol more than a `symbol` can count. -/
theorem ftableLargest_spec : FtableOK ftableLargest ∧ ftableLargest.length = 2 ^ 15 ∧
    ftableLargest.total.toNat = 2 ^ 15 ∧ ∀ symbol < 2 ^ 15, ftableLargest.freq symbol = 1 := by
  obtain ⟨hok, hlen, -⟩ := ftableInit_ok 32767 (FTABLE_INCLUDE_EOF ||| FTABLE_INIT_ONE) (by decide)
  obtain ⟨htotal, hones⟩ := @ftableInit_ones 32767 (FTABLE_INCLUDE_EOF ||| FTABLE_INIT_ONE) (by decide) (by decide)
  have hlimit : (ftableInit 32767 (FTABLE_INCLUDE_EOF ||| FTABLE_INIT_ONE)).length = 2 ^ 15 := hlen
  rw [hlimit] at htotal hones
  exact ⟨hok, hlimit, htotal, hones⟩

end Scomp
