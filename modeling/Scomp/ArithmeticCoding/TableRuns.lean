/-
A frequency table over a whole run: what the coder may rely on after any
increments, however many halvings there were between them.
-/
import Scomp.ArithmeticCoding.FrequencyTable

namespace Scomp

open Finset (range)

def ftableRun (length initFlags : Nat) (symbols : List Symbol) : Ftable :=
  symbols.foldl ftableIncrement (ftableInit length initFlags)

/-- How many symbols a table is made for, EOF included. -/
def ftableInitLimit (length initFlags : Nat) : Nat := length + if initFlags &&& FTABLE_INCLUDE_EOF ≠ 0 then 1 else 0

/-- The symbols' intervals follow one another from 0 to the total. -/
structure FtablePartitions (table : Ftable) : Prop where
  first : ftableGetLow table 0 = 0
  next : ∀ symbol, symbol + 1 < table.length →
    ftableGetLow table (symbol + 1) = ftableGetHigh table symbol
  last : ∀ symbol, symbol + 1 = table.length → ftableGetHigh table symbol = ftableGetTotal table
  width : ∀ symbol < table.length,
    (ftableGetLow table symbol).toNat + (ftableGetFrequency table symbol).toNat = (ftableGetHigh table symbol).toNat
  owner : ∀ value < (ftableGetTotal table).toNat, ∃! symbol, symbol < table.length ∧
    (ftableGetLow table symbol).toNat ≤ value ∧ value < (ftableGetHigh table symbol).toNat

theorem FtableOK.partitions {table : Ftable} (h : FtableOK table) : FtablePartitions table := by
  constructor
  · rfl
  · intro symbol hs
    rw [← UInt64.toNat_inj, h.exact.low_toNat (Nat.le_of_lt hs), h.exact.high_toNat (Nat.lt_of_succ_lt hs), table.below_succ]
  · intro symbol hs
    rw [← UInt64.toNat_inj, h.exact.high_toNat (Nat.lt_of_succ_le (Nat.le_of_eq hs)), ← table.below_succ, hs]
    exact h.sum
  · intro symbol hs
    rw [h.exact.low_toNat (Nat.le_of_lt hs), h.exact.high_toNat hs]
    rfl
  · intro value hvalue
    have howns : ∀ symbol, (symbol < table.length ∧ (ftableGetLow table symbol).toNat ≤ value ∧
        value < (ftableGetHigh table symbol).toNat) ↔ symbol < table.length ∧
          table.below symbol ≤ value ∧ value < table.below (symbol + 1) := by
      intro symbol
      refine and_congr_right fun hs => ?_
      rw [h.exact.low_toNat (Nat.le_of_lt hs), h.exact.high_toNat hs, table.below_succ]
    rw [show (ftableGetTotal table).toNat = table.below table.length from h.sum.symm] at hvalue
    obtain ⟨symbol, hs, hlow, hhigh⟩ := table.exists_owner hvalue
    refine ⟨symbol, (howns symbol).mpr ⟨hs, hlow, hhigh⟩, fun other hother => ?_⟩
    obtain ⟨-, hlow', hhigh'⟩ := (howns other).mp hother
    exact table.owner_unique hlow' hhigh' hlow hhigh

/-! ## Runs -/

/-- Any increments keep the table in order, and every symbol that was
possible possible. -/
theorem ftableIncrements_spec {table : Ftable} {symbols : List Symbol} (h : FtableOK table)
    (hlimit : table.length < 2 ^ 15) (hs : ∀ symbol ∈ symbols, symbol < table.length) :
    let table' := symbols.foldl ftableIncrement table
    FtableOK table' ∧ table'.length = table.length ∧
      (∀ x < table.length, 0 < table.freq x → 0 < table'.freq x) ∧
      ∀ symbol ∈ symbols, 0 < table'.freq symbol := by
  induction symbols generalizing table with
  | nil => exact ⟨h, rfl, fun _ _ hpos => hpos, by simp⟩
  | cons symbol symbols ih =>
    obtain ⟨hsymbol, hsymbols⟩ := List.forall_mem_cons.mp hs
    obtain ⟨hok, hlen, -, hnew, hkeep⟩ := ftableIncrement_spec h hlimit hsymbol
    obtain ⟨hok', hlen', hkeep', hnew'⟩ := @ih (ftableIncrement table symbol) hok (by rw [hlen]; exact hlimit)
      (by rw [hlen]; exact hsymbols)
    rw [hlen] at hkeep'
    refine ⟨hok', hlen'.trans hlen, fun x hx hpos => hkeep' x hx (hkeep x hx hpos), ?_⟩
    rintro x (_ | ⟨_, hx⟩)
    · exact hkeep' symbol hsymbol hnew
    · exact hnew' x hx

theorem ftableRun_spec {length initFlags : Nat} {symbols : List Symbol} (hrange : ftableInitLimit length initFlags < 2 ^ 15)
    (hs : ∀ symbol ∈ symbols, symbol < ftableInitLimit length initFlags) :
    FtableOK (ftableRun length initFlags symbols) ∧
      (ftableRun length initFlags symbols).length = ftableInitLimit length initFlags ∧
      ∀ symbol ∈ symbols, 0 < (ftableRun length initFlags symbols).freq symbol := by
  obtain ⟨hok, hlen, -, -⟩ := ftableInit_ok length initFlags (Nat.lt_of_le_of_lt (Nat.le_add_right _ _) hrange)
  obtain ⟨hok', hlen', -, hnew⟩ := @ftableIncrements_spec _ symbols hok (by rw [hlen]; exact hrange)
    (by rw [hlen]; exact hs)
  exact ⟨hok', hlen'.trans hlen, hnew⟩

/-- A table that was initialised and then incremented. -/
def FtableReachable (table : Ftable) : Prop :=
  ∃ length initFlags symbols, ftableInitLimit length initFlags < 2 ^ 15 ∧
    (∀ symbol ∈ symbols, symbol < ftableInitLimit length initFlags) ∧ table = ftableRun length initFlags symbols

theorem FtableReachable.ok {table : Ftable} (h : FtableReachable table) : FtableOK table := by
  obtain ⟨length, initFlags, symbols, hrange, hs, rfl⟩ := h
  exact (ftableRun_spec hrange hs).1

/-- **Tables stay usable by the coder.** After any increments the total is
the sum of the frequencies and within the coder's limit, the intervals
partition it, the halving before the next increment ends, and no symbol that
was possible before becomes impossible, in the halving or in anything that
follows. -/
theorem ftable_stays_usable (length initFlags : Nat) (before after : List Symbol)
    (hrange : ftableInitLimit length initFlags < 2 ^ 15)
    (hs : ∀ symbol ∈ before ++ after, symbol < ftableInitLimit length initFlags) :
    let table := ftableRun length initFlags before
    let halved := ftableHalveUntilTotalBelowLimit table ACOD_MAX_TOTAL
    let later := ftableRun length initFlags (before ++ after)
    table.length = ftableInitLimit length initFlags ∧ ftableGetSymbolLimit table = table.length ∧
      (ftableGetTotal table).toNat = ∑ x ∈ range table.length, (ftableGetFrequency table x).toNat ∧
      ftableGetTotal table ≤ ACOD_MAX_TOTAL ∧ FtablePartitions table ∧ halved.total < ACOD_MAX_TOTAL ∧
      (∀ symbol ∈ before, 0 < ftableGetFrequency table symbol) ∧
      (initFlags &&& FTABLE_INIT_ONE ≠ 0 → ∀ symbol < table.length, 0 < ftableGetFrequency table symbol) ∧
      ∀ symbol < table.length, 0 < ftableGetFrequency table symbol →
        0 < ftableGetFrequency halved symbol ∧ 0 < ftableGetFrequency later symbol := by
  intro table halved later
  have hlength : length < 2 ^ 15 := Nat.lt_of_le_of_lt (Nat.le_add_right _ _) hrange
  obtain ⟨hbefore, hafter⟩ := List.forall_mem_append.mp hs
  obtain ⟨hinit, hinitLimit, -, hone⟩ := ftableInit_ok length initFlags hlength
  obtain ⟨hok, hlimit, hcounted⟩ := ftableRun_spec hrange hbefore
  have hlimitLt : table.length < 2 ^ 15 := by rw [hlimit]; exact hrange
  obtain ⟨-, hroom, -, -, hhalved⟩ := ftableHalve_spec hok hlimitLt
  have hlater : later = after.foldl ftableIncrement table := List.foldl_append
  obtain ⟨-, -, hkeep, -⟩ := @ftableIncrements_spec table after hok hlimitLt (by rw [hlimit]; exact hafter)
  obtain ⟨-, -, hkeepInit, -⟩ := @ftableIncrements_spec (ftableInit length initFlags) before hinit
    (by rw [hinitLimit]; exact hrange) (by rw [hinitLimit]; exact hbefore)
  simp only [UInt64.lt_iff_toNat_lt]
  refine ⟨hlimit, ftableGetSymbolLimit_of_lt hlimitLt, hok.sum.symm, hok.le, hok.partitions, hroom, hcounted, fun hflag symbol hsymbol => ?_,
    fun symbol hsymbol hpos => ⟨hhalved symbol hsymbol hpos, ?_⟩⟩
  · rw [show table.length = (ftableInit length initFlags).length from
      hlimit.trans hinitLimit.symm] at hsymbol
    exact hkeepInit symbol hsymbol (hone hflag symbol hsymbol)
  · rw [hlater]
    exact hkeep symbol hsymbol hpos

/-- Two symbols and EOF, empty at first, counted three times. -/
theorem ftable_stays_usable_three :
    let table := ftableRun 2 FTABLE_INCLUDE_EOF [0, 2, 0]
    let later := ftableRun 2 FTABLE_INCLUDE_EOF [0, 2, 0, 1]
    FtablePartitions table ∧ 0 < ftableGetFrequency table 0 ∧ 0 < ftableGetFrequency later 0 := by
  obtain ⟨hlimit, -, -, -, hpartitions, -, hcounted, -, hkeep⟩ :=
    ftable_stays_usable 2 FTABLE_INCLUDE_EOF [0, 2, 0] [1] (by decide) (by decide)
  have hpos := hcounted 0 (by simp)
  exact ⟨hpartitions, hpos, (hkeep 0 (by rw [hlimit]; decide) hpos).2⟩

end Scomp
