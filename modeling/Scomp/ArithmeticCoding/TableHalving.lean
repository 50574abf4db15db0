/-
How far a table can be halved, for any limit on its total.

A round halves every frequency and rounds up, so that no symbol is lost: when
each of those that occurred counts once, further rounds change nothing. The
loop ends if and only if the limit is above their number, and then with every
frequency divided once, by the power of two of its rounds.

A table of 32768 symbols has too many for the loop of a round, whose length
is a `symbol`: such a round halves nothing and leaves a total of zero.
-/
import Scomp.ArithmeticCoding.FrequencyTable
import Scomp.Lib.CeilHalving
import Scomp.Lib.While

namespace Scomp

open Finset (range)

/-- The loop's condition. -/
def ftableIsNotBelow (limit : SymbolFrequency) (table : Ftable) : Bool := table.total ≥ limit

/-- How many symbols have a frequency. -/
def Ftable.usedSymbols (table : Ftable) : Nat :=
  ((range table.length).filter fun symbol => table.freq symbol ≠ 0).card

/-- What the total is after some rounds. -/
def Ftable.halvedSum (table : Ftable) (rounds : Nat) : Nat :=
  ∑ symbol ∈ range table.length, table.freq symbol ⌈/⌉ 2 ^ rounds

/-- A table after some rounds: every frequency divided by `2 ^ rounds` and
rounded up, and the total their sum. -/
structure FtableHalved (table : Ftable) (rounds : Nat) (halved : Ftable) : Prop where
  limit : halved.length = table.length
  eof : halved.isEofIncluded = table.isEofIncluded
  freq : ∀ symbol < table.length, halved.freq symbol = table.freq symbol ⌈/⌉ 2 ^ rounds
  sum : halved.Exact

section

variable {table halved : Ftable} {rounds : Nat}

theorem FtableHalved.total (h : FtableHalved table rounds halved) : halved.total.toNat = table.halvedSum rounds := by
  rw [← h.sum, h.limit]
  exact Finset.sum_congr rfl fun symbol hs => h.freq symbol (Finset.mem_range.mp hs)

/-- No round makes the total larger. -/
theorem FtableHalved.total_le (h : FtableHalved table rounds halved) (hsum : table.Exact) :
    halved.total.toNat ≤ table.total.toNat := by
  rw [h.total, ← hsum]
  exact Finset.sum_le_sum fun symbol _ => CeilHalving.ceilDiv_le_self _ (Nat.two_pow_pos rounds)

theorem FtableHalved.zero (hsum : table.Exact) : FtableHalved table 0 table :=
  ⟨rfl, rfl, fun symbol _ => by rw [pow_zero, ceilDiv_one], hsum⟩

theorem FtableHalved.round (h : FtableHalved table rounds halved) (hlimit : table.length < 2 ^ 15)
    (htotal : halved.total.toNat < 2 ^ 63) : FtableHalved table (rounds + 1) (ftableDivideByHalf halved) := by
  have hlen : halved.length < 2 ^ 15 := by rw [h.limit]; exact hlimit
  refine ⟨(ftableDivideByHalf_limit halved).trans h.limit, h.eof, fun symbol hs => ?_,
    ftableDivideByHalf_exact h.sum hlen htotal⟩
  rw [ftableDivideByHalf_freq h.sum hlen htotal (by rw [h.limit]; exact hs), h.freq symbol hs]
  exact CeilHalving.half_ceilDiv _ rounds

variable (hsum : table.Exact) (htotal : table.total.toNat < 2 ^ 63)
include hsum htotal

/-- No frequency needs more rounds than it has bits. -/
theorem ftable_halvedSum_lt_iff (limit : Nat) : (∃ rounds, table.halvedSum rounds < limit) ↔ table.usedSymbols < limit := by
  refine @CeilHalving.exists_sum_lt_iff _ (range table.length) table.freq 63 (fun symbol hs => ?_) limit
  have hle := hsum.freq_le (Finset.mem_range.mp hs)
  exact Nat.le_of_lt (Nat.lt_of_le_of_lt hle htotal)

variable (hlimit : table.length < 2 ^ 15)
include hlimit

/-- **Any number of rounds.** -/
theorem ftableDivideByHalf_iterate (rounds : Nat) : FtableHalved table rounds (ftableDivideByHalf^[rounds] table) := by
  induction rounds with
  | zero => exact .zero hsum
  | succ rounds ih =>
    rw [Function.iterate_succ_apply']
    exact ih.round hlimit (Nat.lt_of_le_of_lt (ih.total_le hsum) htotal)

theorem ftableIsNotBelow_iterate (limit : SymbolFrequency) (rounds : Nat) :
    ftableIsNotBelow limit (ftableDivideByHalf^[rounds] table) = false ↔ table.halvedSum rounds < limit.toNat := by
  rw [ftableIsNotBelow, decide_eq_false_iff_not, ge_iff_le, UInt64.le_iff_toNat_le, Nat.not_le,
    (ftableDivideByHalf_iterate hsum htotal hlimit rounds).total]

theorem ftableHalve_ends_iff (limit : SymbolFrequency) :
    (∃ rounds final, WhileEnds (ftableIsNotBelow limit) ftableDivideByHalf table rounds final) ↔
      table.usedSymbols < limit.toNat := by
  rw [WhileEnds.exists_iff, ← ftable_halvedSum_lt_iff hsum htotal]
  exact exists_congr fun rounds => ftableIsNotBelow_iterate hsum htotal hlimit limit rounds

/-- The rounds of a loop that ends are the fewest with a total below the
limit. -/
theorem ftableHalve_least {limit : SymbolFrequency} {final : Ftable}
    (h : WhileEnds (ftableIsNotBelow limit) ftableDivideByHalf table rounds final) :
    IsLeast {k | table.halvedSum k < limit.toNat} rounds := by
  constructor
  · have hdone := h.done
    rw [← h.final_eq] at hdone
    exact (ftableIsNotBelow_iterate hsum htotal hlimit limit rounds).mp hdone
  · intro k hk
    by_contra hlt
    have hgoing := h.going k (Nat.lt_of_not_le hlt)
    rw [(ftableIsNotBelow_iterate hsum htotal hlimit limit k).mpr hk] at hgoing
    exact absurd hgoing (by decide)

/-- A loop that ends does so within 63 rounds. -/
theorem ftableHalve_rounds_le {limit : SymbolFrequency} {final : Ftable}
    (h : WhileEnds (ftableIsNotBelow limit) ftableDivideByHalf table rounds final) : rounds ≤ 63 := by
  have hused := (ftableHalve_ends_iff hsum htotal hlimit limit).mp ⟨rounds, final, h⟩
  refine (ftableHalve_least hsum htotal hlimit h).2 ?_
  have hall : table.halvedSum 63 = table.usedSymbols :=
    CeilHalving.sum_eq_card _ _ (Nat.two_pow_pos 63) fun symbol hs =>
      Nat.le_of_lt (Nat.lt_of_le_of_lt (hsum.freq_le (Finset.mem_range.mp hs)) htotal)
  show table.halvedSum 63 < limit.toNat
  rw [hall]
  exact hused

end

/-- The bounded loop computes what the loop ends in. -/
theorem ftableHalveRounds_of_while {table final : Ftable} {limit : SymbolFrequency} {bound rounds : Nat}
    (h : WhileEnds (ftableIsNotBelow limit) ftableDivideByHalf table rounds final) (hbound : rounds ≤ bound) :
    ftableHalveRounds bound table limit = final := by
  refine @WhileEnds.bounded _ _ _ _ (fun bound table => ftableHalveRounds bound table limit) id ?_ ?_ _ _ _ _ h hbound
  · intro bound table hgoing
    rw [ftableHalveRounds, if_pos (of_decide_eq_true hgoing)]
  · intro bound table hdone
    cases bound with
    | zero => rfl
    | succ bound =>
      rw [ftableHalveRounds, if_neg (of_decide_eq_false hdone)]
      rfl

/-- **Halving ends exactly when it can**: when the limit is above the number
of symbols with a frequency. Then it is one rounded division by the smallest
power of two that brings the total below the limit. -/
structure FtableHalvesToLimit (table : Ftable) (limit : SymbolFrequency) : Prop where
  ends_iff : (∃ rounds final, WhileEnds (ftableIsNotBelow limit) ftableDivideByHalf table rounds final) ↔
    table.usedSymbols < limit.toNat
  final_eq : ∀ rounds final, WhileEnds (ftableIsNotBelow limit) ftableDivideByHalf table rounds final →
    ftableHalveUntilTotalBelowLimit table limit = final ∧ FtableHalved table rounds final ∧ final.total < limit ∧
      IsLeast {k | table.halvedSum k < limit.toNat} rounds

theorem FtableHalvesToLimit.of_lt {table : Ftable} {limit : SymbolFrequency} (hsum : table.Exact)
    (htotal : table.total.toNat < 2 ^ 63) (hlimit : table.length < 2 ^ 15) : FtableHalvesToLimit table limit := by
  refine ⟨ftableHalve_ends_iff hsum htotal hlimit limit, fun rounds final h => ?_⟩
  have hrounds := ftableHalve_rounds_le hsum htotal hlimit h
  have hhalved := ftableDivideByHalf_iterate hsum htotal hlimit rounds
  have hleast := ftableHalve_least hsum htotal hlimit h
  rw [h.final_eq] at hhalved
  refine ⟨ftableHalveRounds_of_while h (Nat.le_succ_of_le hrounds), hhalved, ?_, hleast⟩
  rw [UInt64.lt_iff_toNat_lt, hhalved.total]
  exact hleast.1

/-- Below the limit there is nothing to do. -/
theorem FtableHalvesToLimit.of_below {table : Ftable} {limit : SymbolFrequency} (hsum : table.Exact)
    (htotal : table.total.toNat < 2 ^ 63) (hbelow : table.total < limit) : FtableHalvesToLimit table limit := by
  have hzero := (FtableHalved.zero hsum).total
  have hdone : ftableIsNotBelow limit table = false :=
    decide_eq_false (by rw [ge_iff_le, UInt64.not_le]; exact hbelow)
  have hsumBelow : table.halvedSum 0 < limit.toNat := by
    rw [← hzero]
    exact UInt64.lt_iff_toNat_lt.mp hbelow
  refine ⟨⟨fun _ => (ftable_halvedSum_lt_iff hsum htotal _).mp ⟨0, hsumBelow⟩, fun _ => ⟨0, table, .zero hdone⟩⟩,
    fun rounds final h => ?_⟩
  cases rounds with
  | zero =>
    obtain ⟨-, rfl⟩ := h.of_zero
    exact ⟨ftableHalveRounds_of_while h (Nat.zero_le _), .zero hsum, hbelow, hsumBelow, fun k _ => Nat.zero_le k⟩
  | succ rounds =>
    obtain ⟨hgoing, -⟩ := h.of_succ
    rw [hdone] at hgoing
    cases hgoing

/-- No total is below zero. -/
theorem FtableHalvesToLimit.of_zero (table : Ftable) : FtableHalvesToLimit table 0 := by
  have hnever : ∀ rounds final, ¬ WhileEnds (ftableIsNotBelow 0) ftableDivideByHalf table rounds final := by
    intro rounds final h
    have hdone := of_decide_eq_false h.done
    exact hdone (UInt64.le_iff_toNat_le.mpr (Nat.zero_le _))
  refine ⟨⟨fun hends => ?_, fun hused => absurd hused (Nat.not_lt_zero _)⟩, fun rounds final h => absurd h (hnever _ _)⟩
  obtain ⟨rounds, final, h⟩ := hends
  exact absurd h (hnever rounds final)

/-- A round over 32768 symbols leaves a total of zero. -/
theorem ftableDivideByHalf_total_wraps {table : Ftable} (h : table.length = 2 ^ 15) :
    (ftableDivideByHalf table).total = 0 := by
  rw [ftableDivideByHalf, ftableGetSymbolLimit_wraps_toNat h]
  rfl

/-- So the loop always ends after one, which is no halving. -/
theorem FtableHalvesToLimit.not_of_wraps {table : Ftable} {limit : SymbolFrequency} (hsum : table.Exact)
    (hwraps : table.length = 2 ^ 15) (hfull : limit ≤ table.total) (hpos : 0 < limit) :
    ¬ FtableHalvesToLimit table limit := by
  intro h
  have hround := ftableDivideByHalf_total_wraps hwraps
  have hends : WhileEnds (ftableIsNotBelow limit) ftableDivideByHalf table 1 (ftableDivideByHalf table) :=
    .turn (decide_eq_true hfull) (.zero (decide_eq_false (by rw [hround, ge_iff_le, UInt64.not_le]; exact hpos)))
  obtain ⟨-, hhalved, -⟩ := h.final_eq 1 _ hends
  have hsumZero := hhalved.total
  rw [hround] at hsumZero
  -- no frequency becomes zero by a division that rounds up, so all of them were
  have hfreq : ∀ symbol ∈ range table.length, table.freq symbol = 0 := by
    intro symbol hs
    by_contra hne
    have hone := CeilHalving.ceilDiv_pos (Nat.two_pow_pos 1) (Nat.pos_of_ne_zero hne)
    have hle := Finset.single_le_sum (fun x _ => Nat.zero_le (table.freq x ⌈/⌉ 2 ^ 1)) hs
    unfold Ftable.halvedSum at hsumZero
    rw [← hsumZero] at hle
    exact absurd hle (Nat.not_le.mpr hone)
  have htotal : table.total.toNat = 0 := by
    rw [← hsum, Ftable.below]
    exact Finset.sum_eq_zero hfreq
  rw [UInt64.le_iff_toNat_le, htotal] at hfull
  exact absurd (UInt64.lt_iff_toNat_lt.mp hpos) (Nat.not_lt.mpr hfull)

/-- **When halving ends exactly when it can**: for every table of at most
32767 symbols, and for the one longer table if nothing is to be halved. -/
theorem ftableHalve_endsExactlyWhen_iff (table : Ftable) (limit : SymbolFrequency) (hlength : table.length ≤ 2 ^ 15)
    (hsum : table.Exact) (htotal : table.total.toNat < 2 ^ 63) :
    FtableHalvesToLimit table limit ↔ table.length < 2 ^ 15 ∨ table.total < limit ∨ limit = 0 := by
  constructor
  · intro h
    rcases Nat.lt_or_eq_of_le hlength with hlt | hwraps
    · exact .inl hlt
    · by_contra hnot
      simp only [not_or, UInt64.not_lt] at hnot
      obtain ⟨-, hfull, hne⟩ := hnot
      exact FtableHalvesToLimit.not_of_wraps hsum hwraps hfull (UInt64.pos_iff_ne_zero.mpr hne) h
  · rintro (hlt | hbelow | rfl)
    · exact .of_lt hsum htotal hlt
    · exact .of_below hsum htotal hbelow
    · exact .of_zero table

def ftableHalvingTable : Ftable :=
  { frequencies := ftreeFillFromSourceFrequencies (ftreeInit 5) [2, 1, 3, 6, 1] 0, total := 13, isEofIncluded := false }

/-- One round for the limit 10; no end for 5, the number of the symbols. -/
theorem ftableHalve_endsExactlyWhen_five :
    FtableHalved ftableHalvingTable 1 (ftableHalveUntilTotalBelowLimit ftableHalvingTable 10) ∧
      ¬ ∃ rounds final, WhileEnds (ftableIsNotBelow 5) ftableDivideByHalf ftableHalvingTable rounds final := by
  have hsum : ftableHalvingTable.Exact := by
    unfold Ftable.Exact
    decide
  constructor
  · have hends : WhileEnds (ftableIsNotBelow 10) ftableDivideByHalf ftableHalvingTable 1
        (ftableDivideByHalf ftableHalvingTable) := .turn (by decide) (.zero (by decide))
    have hall := (ftableHalve_endsExactlyWhen_iff ftableHalvingTable 10 (by decide) hsum (by decide)).mpr (.inl (by decide))
    obtain ⟨hfinal, hhalved, -⟩ := hall.final_eq _ _ hends
    rw [hfinal]
    exact hhalved
  · rw [((ftableHalve_endsExactlyWhen_iff ftableHalvingTable 5 (by decide) hsum (by decide)).mpr (.inl (by decide))).ends_iff]
    unfold Ftable.usedSymbols
    decide

/-- Over 32768 symbols that occurred once each, a limit of 32768 is too low:
the loop should not end, but it does after one round. -/
theorem ftableHalve_endsExactlyWhen_fails :
    ftableLargest.Exact ∧ ftableLargest.total.toNat < 2 ^ 63 ∧ ¬ FtableHalvesToLimit ftableLargest 32768 := by
  obtain ⟨hok, hlength, htotal, -⟩ := ftableLargest_spec
  refine ⟨hok.exact, hok.total_lt, FtableHalvesToLimit.not_of_wraps hok.exact hlength ?_ (by decide)⟩
  rw [UInt64.le_iff_toNat_le, htotal]
  decide

end Scomp
