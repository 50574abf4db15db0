/-
Tables filled from given frequencies (`ftable_fill_from_frequencies`).

Whatever the table held before, it holds the given frequencies then, and EOF
once if it has that symbol; with EOF they are halved until there is room to
count it. Filled with an input's own counts, a table codes it as short as any
fixed table can.
-/
import Scomp.ArithmeticCoding.AdaptiveLength
import Scomp.ArithmeticCoding.TableHalving
import Scomp.DataStructures.FenwickArray

namespace Scomp

open Finset (range)
open AdaptiveCode

/-- As many frequencies are read as the table has symbols, EOF not among
them. -/
def ftableFillFromFrequencies (table : Ftable) (frequencies : List SymbolFrequency) : Ftable :=
  let length := ftableGetSymbolCount table
  let tree := ftreeFillFromSourceFrequencies table.frequencies frequencies (if table.isEofIncluded then 1 else 0)
  let table := { table with frequencies := tree, total := (frequencies.take length).foldl (· + ·) 0 }
  if table.isEofIncluded then ftableIncrement table length else table

/-! ## Before EOF is counted -/

/-- The table with the frequencies in it and their sum. -/
def Ftable.filledWith (table : Ftable) (frequencies : List SymbolFrequency) : Ftable :=
  { table with
    frequencies := ftreeFillFromSourceFrequencies table.frequencies frequencies (if table.isEofIncluded then 1 else 0)
    total := (frequencies.take (ftableGetSymbolCount table)).foldl (· + ·) 0 }

theorem ftableFillFromFrequencies_eq (table : Ftable) (frequencies : List SymbolFrequency) :
    ftableFillFromFrequencies table frequencies =
      if table.isEofIncluded then ftableIncrement (table.filledWith frequencies) (ftableGetSymbolCount table)
      else table.filledWith frequencies := rfl

section

variable {table : Ftable} {frequencies : List SymbolFrequency}

@[simp] theorem Ftable.filledWith_limit (table : Ftable) (frequencies : List SymbolFrequency) :
    (table.filledWith frequencies).length = table.length := by
  rw [Ftable.length, Ftable.length, ftreeLength, ftreeLength, Ftable.filledWith, ftreeFill_size]

/-- The symbols have their frequencies, EOF none. -/
theorem Ftable.filledWith_freq (hlimit : table.length < 2 ^ 15)
    (hlength : frequencies.length = ftableGetSymbolCount table) {x : Nat} (hx : x < table.length) :
    (table.filledWith frequencies).freq x = (frequencies.map UInt64.toNat).getD x 0 := by
  have hcount := ftableGetSymbolCount_eq hlimit
  have hroom : ftreeLength table.frequencies - (if table.isEofIncluded then 1 else 0) = frequencies.length := by
    rw [hlength, hcount]
    rfl
  have hfill := @FtreeRefines.fill table.frequencies frequencies (if table.isEofIncluded then 1 else 0)
    (Nat.le_of_eq hroom)
  have hlimit : x < (table.filledWith frequencies).length := by
    rw [Ftable.filledWith_limit]
    exact hx
  rw [Ftable.freq, ftableGetFrequency, Ftable.filledWith, hfill.get x hlimit, plainFill, hroom, List.take_length,
    List.getD_eq_getElem?_getD, List.getD_eq_getElem?_getD, List.getElem?_map]
  by_cases hgiven : x < frequencies.length
  · rw [List.getElem?_append_left hgiven, List.getElem?_eq_getElem hgiven]
    rfl
  · rw [List.getElem?_append_right (Nat.le_of_not_lt hgiven), List.getElem?_eq_none (Nat.le_of_not_lt hgiven),
      List.getElem?_replicate]
    split <;> rfl

theorem sum_getD (values : List Nat) {n : Nat} (hn : values.length ≤ n) :
    ∑ x ∈ range n, values.getD x 0 = values.sum := by
  induction values generalizing n with
  | nil => simp
  | cons value values ih =>
    obtain ⟨n, rfl⟩ := Nat.exists_eq_add_of_lt (show 0 < n by rw [List.length_cons] at hn; omega)
    rw [List.length_cons] at hn
    rw [Nat.zero_add, Finset.sum_range_succ']
    simp only [List.getD_cons_succ, List.getD_cons_zero, List.sum_cons]
    rw [ih (by omega), Nat.add_comm]

/-- **The total is the sum of the frequencies.** -/
theorem Ftable.filledWith_exact (hlimit : table.length < 2 ^ 15)
    (hlength : frequencies.length = ftableGetSymbolCount table)
    (hsum : (frequencies.map UInt64.toNat).sum < 2 ^ 64) :
    (table.filledWith frequencies).Exact ∧
      (table.filledWith frequencies).total.toNat = (frequencies.map UInt64.toNat).sum := by
  have hle : frequencies.length ≤ table.length := by
    rw [hlength, ftableGetSymbolCount_eq hlimit]
    exact Nat.sub_le _ _
  have htotal : (table.filledWith frequencies).total.toNat = (frequencies.map UInt64.toNat).sum := by
    rw [Ftable.filledWith, ← hlength, List.take_length, foldl_add_toNat (by simpa using hsum)]
    exact Nat.zero_add _
  refine ⟨?_, htotal⟩
  rw [Ftable.Exact, htotal, Ftable.filledWith_limit, Ftable.below,
    Finset.sum_congr rfl fun x hx => Ftable.filledWith_freq hlimit hlength (Finset.mem_range.mp hx),
    sum_getD _ (by rw [List.length_map]; exact hle)]

end

/-! ## With EOF -/

/-- Halving any exact table for the coder: the fewest rounds that make room. -/
theorem ftableHalve_forCoder {table : Ftable} (hsum : table.Exact) (htotal : table.total.toNat < 2 ^ 63)
    (hlimit : table.length < 2 ^ 15) :
    ∃ rounds halved, ftableHalveUntilTotalBelowLimit table ACOD_MAX_TOTAL = halved ∧ FtableHalved table rounds halved ∧
      halved.total < ACOD_MAX_TOTAL ∧ IsLeast {k | table.halvedSum k < ACOD_MAX_TOTAL.toNat} rounds := by
  have hmax : ACOD_MAX_TOTAL.toNat = 2 ^ 30 + 2 := rfl
  have hused : table.usedSymbols < ACOD_MAX_TOTAL.toNat := by
    refine Nat.lt_of_le_of_lt (Finset.card_filter_le _ _) ?_
    rw [Finset.card_range]
    omega
  obtain ⟨rounds, halved, hends⟩ := (ftableHalve_ends_iff hsum htotal hlimit ACOD_MAX_TOTAL).mpr hused
  have hhalved := ftableDivideByHalf_iterate hsum htotal hlimit rounds
  have hleast := ftableHalve_least hsum htotal hlimit hends
  have hrounds := ftableHalve_rounds_le hsum htotal hlimit hends
  rw [hends.final_eq] at hhalved
  refine ⟨rounds, halved, ftableHalveRounds_of_while hends (Nat.le_succ_of_le hrounds), hhalved, ?_, hleast⟩
  rw [UInt64.lt_iff_toNat_lt, hhalved.total]
  exact hleast.1

/-- **What a table holds after it is filled**, whatever it held before.
Without EOF the frequencies themselves, ready for the coder if their sum is;
with EOF the frequencies divided by the smallest power of two that leaves
room to count it, rounded up, and EOF once. -/
theorem ftable_fill_exact {table : Ftable} {frequencies : List SymbolFrequency}
    (hlength : frequencies.length = ftableGetSymbolCount table) (hlimit : table.length < 2 ^ 15)
    (heof : table.isEofIncluded = true → 0 < table.length)
    (hsum : (frequencies.map UInt64.toNat).sum < 2 ^ 63) :
    let filled := ftableFillFromFrequencies table frequencies
    let given := fun x => (frequencies.map UInt64.toNat).getD x 0
    filled.Exact ∧ filled.length = table.length ∧
      (table.isEofIncluded = false → (∀ x < table.length, filled.freq x = given x) ∧
        (FtableOK filled ↔ (frequencies.map UInt64.toNat).sum ≤ ACOD_MAX_TOTAL.toNat)) ∧
      (table.isEofIncluded = true → FtableOK filled ∧
        filled.freq (ftableGetEofSymbol table) = 1 ∧
        ∃ rounds, IsLeast {k | ∑ x ∈ range frequencies.length, given x ⌈/⌉ 2 ^ k < ACOD_MAX_TOTAL.toNat} rounds ∧
          ∀ x < frequencies.length, filled.freq x = given x ⌈/⌉ 2 ^ rounds) := by
  intro filled given
  obtain ⟨hexact, htotal⟩ := @Ftable.filledWith_exact table frequencies hlimit hlength (by omega)
  have hfreq : ∀ x < table.length, (table.filledWith frequencies).freq x = given x := fun x hx =>
    Ftable.filledWith_freq hlimit hlength hx
  have hcount := ftableGetSymbolCount_eq hlimit
  cases hincluded : table.isEofIncluded with
  | false =>
    have hfilled : filled = table.filledWith frequencies := by
      rw [show filled = ftableFillFromFrequencies table frequencies from rfl, ftableFillFromFrequencies_eq, hincluded]
      rfl
    rw [hfilled]
    refine ⟨hexact, Ftable.filledWith_limit _ _, fun _ => ⟨hfreq, ?_⟩, fun he => by cases he⟩
    rw [← htotal, ← UInt64.le_iff_toNat_le]
    exact ⟨fun hok => hok.le, fun hle => ⟨hexact, hle⟩⟩
  | true =>
    have hpos := heof hincluded
    rw [hincluded, if_pos rfl, ← hlength] at hcount
    have hfilled : filled = ftableIncrement (table.filledWith frequencies) frequencies.length := by
      rw [show filled = ftableFillFromFrequencies table frequencies from rfl, ftableFillFromFrequencies_eq, hincluded,
        hlength]
      rfl
    obtain ⟨rounds, halved, hhalve, hhalved, hroom, hleast⟩ :=
      ftableHalve_forCoder hexact (by omega) (by rw [Ftable.filledWith_limit]; exact hlimit)
    have hroom' : halved.total.toNat < 2 ^ 30 + 2 := UInt64.lt_iff_toNat_lt.mp hroom
    have hok : FtableOK halved := ⟨hhalved.sum, UInt64.le_iff_toNat_le.mpr (Nat.le_of_lt hroom')⟩
    have hlen : halved.length = table.length := by
      rw [hhalved.limit, Ftable.filledWith_limit]
    have hhalvedFreq : ∀ x < table.length, halved.freq x = given x ⌈/⌉ 2 ^ rounds := fun x hx => by
      rw [hhalved.freq x (by rw [Ftable.filledWith_limit]; exact hx), hfreq x hx]
    -- halving again changes nothing, so the increment is one of the halved table
    have hincrement : filled = ftableIncrement halved frequencies.length := by
      have hagain : ftableHalveUntilTotalBelowLimit halved ACOD_MAX_TOTAL = halved := by
        rw [ftableHalveUntilTotalBelowLimit, ftableHalveRounds, if_neg]
        rw [ge_iff_le, UInt64.le_iff_toNat_le, Nat.not_le]
        exact hroom'
      rw [hfilled, ftableIncrement, hhalve, ftableIncrement, hagain]
    obtain ⟨hokFilled, hlenFilled, -⟩ := @ftableIncrement_spec halved frequencies.length hok (by rw [hlen]; exact hlimit)
      (show frequencies.length < halved.length by rw [hlen]; omega)
    obtain ⟨-, hcounted⟩ := ftableIncrement_exact frequencies.length hok hroom'
    have hnone : given frequencies.length = 0 := by
      rw [show given frequencies.length = (frequencies.map UInt64.toNat).getD frequencies.length 0 from rfl,
        List.getD_eq_default _ _ (by simp)]
    rw [← hincrement] at hokFilled hlenFilled hcounted
    rw [hlen] at hlenFilled hcounted
    refine ⟨hokFilled.exact, hlenFilled, fun he => (by cases he), fun _ => ⟨hokFilled, ?_, rounds, ?_, fun x hx => ?_⟩⟩
    · rw [ftableGetEofSymbol_eq (Nat.le_of_lt hlimit), ← hcount, hcounted _ (by omega), if_pos rfl,
        hhalvedFreq _ (by omega), hnone, zero_ceilDiv]
    · have hsums : ∀ k, (table.filledWith frequencies).halvedSum k =
          ∑ x ∈ range frequencies.length, given x ⌈/⌉ 2 ^ k := fun k => by
        rw [Ftable.halvedSum, Ftable.filledWith_limit, show table.length = frequencies.length + 1 by omega,
          Finset.sum_range_succ, hfreq _ (by omega), hnone, zero_ceilDiv, Nat.add_zero]
        exact Finset.sum_congr rfl fun x hx => by
          have hx := Finset.mem_range.mp hx
          rw [hfreq x (by omega)]
      simp only [hsums] at hleast
      exact hleast
    · rw [hcounted x (by omega), if_neg (by omega), hhalvedFreq x (by omega), Nat.add_zero]

/-- Three symbols and EOF, over counts of one. -/
theorem ftable_fill_exact_three :
    let filled := ftableFillFromFrequencies (ftableInit 3 (FTABLE_INCLUDE_EOF + FTABLE_INIT_ONE)) [5, 0, 7]
    FtableOK filled ∧ filled.freq (ftableGetEofSymbol (ftableInit 3 (FTABLE_INCLUDE_EOF + FTABLE_INIT_ONE))) = 1 := by
  obtain ⟨-, -, -, heof⟩ := @ftable_fill_exact (ftableInit 3 (FTABLE_INCLUDE_EOF + FTABLE_INIT_ONE)) [5, 0, 7] (by decide)
    (by decide) (by decide) (by decide)
  obtain ⟨hok, hone, -⟩ := heof (by decide)
  exact ⟨hok, hone⟩

/-! ## An input's own counts -/

/-- How often each symbol occurs. -/
def symbolCounts (length : Nat) (message : List Symbol) : List SymbolFrequency :=
  (List.range length).map fun symbol => UInt64.ofNat (message.count symbol)

/-- The message, and EOF where the table has it. -/
def staticInput (table : Ftable) (message : List Symbol) : List Symbol :=
  message ++ if table.isEofIncluded then [ftableGetEofSymbol table] else []

section

variable {table : Ftable} {message : List Symbol}

theorem symbolCounts_toNat (length : Nat) (hmessage : message.length < 2 ^ 64) :
    (symbolCounts length message).map UInt64.toNat = (List.range length).map message.count := by
  rw [symbolCounts, List.map_map]
  refine List.map_congr_left fun symbol _ => ?_
  have hle := List.count_le_length (a := symbol) (l := message)
  exact UInt64.toNat_ofNat_of_lt (by show message.count symbol < 2 ^ 64; omega)

theorem symbolCounts_sum {length : Nat} (hmessage : message.length < 2 ^ 64) (hs : ∀ symbol ∈ message, symbol < length) :
    ((symbolCounts length message).map UInt64.toNat).sum = message.length := by
  rw [symbolCounts_toNat length hmessage, sum_map_range]
  exact sum_list_count fun symbol hmem => Finset.mem_range.mpr (hs symbol hmem)

/-- **The table counts its input.** -/
theorem ftableFill_counts (hlimit : table.length < 2 ^ 15)
    (heof : table.isEofIncluded = true → 0 < table.length)
    (hs : ∀ symbol ∈ message, symbol < ftableGetSymbolCount table) (hmessage : message.length ≤ 2 ^ 29) :
    let filled := ftableFillFromFrequencies table (symbolCounts (ftableGetSymbolCount table) message)
    FtableOK filled ∧ filled.length = table.length ∧
      filled.total.toNat = (staticInput table message).length ∧
      ∀ x < table.length, filled.freq x = (staticInput table message).count x := by
  intro filled
  have hlength : (symbolCounts (ftableGetSymbolCount table) message).length = ftableGetSymbolCount table := by
    rw [symbolCounts, List.length_map, List.length_range]
  have hsum := @symbolCounts_sum message _ (by omega) hs
  obtain ⟨hexact, htotal⟩ := @Ftable.filledWith_exact table _ hlimit hlength (by omega)
  have hcount := ftableGetSymbolCount_eq hlimit
  have hfreq : ∀ x < table.length,
      (table.filledWith (symbolCounts (ftableGetSymbolCount table) message)).freq x = message.count x := by
    intro x hx
    rw [Ftable.filledWith_freq hlimit hlength hx, symbolCounts_toNat _ (by omega), List.getD_eq_getElem?_getD, List.getElem?_map]
    by_cases hgiven : x < ftableGetSymbolCount table
    · rw [List.getElem?_range hgiven]
      rfl
    · rw [List.getElem?_eq_none (by rw [List.length_range]; omega)]
      exact (List.count_eq_zero.mpr fun hmem => hgiven (hs x hmem)).symm
  have hok : FtableOK (table.filledWith (symbolCounts (ftableGetSymbolCount table) message)) :=
    ⟨hexact, UInt64.le_iff_toNat_le.mpr (by rw [htotal, hsum, show ACOD_MAX_TOTAL.toNat = 2 ^ 30 + 2 from rfl]; omega)⟩
  cases hincluded : table.isEofIncluded with
  | false =>
    have hfilled : filled = table.filledWith (symbolCounts (ftableGetSymbolCount table) message) := by
      rw [show filled = ftableFillFromFrequencies table _ from rfl, ftableFillFromFrequencies_eq, hincluded]
      rfl
    have hinput : staticInput table message = message := by simp [staticInput, hincluded]
    rw [hfilled, hinput]
    exact ⟨hok, Ftable.filledWith_limit _ _, by rw [htotal, hsum], hfreq⟩
  | true =>
    have hpos := heof hincluded
    have heofEq := ftableGetEofSymbol_eq (Nat.le_of_lt hlimit)
    have hfilled : filled = ftableIncrement (table.filledWith (symbolCounts (ftableGetSymbolCount table) message))
        (ftableGetEofSymbol table) := by
      rw [show filled = ftableFillFromFrequencies table _ from rfl, ftableFillFromFrequencies_eq, hincluded,
        heofEq, hcount, hincluded]
      rfl
    have hinput : staticInput table message = message ++ [ftableGetEofSymbol table] := by simp [staticInput, hincluded]
    have hlen := Ftable.filledWith_limit table (symbolCounts (ftableGetSymbolCount table) message)
    obtain ⟨hokFilled, hlenFilled, -⟩ := @ftableIncrement_spec _ (ftableGetEofSymbol table) hok (by rw [hlen]; exact hlimit)
      (by rw [hlen, heofEq]; exact Nat.sub_lt hpos Nat.one_pos)
    obtain ⟨htotalFilled, hcounted⟩ := ftableIncrement_exact (ftableGetEofSymbol table) hok (by rw [htotal, hsum]; omega)
    rw [← hfilled] at hokFilled hlenFilled hcounted htotalFilled
    rw [hlen] at hlenFilled hcounted
    refine ⟨hokFilled, hlenFilled, by rw [htotalFilled, htotal, hsum, hinput, List.length_append]; rfl, fun x hx => ?_⟩
    rw [hcounted x hx, hfreq x hx, hinput, List.count_append, List.count_singleton]
    simp only [beq_iff_eq, eq_comm (a := x)]

theorem staticInput_lt (hlimit : table.length < 2 ^ 15) (heof : table.isEofIncluded = true → 0 < table.length)
    (hs : ∀ symbol ∈ message, symbol < ftableGetSymbolCount table) :
    ∀ symbol ∈ staticInput table message, symbol < table.length := by
  intro symbol hmem
  have hcount := ftableGetSymbolCount_eq hlimit
  rcases List.mem_append.mp hmem with hmem | hmem
  · exact Nat.lt_of_lt_of_le (hs symbol hmem) (by omega)
  · cases hincluded : table.isEofIncluded with
    | false =>
      rw [hincluded] at hmem
      cases hmem
    | true =>
      rw [hincluded, if_pos rfl, List.mem_singleton] at hmem
      rw [hmem, ftableGetEofSymbol_eq (Nat.le_of_lt hlimit)]
      exact Nat.sub_lt (heof hincluded) Nat.one_pos

end

/-- The empirical entropy of an input, times its length. -/
noncomputable def inputEntropy (input : List Symbol) : ℝ :=
  (input.map fun symbol => IntervalCoding.log2 (input.length / input.count symbol)).sum

/-- **Two passes reach the entropy.** With a table filled with the input's
own counts the output is as long as the input's entropy, up to rounding and
two bits at the end, and so no longer than with any fixed table. -/
theorem acod_static_output_length {staleBytes staleFixed : List Byte} (hsize : 0 < staleBytes.length)
    (hsizeFixed : 0 < staleFixed.length) {table : Ftable} {message : List Symbol}
    (hlimit : table.length < 2 ^ 15) (heof : table.isEofIncluded = true → 0 < table.length)
    (hs : ∀ symbol ∈ message, symbol < ftableGetSymbolCount table) (hmessage : message.length ≤ 2 ^ 29) :
    let input := staticInput table message
    let ownInput := input.map fun symbol =>
      (ftableFillFromFrequencies table (symbolCounts (ftableGetSymbolCount table) message), symbol)
    let own := acodEncodeAll (acodEncoderInit (writerInit staleBytes)) ownInput
    let length : ℝ := (acodEncoderDeinit own).bits.length
    inputEntropy input - acodRoundingBits ownInput ≤ length ∧
      length ≤ inputEntropy input + acodRoundingBits ownInput + 2 ∧
      ∀ fixed, FtableOK fixed → fixed.length = table.length →
        (∀ symbol ∈ input, 0 < fixed.freq symbol ∧ AcodShareOfTwo fixed symbol) →
        let fixedInput := input.map fun symbol => (fixed, symbol)
        let other := acodEncodeAll (acodEncoderInit (writerInit staleFixed)) fixedInput
        length ≤ (acodEncoderDeinit other).bits.length + acodRoundingBits ownInput + acodRoundingBits fixedInput + 2 := by
  intro input ownInput own length
  obtain ⟨hok, hlen, htotal, hfreq⟩ := ftableFill_counts hlimit heof hs hmessage
  have hinput : ∀ symbol ∈ input, symbol < table.length := staticInput_lt hlimit heof hs
  have hshort : input.length ≤ 2 ^ 29 + 1 := by
    rw [show input = staticInput table message from rfl, staticInput, List.length_append]
    split <;> simp <;> omega
  generalize hfilled : ftableFillFromFrequencies table _ = filled at hok hlen htotal hfreq
  have hownInput : ownInput = input.map fun symbol => (filled, symbol) := by rw [← hfilled]
  have hpairs : ∀ pair ∈ ownInput, Encodable pair.1 pair.2 ∧ AcodShareOfTwo pair.1 pair.2 := by
    intro pair hmem
    rw [hownInput] at hmem
    obtain ⟨symbol, hsymbol, rfl⟩ := List.mem_map.mp hmem
    have hpos : 0 < filled.freq symbol := by
      rw [hfreq symbol (hinput symbol hsymbol)]
      exact List.count_pos_iff.mpr hsymbol
    exact ⟨⟨hok, by rw [hlen]; exact hinput symbol hsymbol, hpos⟩, acodShareOfTwo_of_total_le hpos (by rw [htotal]; exact hshort)⟩
  obtain ⟨hlower, hupper⟩ := acodEncodeAll_length (.init (.init hsize)) (fun pair hmem => (hpairs pair hmem).1)
    fun pair hmem => (hpairs pair hmem).2
  rw [acodEncoderInit_cost (writerInit_bits staleBytes), zero_add] at hlower hupper
  have hideal : acodIdealBits ownInput = inputEntropy input := by
    rw [hownInput, acodIdealBits, inputEntropy, List.map_map]
    refine congrArg List.sum (List.map_congr_left fun symbol hmem => ?_)
    simp only [Function.comp]
    rw [htotal, hfreq symbol (hinput symbol hmem)]
  rw [hideal] at hlower hupper
  refine ⟨hlower, hupper, ?_⟩
  intro fixed hfixed hsame hallowed fixedInput other
  have hfixedPairs : ∀ pair ∈ fixedInput, Encodable pair.1 pair.2 ∧ AcodShareOfTwo pair.1 pair.2 := by
    intro pair hmem
    obtain ⟨symbol, hsymbol, rfl⟩ := List.mem_map.mp hmem
    obtain ⟨hpos, hshare⟩ := hallowed symbol hsymbol
    exact ⟨⟨hfixed, by rw [hsame]; exact hinput symbol hsymbol, hpos⟩, hshare⟩
  obtain ⟨hfixedLower, -⟩ := acodEncodeAll_length (.init (.init hsizeFixed)) (fun pair hmem => (hfixedPairs pair hmem).1)
    fun pair hmem => (hfixedPairs pair hmem).2
  rw [acodEncoderInit_cost (writerInit_bits staleFixed), zero_add] at hfixedLower
  have hfixedIdeal := acodIdealBits_fixed hfixed.exact input
  have hbest := @fixedBits_count_le _ _ (range table.length) fixed.freq input fun symbol hmem =>
    ⟨Finset.mem_range.mpr (hinput symbol hmem), (hallowed symbol hmem).1⟩
  have hentropy : fixedBits (range table.length) input.count input = inputEntropy input := by
    rw [fixedBits, inputEntropy]
    refine congrArg List.sum (List.map_congr_left fun symbol _ => ?_)
    rw [symbolBits, sum_list_count fun symbol hmem => Finset.mem_range.mpr (hinput symbol hmem)]
  rw [hsame] at hfixedIdeal
  rw [hentropy, ← hfixedIdeal] at hbest
  linarith

/-- Three symbols, one of them twice, and EOF. -/
theorem acod_static_output_length_three :
    let table := ftableInit 3 (FTABLE_INCLUDE_EOF + FTABLE_INIT_ONE)
    let input := staticInput table [0, 2, 2]
    let ownInput := input.map fun symbol =>
      (ftableFillFromFrequencies table (symbolCounts (ftableGetSymbolCount table) [0, 2, 2]), symbol)
    let own := acodEncodeAll (acodEncoderInit (writerInit [0xaa])) ownInput
    ((acodEncoderDeinit own).bits.length : ℝ) ≤ inputEntropy input + acodRoundingBits ownInput + 2 :=
  (@acod_static_output_length [0xaa] [0xaa] (by decide) (by decide)
    (ftableInit 3 (FTABLE_INCLUDE_EOF + FTABLE_INIT_ONE)) [0, 2, 2] (by decide) (by decide) (by decide) (by decide)).2.1

end Scomp
