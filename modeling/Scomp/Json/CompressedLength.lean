/-
How many bits the documents take.

Each table of the compressor codes its own symbols as if they were alone, so
all of them together are no longer than with any fixed frequencies, table by
table, but for a logarithm for each symbol of each table.
-/
import Scomp.ArithmeticCoding.AdaptiveLength
import Scomp.Json.CodedTables

namespace Scomp

open Finset (range)
open AdaptiveCode

/-- What the tables count, each symbol with the place of its table. -/
def countedInput (coded : List CodedSymbol) : List (TableRef × Symbol) :=
  (coded.filter CodedSymbol.isCounted).map fun c => (c.ref, c.symbol)

def codedPlaces (coded : List CodedSymbol) : Finset TableRef := (coded.map CodedSymbol.ref).toFinset

/-! ## Fresh tables -/

/-- Every table starts with one of each of its symbols. -/
theorem tableAt_init (ref : TableRef) :
    ∃ length initFlags, tableAt jsonCompressionBaseInit strcompInitBase ref = ftableInit length initFlags ∧
      initFlags &&& FTABLE_INIT_ONE ≠ 0 ∧ ftableInitLimit length initFlags = ref.limit ∧ length < 2 ^ 14 := by
  have huint : ∀ (maxValue : UInt64) (table : UintTable), ∃ length,
      (uintFreqTablesInit maxValue).get table = ftableInit length (FTABLE_INIT_ONE ||| FTABLE_EXCLUDE_EOF) ∧
        length = (if table = .length then ((mostSignificantBitIndex maxValue + 3) / 4).toNat + 1 else 16) := by
    intro maxValue table
    cases table with
    | length => exact ⟨((mostSignificantBitIndex maxValue + 3) / 4).toNat + 1, rfl, rfl⟩
    | parts | lastPart => exact ⟨16, rfl, rfl⟩
  match ref with
  | .token state => exact ⟨JSON_TOKEN_MAX + 1, FTABLE_INIT_ONE ||| FTABLE_INCLUDE_EOF, rfl, by decide, rfl, by decide⟩
  | .whitespaces =>
    exact ⟨JTOK_WHITESPACE_CHARS.length, FTABLE_INIT_ONE ||| FTABLE_EXCLUDE_EOF, rfl, by decide, rfl, by decide⟩
  | .string .main =>
    refine ⟨STRCOMP_BACKREFERENCE_SYMBOL + 1, FTABLE_INIT_ONE ||| FTABLE_INCLUDE_EOF, ?_, by decide, rfl, by decide⟩
    dsimp only [tableAt, StringCompressionBase.get, strcompInitBase]
  | .number part table =>
    obtain ⟨length, htable, hlength⟩ := huint part.maxValue table
    refine ⟨length, _, htable, by decide, ?_, ?_⟩ <;> rw [hlength] <;> cases part <;> cases table <;> decide
  | .string (.offset table) =>
    obtain ⟨length, htable, hlength⟩ := huint (UInt64.ofNat BSM_LENGTH) table
    refine ⟨length, _, htable, by decide, ?_, ?_⟩ <;> rw [hlength] <;> cases table <;> decide
  | .string (.length table) =>
    obtain ⟨length, htable, hlength⟩ := huint (UInt64.ofNat BSM_MATCH_LENGTH_LIMIT) table
    refine ⟨length, _, htable, by decide, ?_, ?_⟩ <;> rw [hlength] <;> cases table <;> decide

/-- What the coded symbols need of the tables. -/
structure TablesReady (tables : TableRef → Ftable) (bound : Nat) : Prop where
  ready : ∀ ref, FtableReady (tables ref) ref.limit
  total : ∀ ref, (tables ref).total.toNat ≤ bound
  parts : ∀ ref, ref.isParts = true → ∀ x < ref.limit, (tables ref).freq x = 1

theorem TableRef.limit_le (ref : TableRef) : ref.limit ≤ 258 := by
  unfold TableRef.limit
  split
  case h_3 part => cases part <;> decide
  all_goals decide

theorem tableAt_init_one (ref : TableRef) :
    ∀ x < ref.limit, (tableAt jsonCompressionBaseInit strcompInitBase ref).freq x = 1 := by
  obtain ⟨length, initFlags, htable, hone, hlimit, -⟩ := tableAt_init ref
  have hle := ref.limit_le
  rw [htable, ← hlimit]
  exact ftableInit_one hone (by omega)

theorem TablesReady.init : TablesReady (tableAt jsonCompressionBaseInit strcompInitBase) 258 := by
  have hready : ∀ ref, FtableReady (tableAt jsonCompressionBaseInit strcompInitBase ref) ref.limit := by
    intro ref
    obtain ⟨length, initFlags, htable, hone, hlimit, hlength⟩ := tableAt_init ref
    have hle := ref.limit_le
    have hinit := (ftableInit_ready length initFlags hone (show ftableInitLimit length initFlags < 2 ^ 15 by omega)).1
    change FtableReady _ (ftableInitLimit length initFlags) at hinit
    rw [htable, ← hlimit]
    exact hinit
  refine ⟨hready, fun ref => ?_, fun ref _ => tableAt_init_one ref⟩
  have hone := tableAt_init_one ref
  rw [← (hready ref).ok.sum, (hready ref).limit_eq, Ftable.below,
    Finset.sum_congr rfl fun x hx => hone x (Finset.mem_range.mp hx)]
  simpa using ref.limit_le

/-! ## One symbol -/

section

variable {tables : TableRef → Ftable} {bound : Nat} {c : CodedSymbol}

theorem TablesReady.counted (h : TablesReady tables bound) (hs : c.symbol < c.ref.limit) (hbound : bound < 2 ^ 30 + 2) :
    TablesReady (countSymbol tables c) (bound + 1) := by
  rw [countSymbol]
  by_cases hcounted : c.isCounted = true
  · rw [if_pos hcounted]
    have hparts : c.ref.isParts = false := by
      simp only [CodedSymbol.isCounted, Bool.not_eq_true', Bool.or_eq_false_iff] at hcounted
      exact hcounted.1
    have hroom := h.total c.ref
    obtain ⟨htotal, -⟩ := ftableIncrement_exact c.symbol (h.ready c.ref).ok (by omega)
    refine ⟨fun ref => ?_, fun ref => ?_, fun ref href => ?_⟩
    · by_cases he : ref = c.ref
      · rw [he, Function.update_self]
        exact (h.ready c.ref).increment hs
      · rw [Function.update_of_ne he]
        exact h.ready ref
    · by_cases he : ref = c.ref
      · rw [he, Function.update_self]
        omega
      · rw [Function.update_of_ne he]
        exact Nat.le_succ_of_le (h.total ref)
    · have he : ref ≠ c.ref := by
        rintro rfl
        rw [hparts] at href
        cases href
      rw [Function.update_of_ne he]
      exact h.parts ref href
  · rw [if_neg hcounted]
    exact ⟨h.ready, fun ref => Nat.le_succ_of_le (h.total ref), h.parts⟩

/-- The bits of a symbol, by what its table holds. -/
theorem TablesReady.symbolBits (h : TablesReady tables bound) (ref : TableRef) (symbol : Symbol) :
    IntervalCoding.log2 ((tables ref).total.toNat / (tables ref).freq symbol) =
      AdaptiveCode.symbolBits (range ref.limit) (tables ref).freq symbol := by
  have hsum := (h.ready ref).ok.sum
  rw [(h.ready ref).limit_eq] at hsum
  rw [AdaptiveCode.symbolBits, ← hsum]
  rfl

/-- A counted symbol is counted for what comes after it. -/
theorem TablesReady.interleaved (h : TablesReady tables bound) (hbound : bound < 2 ^ 30 + 2)
    (hcounted : c.isCounted = true) {input : List (TableRef × Symbol)} (hinput : ∀ p ∈ input, p.2 < p.1.limit) :
    interleavedBits (fun ref => range ref.limit) (fun ref => (countSymbol tables c ref).freq) input =
      interleavedBits (fun ref => range ref.limit)
        (Function.update (fun ref => (tables ref).freq) c.ref (count (tables c.ref).freq c.symbol)) input := by
  refine interleavedBits_congr (fun ref x hx => ?_) fun p hp => Finset.mem_range.mpr (hinput p hp)
  rw [countSymbol, if_pos hcounted]
  by_cases he : ref = c.ref
  · have hroom := h.total c.ref
    obtain ⟨-, hfreq⟩ := ftableIncrement_exact c.symbol (h.ready c.ref).ok (by omega)
    rw [(h.ready c.ref).limit_eq] at hfreq
    rw [he, Function.update_self, Function.update_self]
    exact hfreq x (Finset.mem_range.mp (he ▸ hx))
  · rw [Function.update_of_ne he, Function.update_of_ne he]

/-- A group of a number is one of sixteen. -/
theorem TablesReady.parts_bits (h : TablesReady tables bound) (hparts : c.ref.isParts = true) (hs : c.symbol < c.ref.limit) :
    IntervalCoding.log2 ((tables c.ref).total.toNat / (tables c.ref).freq c.symbol) = 4 := by
  have hlimit : c.ref.limit = 16 := by
    unfold TableRef.isParts at hparts
    split at hparts
    · next he => rw [he]; rfl
    · next he => rw [he]; rfl
    · next he => rw [he]; rfl
    · cases hparts
  have hone := h.parts c.ref hparts
  have hpower := IntervalCoding.logb_two_pow 4
  rw [h.symbolBits, AdaptiveCode.symbolBits, Finset.sum_congr rfl fun x hx => hone x (Finset.mem_range.mp hx),
    hone c.symbol hs, hlimit, IntervalCoding.log2]
  norm_num
  norm_num at hpower
  exact hpower

theorem TablesReady.end_bits_le (h : TablesReady tables bound) (hs : c.symbol < c.ref.limit) :
    IntervalCoding.log2 ((tables c.ref).total.toNat / (tables c.ref).freq c.symbol) ≤ Real.logb 2 bound := by
  have he := (h.ready c.ref).encodable hs
  have hpos := he.pos
  have hbelow := he.ok.exact.freq_le he.lt
  have htotal := h.total c.ref
  have hsum := he.ok.total_le
  have hfreq : (1 : ℝ) ≤ (tables c.ref).freq c.symbol := by exact_mod_cast hpos
  have hle : ((tables c.ref).total.toNat : ℝ) ≤ bound := by exact_mod_cast htotal
  have htotalPos : (0 : ℝ) < (tables c.ref).total.toNat := by exact_mod_cast Nat.lt_of_lt_of_le hpos hbelow
  refine Real.logb_le_logb_of_le one_lt_two (div_pos htotalPos (by linarith)) ?_
  exact (div_le_self htotalPos.le hfreq).trans hle

end

/-! ## Runs -/

theorem countedInput_lt {coded : List CodedSymbol} (h : ∀ c ∈ coded, c.symbol < c.ref.limit) :
    ∀ p ∈ countedInput coded, p.2 < p.1.limit := by
  intro p hp
  obtain ⟨c, hc, rfl⟩ := List.mem_map.mp hp
  exact h c (List.mem_of_mem_filter hc)

/-- **A run's bits**: those of the tables apart, four for each group that is
not counted, and the ends. -/
theorem TablesFollow.idealBits_le {tables tables' : TableRef → Ftable} {coded : List CodedSymbol} {bound : Nat}
    (h : TablesFollow tables coded tables') (hready : TablesReady tables bound) (hs : ∀ c ∈ coded, c.symbol < c.ref.limit)
    {limit : Nat} (hroom : bound + coded.length ≤ limit) (hlimit : limit ≤ 2 ^ 30 + 2) (hpos : 0 < bound) :
    acodIdealBits (codedInput coded) ≤
      interleavedBits (fun ref => range ref.limit) (fun ref => (tables ref).freq) (countedInput coded) +
        4 * coded.countP (fun c => c.ref.isParts) + coded.countP CodedSymbol.isDocumentEnd * Real.logb 2 limit := by
  induction coded generalizing tables bound with
  | nil => simp [acodIdealBits, codedInput, countedInput, interleavedBits]
  | cons c coded ih =>
    rw [List.length_cons] at hroom
    obtain ⟨htable, hfollow⟩ := h
    obtain ⟨hsymbol, hrest⟩ := List.forall_mem_cons.mp hs
    have hih := ih hfollow (hready.counted hsymbol (by omega)) hrest (by omega) (by omega)
    have hfirst : acodIdealBits (codedInput (c :: coded)) =
        IntervalCoding.log2 ((tables c.ref).total.toNat / (tables c.ref).freq c.symbol) + acodIdealBits (codedInput coded) := by
      simp only [acodIdealBits, codedInput, List.map_cons, List.sum_cons, htable]
    rw [hfirst, List.countP_cons, List.countP_cons]
    by_cases hcounted : c.isCounted = true
    · obtain ⟨hparts, hend⟩ : c.ref.isParts = false ∧ c.isDocumentEnd = false := by
        simpa [CodedSymbol.isCounted] using hcounted
      have hcons : countedInput (c :: coded) = (c.ref, c.symbol) :: countedInput coded := by
        simp [countedInput, hcounted]
      rw [hready.interleaved (by omega) hcounted (countedInput_lt hrest)] at hih
      rw [hcons, interleavedBits, ← hready.symbolBits]
      simp only [hparts, hend, Bool.false_eq_true, if_false, Nat.add_zero]
      linarith
    · have hsame : countSymbol tables c = tables := if_neg hcounted
      have hcons : countedInput (c :: coded) = countedInput coded := by simp [countedInput, hcounted]
      rw [hsame] at hih
      rw [hcons]
      by_cases hparts : c.ref.isParts = true
      · have hbits := hready.parts_bits hparts hsymbol
        have hend := (@CodesWith.parts tables c htable hparts).ends
        simp only [List.countP_cons, List.countP_nil, Nat.zero_add, ite_eq_right_iff, one_ne_zero, imp_false] at hend
        simp only [hparts, hend, if_true]
        push_cast
        linarith
      · have hend : c.isDocumentEnd = true := by
          simpa [CodedSymbol.isCounted, hparts] using hcounted
        have hbits := hready.end_bits_le hsymbol
        have hle : Real.logb 2 bound ≤ Real.logb 2 limit :=
          Real.logb_le_logb_of_le one_lt_two (by exact_mod_cast hpos) (by exact_mod_cast (by omega : bound ≤ limit))
        simp only [hparts, hend, if_true, if_false, Bool.false_eq_true]
        push_cast
        linarith

/-- What is written can be, with totals that stay small. -/
theorem TablesFollow.encodable {tables tables' : TableRef → Ftable} {coded : List CodedSymbol} {bound limit : Nat}
    (h : TablesFollow tables coded tables') (hready : TablesReady tables bound) (hs : ∀ c ∈ coded, c.symbol < c.ref.limit)
    (hroom : bound + coded.length ≤ limit) (hlimit : limit ≤ 2 ^ 30 + 2) :
    ∀ pair ∈ codedInput coded, Encodable pair.1 pair.2 ∧ pair.1.total.toNat ≤ limit := by
  induction coded generalizing tables bound with
  | nil => simp [codedInput]
  | cons c coded ih =>
    rw [List.length_cons] at hroom
    obtain ⟨htable, hfollow⟩ := h
    obtain ⟨hsymbol, hrest⟩ := List.forall_mem_cons.mp hs
    have htotal := hready.total c.ref
    have hfirst : Encodable c.table c.symbol ∧ c.table.total.toNat ≤ limit := by
      rw [htable]
      exact ⟨(hready.ready c.ref).encodable hsymbol, by omega⟩
    exact List.forall_mem_cons.mpr ⟨hfirst, ih hfollow (hready.counted hsymbol (by omega)) hrest (by omega)⟩

/-- A symbol of its table is one of the place. -/
theorem TablesFollow.symbol_lt {tables tables' : TableRef → Ftable} {coded : List CodedSymbol}
    (h : TablesFollow tables coded tables') (hlimits : ∀ ref, (tables ref).length = ref.limit)
    (hcontained : ∀ c ∈ coded, c.Contained) : ∀ c ∈ coded, c.symbol < c.ref.limit := by
  induction coded generalizing tables with
  | nil => simp
  | cons c coded ih =>
    obtain ⟨htable, hfollow⟩ := h
    obtain ⟨hfirst, hrest⟩ := List.forall_mem_cons.mp hcontained
    rw [CodedSymbol.Contained, htable, hlimits] at hfirst
    have hstep : TablesFollow tables [c] (countSymbol tables c) := ⟨htable, rfl⟩
    exact List.forall_mem_cons.mpr ⟨hfirst, ih hfollow (fun ref => (hstep.limit ref).trans (hlimits ref)) hrest⟩

/-- The bits of a run that starts with fresh tables, against any fixed
frequencies. -/
theorem TablesFollow.fresh_le {tables' : TableRef → Ftable} {coded : List CodedSymbol}
    (h : TablesFollow (tableAt jsonCompressionBaseInit strcompInitBase) coded tables')
    (hs : ∀ c ∈ coded, c.symbol < c.ref.limit) (hlength : coded.length ≤ 2 ^ 28) {freq : TableRef → Symbol → ℕ}
    (hfreq : ∀ c ∈ coded, 0 < freq c.ref c.symbol) :
    acodIdealBits (codedInput coded) ≤
      ∑ ref ∈ codedPlaces coded, (fixedBits (range ref.limit) (freq ref) (symbolsOf ref (countedInput coded)) +
          (ref.limit - 1 : ℕ) * Real.logb 2 ((symbolsOf ref (countedInput coded)).length + 1)) +
        4 * coded.countP (fun c => c.ref.isParts) +
        coded.countP CodedSymbol.isDocumentEnd * Real.logb 2 (258 + coded.length : ℕ) := by
  have hideal := h.idealBits_le .init hs (Nat.le_refl _) (by omega) (by omega)
  have hplaces : ∀ p ∈ countedInput coded, p.1 ∈ codedPlaces coded := by
    intro p hp
    obtain ⟨c, hc, rfl⟩ := List.mem_map.mp hp
    exact List.mem_toFinset.mpr (List.mem_map_of_mem (List.mem_of_mem_filter hc))
  rw [interleavedBits_eq hplaces] at hideal
  have hsum := Finset.sum_le_sum fun ref (_ : ref ∈ codedPlaces coded) => by
    have hsymbols : ∀ x ∈ symbolsOf ref (countedInput coded), x ∈ range ref.limit ∧ 0 < freq ref x := by
      intro x hx
      obtain ⟨p, hp, rfl⟩ := List.mem_map.mp hx
      obtain ⟨hp, hkey⟩ := List.mem_filter.mp hp
      obtain ⟨c, hc, rfl⟩ := List.mem_map.mp hp
      have hmem := List.mem_of_mem_filter hc
      obtain rfl : c.ref = ref := of_decide_eq_true hkey
      exact ⟨Finset.mem_range.mpr (hs c hmem), hfreq c hmem⟩
    have hle := adaptiveBits_le hsymbols
    rw [adaptiveBits_congr (fun x hx => (tableAt_init_one ref x (Finset.mem_range.mp hx)).symm) fun x hx => (hsymbols x hx).1,
      Finset.card_range] at hle
    exact hle
  linarith

/-! ## Documents -/

/-- **What documents cost.** Every table has counted the symbols that were
coded with it and no others. All the tables together take no more bits than
any fixed frequencies would, table by table, but for the number of a table's
other symbols times the logarithm of what it has coded; four bits for each
group of a number but the last; a logarithm for the end of each document;
the rounding of the shares and two bits at the end. -/
theorem json_output_length {readers : List Reader} (hr : ∀ r ∈ readers, r.AtByte)
    (hfits : ∀ r ∈ readers, DocumentFits r.unreadBytes) {staleCompressed : List Byte} (hsize : 0 < staleCompressed.length) :
    ∃ comp codeds, jsonCompressDocuments (jsonCompressorInit (readerInit contextInit) strcompInit) readers =
        some (comp, codeds) ∧
      let coded := codeds.flatten
      let encoder := acodEncodeAll (acodEncoderInit (writerInit staleCompressed)) (codedInput coded)
      TablesFollow (tableAt jsonCompressionBaseInit strcompInitBase) coded comp.tableAt ∧
      (coded.length ≤ 2 ^ 28 → ∀ freq : TableRef → Symbol → ℕ, (∀ c ∈ coded, 0 < freq c.ref c.symbol) →
        ((acodEncoderDeinit encoder).bits.length : ℝ) ≤
          ∑ ref ∈ codedPlaces coded, (fixedBits (range ref.limit) (freq ref) (symbolsOf ref (countedInput coded)) +
              (ref.limit - 1 : ℕ) * Real.logb 2 ((symbolsOf ref (countedInput coded)).length + 1)) +
            4 * coded.countP (fun c => c.ref.isParts) + readers.length * Real.logb 2 (258 + coded.length : ℕ) +
            coded.length * (3 * ((258 + coded.length : ℕ) / (ACOD_MIN_RANGE.toNat : ℝ))) + 2) := by
  obtain ⟨comp, codeds, hrun, -, hemits⟩ := jsonCompressDocuments_emits (.init (readerInit contextInit)) rfl hr
  refine ⟨comp, codeds, hrun, ?_⟩
  intro coded encoder
  have hlimits : (jsonCompressorInit (readerInit contextInit) strcompInit).base.LimitsOK := JsonTablesReady.init.limits
  have hcodes := jsonCompressDocuments_codes hlimits hrun
  have hends : coded.countP CodedSymbol.isDocumentEnd = readers.length := hcodes.ends
  have hfollow : TablesFollow (tableAt jsonCompressionBaseInit strcompInitBase) coded comp.tableAt := hcodes.follow
  refine ⟨hfollow, ?_⟩
  intro hlength freq hfreq
  obtain ⟨hall, -⟩ := hemits (.init _) hfits
  have hs := hfollow.symbol_lt (fun ref => (TablesReady.init.ready ref).limit_eq) fun c hc => (hall c hc).lt
  have hpairs := hfollow.encodable .init hs (Nat.le_refl _) (by omega)
  have hideal := hfollow.fresh_le hs hlength hfreq
  have hrounding := acodRoundingBits_le fun pair hmem => ⟨(hpairs pair hmem).1.pos, (hpairs pair hmem).2⟩
  obtain ⟨-, hupper⟩ := acodEncodeAll_length (.init (.init hsize)) (fun pair hmem => (hpairs pair hmem).1) fun pair hmem =>
    acodShareOfTwo_of_total_le (hpairs pair hmem).1.pos (Nat.le_trans (hpairs pair hmem).2 (by omega))
  rw [acodEncoderInit_cost (writerInit_bits staleCompressed), zero_add] at hupper
  rw [hends] at hideal
  rw [show (codedInput coded).length = coded.length from List.length_map ..] at hrounding
  exact hupper.trans (by linarith)

/-- `[1]`, against the same frequency for every symbol. -/
theorem json_output_length_array :
    ∃ r comp codeds, r.unreadBytes = [0x5b, 0x31, 0x5d] ∧
      jsonCompressDocuments (jsonCompressorInit (readerInit contextInit) strcompInit) [r] = some (comp, codeds) ∧
      codeds.flatten.length = 7 ∧
      TablesFollow (tableAt jsonCompressionBaseInit strcompInitBase) codeds.flatten comp.tableAt ∧
      ((acodEncoderDeinit (acodEncodeAll (acodEncoderInit (writerInit [0xaa])) (codedInput codeds.flatten))).bits.length : ℝ) ≤
        ∑ ref ∈ codedPlaces codeds.flatten,
            (fixedBits (range ref.limit) (fun _ => 1) (symbolsOf ref (countedInput codeds.flatten)) +
              (ref.limit - 1 : ℕ) * Real.logb 2 ((symbolsOf ref (countedInput codeds.flatten)).length + 1)) +
          4 * codeds.flatten.countP (fun c => c.ref.isParts) + ([r].length : ℕ) * Real.logb 2 (258 + codeds.flatten.length : ℕ) +
          codeds.flatten.length * (3 * ((258 + codeds.flatten.length : ℕ) / (ACOD_MIN_RANGE.toNat : ℝ))) + 2 := by
  obtain ⟨r, hpush, hat, hunread, -⟩ := @Reader.AtByte.push _ (bufferMake [0x5b, 0x31, 0x5d]) (.init contextInit) (by decide)
  rw [readerInit_unreadBytes, bufferMake_bytes, List.nil_append] at hunread
  have hfits : DocumentFits r.unreadBytes := by
    rw [hunread]
    exact List.all_iff_forall_prop.mp (by decide)
  obtain ⟨comp, codeds, hrun, hfollow, hbits⟩ := @json_output_length [r] (by simpa using hat) (by simpa using hfits) [0xaa] (by decide)
  have hevaluated : (readerPushBuffer (readerInit contextInit) (bufferMake [0x5b, 0x31, 0x5d])).bind (fun r =>
      (jsonCompressDocuments (jsonCompressorInit (readerInit contextInit) strcompInit) [r]).map fun run =>
        run.2.flatten.length) = some 7 := by decide +kernel
  rw [hpush, Option.bind_some, hrun, Option.map_some, Option.some.injEq] at hevaluated
  exact ⟨r, comp, codeds, hunread, hrun, hevaluated, hfollow,
    hbits (by rw [hevaluated]; norm_num) (fun _ _ => 1) fun _ _ => Nat.one_pos⟩

end Scomp
