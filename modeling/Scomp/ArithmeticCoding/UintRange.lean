/-
Numbers up to a declared maximum.

`uint_freq_tables_init` takes the index of the maximum's top bit for its
number of bits. The two differ by one, which matters where the top bit is the
lowest of its group: the maximum has a group more than the length table has
symbols for.
-/
import Scomp.ArithmeticCoding.UintCoding
import Mathlib.Data.Bool.AllAny

namespace Scomp

section Runs

variable (ref : UintTable → TableRef)

/-- One number after another. -/
def uintWriteAll : UintFreqTables → List UInt64 → UintFreqTables × List CodedSymbol
  | tables, [] => (tables, [])
  | tables, value :: values =>
    let (tables, first) := uintWriterWrite ref tables value
    let (tables, rest) := uintWriteAll tables values
    (tables, first ++ rest)

def uintReadAll {δ : Type} [SymbolDecoder δ] : Nat → UintFreqTables → δ → Option (List UInt64 × UintFreqTables × δ)
  | 0, tables, decoder => some ([], tables, decoder)
  | count + 1, tables, decoder => do
    let (value, tables, decoder) ← uintReaderRead ref tables decoder
    let (values, tables, decoder) ← uintReadAll count tables decoder
    return (value :: values, tables, decoder)

/-- The numbers are read back with tables of one's own, and every length that
is written is a symbol of its table. -/
structure UintLossless (maxValue : UInt64) (values : List UInt64) : Prop where
  reads : ∀ (δ : Type) [SymbolDecoder δ] (decoder decoder' : δ),
    Yields decoder (uintWriteAll ref (uintFreqTablesInit maxValue) values).2 decoder' →
    uintReadAll ref values.length (uintFreqTablesInit maxValue) decoder =
      some (values, (uintWriteAll ref (uintFreqTablesInit maxValue) values).1, decoder')
  lengths : ∀ c ∈ (uintWriteAll ref (uintFreqTablesInit maxValue) values).2, c.ref = ref .length → c.Contained

end Runs

/-- No number has the maximum's top bit, if that is the lowest of its group. -/
def UintWithinGroups (maxValue : UInt64) (values : List UInt64) : Prop :=
  mostSignificantBitIndex maxValue % ACOD_UINT_BIT_GROUP_SIZE = 0 →
    ∀ value ∈ values, mostSignificantBitIndex value < mostSignificantBitIndex maxValue

/-! ## Reading back -/

theorem uintWriteAll_yields {ref : UintTable → TableRef} {tables : UintFreqTables} {values : List UInt64} {δ : Type}
    [SymbolDecoder δ] {decoder decoder' : δ} (h : Yields decoder (uintWriteAll ref tables values).2 decoder') :
    uintReadAll ref values.length tables decoder = some (values, (uintWriteAll ref tables values).1, decoder') := by
  induction values generalizing tables decoder with
  | nil =>
    obtain rfl : decoder' = decoder := h
    rfl
  | cons value values ih =>
    obtain ⟨decoder₁, hfirst, hrest⟩ := Yields.append h
    have hread := uintReaderRead_yields hfirst
    have hreads := @ih (uintWriterWrite ref tables value).1 decoder₁ hrest
    rw [List.length_cons, uintReadAll]
    exact Option.bind_eq_some_iff.mpr ⟨_, hread, Option.bind_eq_some_iff.mpr ⟨_, hreads, rfl⟩⟩

/-! ## Symbols of their tables -/

/-- How many symbols the tables have, which no write changes. -/
structure UintLimits (tables : UintFreqTables) (limit : Nat) : Prop where
  length : tables.lengthTable.length = limit
  parts : tables.uintPartsTable.length = 16
  lastPart : tables.lastPartTable.length = 16

theorem uintWriterWriteParts_contained {ref : UintTable → TableRef} {tables : UintFreqTables} {left limit : Nat}
    {value : UInt64} (h : UintLimits tables limit) :
    UintLimits (uintWriterWriteParts ref left tables value).1 limit ∧
      ∀ c ∈ (uintWriterWriteParts ref left tables value).2, c.Contained := by
  induction left generalizing value with
  | zero => exact ⟨h, by simp [uintWriterWriteParts]⟩
  | succ left ih =>
    have hgroup := lowGroup_toNat value
    have hpart : (value &&& ACOD_UINT_SYMBOL_MASK).toNat < 16 := by omega
    rw [uintWriterWriteParts]
    split
    · refine ⟨⟨h.length, h.parts, by rw [← h.lastPart]; exact ftableIncrement_limit _ _⟩, fun c hc => ?_⟩
      obtain rfl := List.mem_singleton.mp hc
      rw [CodedSymbol.Contained, h.lastPart]
      exact hpart
    · obtain ⟨hlimits, hall⟩ := @ih (value >>> UInt64.ofNat ACOD_UINT_BIT_GROUP_SIZE)
      refine ⟨hlimits, List.forall_mem_cons.mpr ⟨?_, hall⟩⟩
      rw [CodedSymbol.Contained, h.parts]
      exact hpart

/-- Only the length of a number may be no symbol of its table. -/
theorem uintWriterWrite_contained {ref : UintTable → TableRef} {tables : UintFreqTables} {limit : Nat} {value : UInt64}
    (h : UintLimits tables limit) :
    UintLimits (uintWriterWrite ref tables value).1 limit ∧
      (uintLengthSymbol value < limit → ∀ c ∈ (uintWriterWrite ref tables value).2, c.Contained) ∧
      ((∀ c ∈ (uintWriterWrite ref tables value).2, c.ref = ref .length → c.Contained) →
        uintLengthSymbol value < limit) := by
  obtain ⟨hlimits, hall⟩ := @uintWriterWriteParts_contained ref
    { tables with lengthTable := ftableIncrement tables.lengthTable (uintLengthSymbol value) }
    (uintLengthSymbol value) limit value ⟨by rw [← h.length]; exact ftableIncrement_limit _ _, h.parts, h.lastPart⟩
  have hlength : ({ ref := ref .length, table := tables.lengthTable, symbol := uintLengthSymbol value } :
      CodedSymbol).Contained ↔ uintLengthSymbol value < limit := by
    rw [CodedSymbol.Contained, h.length]
  refine ⟨hlimits, fun hfits => List.forall_mem_cons.mpr ⟨hlength.mpr hfits, hall⟩, fun hcontained => ?_⟩
  exact hlength.mp (hcontained _ (List.mem_cons_self ..) rfl)

theorem uintWriteAll_contained_iff {ref : UintTable → TableRef} {tables : UintFreqTables} {limit : Nat}
    {values : List UInt64} (h : UintLimits tables limit) :
    (∀ c ∈ (uintWriteAll ref tables values).2, c.ref = ref .length → c.Contained) ↔
      ∀ value ∈ values, uintLengthSymbol value < limit := by
  induction values generalizing tables with
  | nil => simp [uintWriteAll]
  | cons value values ih =>
    obtain ⟨hlimits, hfits, hback⟩ := @uintWriterWrite_contained ref tables limit value h
    have hrest := ih hlimits
    rw [uintWriteAll, List.forall_mem_append, List.forall_mem_cons, hrest]
    exact and_congr_left fun _ => ⟨hback, fun hlt c hc _ => hfits hlt c hc⟩

theorem uintFreqTablesInit_limits (maxValue : UInt64) :
    UintLimits (uintFreqTablesInit maxValue) (((mostSignificantBitIndex maxValue + 3) / 4).toNat + 1) := by
  have hindex : mostSignificantBitIndex maxValue < 64 := by
    unfold mostSignificantBitIndex
    split
    · decide
    · next hne =>
      have hlog := (Nat.log2_lt (fun h => hne (UInt64.toNat_inj.mp h))).mpr maxValue.toNat_lt
      omega
  have hparts := ftableInit_ok 16 (FTABLE_INIT_ONE ||| FTABLE_EXCLUDE_EOF) (by decide)
  have hlength := ftableInit_ok (((mostSignificantBitIndex maxValue + 3) / 4).toNat + 1)
    (FTABLE_INIT_ONE ||| FTABLE_EXCLUDE_EOF) (by omega)
  rw [if_neg (by decide)] at hparts hlength
  exact ⟨hlength.2.1, hparts.2.1, hparts.2.1⟩

/-- Whether the groups of a number have a symbol in the table of a maximum. -/
theorem uintLengthSymbol_lt_iff {maxValue value : UInt64} (h : value ≤ maxValue) :
    uintLengthSymbol value < ((mostSignificantBitIndex maxValue + 3) / 4).toNat + 1 ↔
      (mostSignificantBitIndex maxValue % 4 = 0 → mostSignificantBitIndex value < mostSignificantBitIndex maxValue) := by
  have hmono : mostSignificantBitIndex value ≤ mostSignificantBitIndex maxValue ∧ -1 ≤ mostSignificantBitIndex value := by
    unfold mostSignificantBitIndex
    by_cases hzero : value = 0
    · rw [if_pos hzero]
      split <;> omega
    · have hle := UInt64.le_iff_toNat_le.mp h
      have hne : value.toNat ≠ 0 := fun hn => hzero (UInt64.toNat_inj.mp hn)
      have hmax : maxValue ≠ 0 := fun hn => hne (by
        rw [hn, show UInt64.toNat 0 = 0 from rfl] at hle
        exact Nat.le_zero.mp hle)
      have hlog := (Nat.le_log2 (Nat.ne_of_gt (Nat.lt_of_lt_of_le (Nat.pos_of_ne_zero hne) hle))).mpr
        (Nat.le_trans (Nat.log2_self_le hne) hle)
      rw [if_neg hzero, if_neg hmax]
      omega
  unfold uintLengthSymbol ACOD_UINT_BIT_GROUP_SIZE
  generalize mostSignificantBitIndex value = index at hmono ⊢
  generalize mostSignificantBitIndex maxValue = maxIndex at hmono ⊢
  show ((index + (4 : Nat)) / (4 : Nat)).toNat < _ ↔ _
  omega

/-- **Numbers up to the maximum are coded losslessly exactly when** none of
them has the maximum's top bit at the start of a group; reading them back
never fails. -/
theorem uint_coding_lossless_iff (ref : UintTable → TableRef) (maxValue : UInt64) (values : List UInt64)
    (hvalues : ∀ value ∈ values, value ≤ maxValue) :
    UintLossless ref maxValue values ↔ UintWithinGroups maxValue values := by
  have hcontained := @uintWriteAll_contained_iff ref _ _ values (uintFreqTablesInit_limits maxValue)
  have hgroups : (∀ value ∈ values, uintLengthSymbol value < ((mostSignificantBitIndex maxValue + 3) / 4).toNat + 1) ↔
      UintWithinGroups maxValue values := by
    constructor
    · intro hall hgroup value hmem
      exact (uintLengthSymbol_lt_iff (hvalues value hmem)).mp (hall value hmem) hgroup
    · intro hwithin value hmem
      exact (uintLengthSymbol_lt_iff (hvalues value hmem)).mpr fun hgroup => hwithin hgroup value hmem
  constructor
  · intro hlossless
    exact hgroups.mp (hcontained.mp hlossless.lengths)
  · intro hwithin
    exact ⟨fun δ _ decoder decoder' hyields => uintWriteAll_yields hyields, hcontained.mpr (hgroups.mpr hwithin)⟩

/-- A maximum of 16 has lengths 0 and 1, the number 16 has length 2. -/
theorem uint_coding_lossless_fails :
    ¬ UintLossless (fun table => .number .int table) 16 [16] := by
  intro hlossless
  have hlength : uintLengthSymbol 16 < (uintFreqTablesInit 16).lengthTable.length :=
    hlossless.lengths _ (List.mem_cons_self ..) rfl
  exact absurd hlength (by decide)

/-- The values 5 and 100 with a maximum of 100. -/
theorem uint_coding_lossless_iff_hundred : UintLossless (fun table => .number .int table) 100 [5, 100] :=
  (uint_coding_lossless_iff _ 100 [5, 100] (List.all_iff_forall_prop.mp (by decide))).mpr fun hgroup => absurd hgroup (by decide)

end Scomp
