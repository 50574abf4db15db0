/-
Numbers as groups of four bits (`uint_freq_tables.c`, `uint_writer.c`,
`uint_reader.c`): first how many groups, then the groups, least significant
first.
-/
import Scomp.ArithmeticCoding.SymbolCoder
import Scomp.Lib.Bits

namespace Scomp

def ACOD_UINT_BIT_GROUP_SIZE : Nat := 4
def ACOD_UINT_SYMBOL_MASK : UInt64 := 15

/-- `math.c`; -1 for zero. -/
def mostSignificantBitIndex (x : UInt64) : Int := if x = 0 then -1 else Nat.log2 x.toNat

structure UintFreqTables where
  lengthTable : Ftable
  /-- All groups but the last; never incremented. -/
  uintPartsTable : Ftable
  lastPartTable : Ftable

def uintFreqTablesInit (maxValue : UInt64) : UintFreqTables :=
  let maxValueBits := mostSignificantBitIndex maxValue
  let symbolCount := ((maxValueBits + (ACOD_UINT_BIT_GROUP_SIZE - 1)) / ACOD_UINT_BIT_GROUP_SIZE).toNat
  { uintPartsTable := ftableInit (1 <<< ACOD_UINT_BIT_GROUP_SIZE) (FTABLE_INIT_ONE ||| FTABLE_EXCLUDE_EOF)
    lastPartTable := ftableInit (1 <<< ACOD_UINT_BIT_GROUP_SIZE) (FTABLE_INIT_ONE ||| FTABLE_EXCLUDE_EOF)
    lengthTable := ftableInit (symbolCount + 1) (FTABLE_INIT_ONE ||| FTABLE_EXCLUDE_EOF) }

/-- The loop over the groups, `left` of which are still to be written. -/
def uintWriterWriteParts (ref : UintTable → TableRef) : Nat → UintFreqTables → UInt64 →
    UintFreqTables × List CodedSymbol
  | 0, tables, _ => (tables, [])
  | left + 1, tables, value =>
    let part := (value &&& ACOD_UINT_SYMBOL_MASK).toNat
    let value := value >>> UInt64.ofNat ACOD_UINT_BIT_GROUP_SIZE
    if left = 0 then
      ({ tables with lastPartTable := ftableIncrement tables.lastPartTable part },
        [{ ref := ref .lastPart, table := tables.lastPartTable, symbol := part }])
    else
      let (tables', coded) := uintWriterWriteParts ref left tables value
      (tables', { ref := ref .parts, table := tables.uintPartsTable, symbol := part } :: coded)

/-- How many groups a number has, as a symbol. -/
def uintLengthSymbol (value : UInt64) : Symbol :=
  ((mostSignificantBitIndex value + ACOD_UINT_BIT_GROUP_SIZE) / ACOD_UINT_BIT_GROUP_SIZE).toNat

def uintWriterWrite (ref : UintTable → TableRef) (tables : UintFreqTables) (value : UInt64) :
    UintFreqTables × List CodedSymbol :=
  let lengthSymbolsSymbol := uintLengthSymbol value
  let (tables', coded) := uintWriterWriteParts ref lengthSymbolsSymbol
    { tables with lengthTable := ftableIncrement tables.lengthTable lengthSymbolsSymbol } value
  (tables', { ref := ref .length, table := tables.lengthTable, symbol := lengthSymbolsSymbol } :: coded)

def uintReaderAppendPart (result : UInt64) (part : Symbol) (readSymbolCount : Nat) : UInt64 :=
  result ||| (UInt64.ofNat part <<< UInt64.ofNat (readSymbolCount * ACOD_UINT_BIT_GROUP_SIZE))

section Reader

variable {δ : Type} [SymbolDecoder δ]

/-- The loop over all groups but the last. -/
def uintReaderReadParts (ref : UintTable → TableRef) (tables : UintFreqTables) :
    Nat → Nat → UInt64 → δ → Option (UInt64 × δ)
  | 0, _, result, decoder => some (result, decoder)
  | left + 1, i, result, decoder => do
    let (part, decoder) ← SymbolDecoder.read decoder (ref .parts) tables.uintPartsTable
    uintReaderReadParts ref tables left (i + 1) (uintReaderAppendPart result part i) decoder

def uintReaderRead (ref : UintTable → TableRef) (tables : UintFreqTables) (decoder : δ) :
    Option (UInt64 × UintFreqTables × δ) := do
  let (totalSymbolCount, decoder) ← SymbolDecoder.read decoder (ref .length) tables.lengthTable
  let tables := { tables with lengthTable := ftableIncrement tables.lengthTable totalSymbolCount }
  let (result, decoder) ← uintReaderReadParts ref tables (totalSymbolCount - 1) 0 0 decoder
  if totalSymbolCount > 0 then
    let (part, decoder) ← SymbolDecoder.read decoder (ref .lastPart) tables.lastPartTable
    let tables := { tables with lastPartTable := ftableIncrement tables.lastPartTable part }
    return (uintReaderAppendPart result part (totalSymbolCount - 1), tables, decoder)
  else
    return (result, tables, decoder)

end Reader

/-! ## Groups of a number -/

theorem uintLengthSymbol_le_iff (value : UInt64) (count : Nat) :
    uintLengthSymbol value ≤ count ↔ value.toNat < 2 ^ (4 * count) := by
  unfold uintLengthSymbol mostSignificantBitIndex ACOD_UINT_BIT_GROUP_SIZE
  by_cases hz : value = 0
  · rw [if_pos hz, hz]
    exact iff_of_true (Nat.zero_le _) (Nat.two_pow_pos _)
  · have hne : value.toNat ≠ 0 := fun h => hz (UInt64.toNat_inj.mp h)
    rw [if_neg hz, ← Nat.log2_lt hne]
    generalize value.toNat.log2 = bits
    show (((bits : Int) + (4 : Nat)) / (4 : Nat)).toNat ≤ count ↔ bits < 4 * count
    omega

theorem uintLengthSymbol_le (value : UInt64) : uintLengthSymbol value ≤ 16 :=
  (uintLengthSymbol_le_iff value 16).mpr value.toNat_lt

theorem lowGroup_toNat (value : UInt64) : (value &&& ACOD_UINT_SYMBOL_MASK).toNat = value.toNat % 16 := by
  rw [UInt64.toNat_and, show ACOD_UINT_SYMBOL_MASK.toNat = 2 ^ 4 - 1 from rfl, Nat.and_two_pow_sub_one_eq_mod]

theorem nextGroups_toNat (value : UInt64) :
    (value >>> UInt64.ofNat ACOD_UINT_BIT_GROUP_SIZE).toNat = value.toNat / 16 := by
  rw [UInt64.toNat_shiftRight, show (UInt64.ofNat ACOD_UINT_BIT_GROUP_SIZE).toNat % 64 = 4 from rfl,
    Nat.shiftRight_eq_div_pow]

theorem uintReaderAppendPart_toNat {result : UInt64} {part i : Nat} (hresult : result.toNat < 2 ^ (4 * i))
    (hpart : part < 16) (hi : i < 16) :
    (uintReaderAppendPart result part i).toNat = part * 2 ^ (4 * i) + result.toNat := by
  have hp : (UInt64.ofNat part).toNat = part := by
    rw [UInt64.toNat_ofNat']
    omega
  rw [Nat.mul_comm] at hresult
  rw [uintReaderAppendPart, show ACOD_UINT_BIT_GROUP_SIZE = 4 from rfl,
    @Bits.or_shiftLeft_toNat _ _ 4 _ hresult (by rw [hp]; exact hpart) (by omega) (by omega), hp, Nat.mul_comm i 4]

/-! ## Reading back -/

section RoundTrip

variable {δ : Type} [SymbolDecoder δ]

/-- The groups from the `i`-th on: all but the last are read by the loop. -/
theorem uintReaderReadParts_yields {ref : UintTable → TableRef} {tables : UintFreqTables} {left i : Nat}
    {value result : UInt64} {decoder decoder' : δ} (hi : i + left < 16) (hresult : result.toNat < 2 ^ (4 * i))
    (hvalue : value.toNat < 2 ^ (4 * (left + 1)))
    (h : Yields decoder (uintWriterWriteParts ref (left + 1) tables value).2 decoder') :
    ∃ decoder₁ result' part, uintReaderReadParts ref tables left i result decoder = some (result', decoder₁) ∧
      SymbolDecoder.read decoder₁ (ref .lastPart) tables.lastPartTable = some (part, decoder') ∧
      (uintWriterWriteParts ref (left + 1) tables value).1 =
        { tables with lastPartTable := ftableIncrement tables.lastPartTable part } ∧
      (uintReaderAppendPart result' part (i + left)).toNat = value.toNat * 2 ^ (4 * i) + result.toNat := by
  induction left generalizing i value result decoder with
  | zero =>
    rw [uintWriterWriteParts, if_pos rfl] at h ⊢
    obtain ⟨decoder₁, hread, rfl⟩ := h
    have hsmall : value.toNat < 16 := hvalue
    have hgroup := lowGroup_toNat value
    have hpart : (value &&& ACOD_UINT_SYMBOL_MASK).toNat < 16 := by omega
    refine ⟨decoder, result, _, rfl, hread, rfl, ?_⟩
    rw [Nat.add_zero, uintReaderAppendPart_toNat hresult hpart hi, hgroup, Nat.mod_eq_of_lt hsmall]
  | succ left ih =>
    rw [uintWriterWriteParts, if_neg (Nat.succ_ne_zero left)] at h ⊢
    obtain ⟨decoder₁, hread, hrest⟩ := h
    have hgroup := lowGroup_toNat value
    have hnext := nextGroups_toNat value
    have happend := @uintReaderAppendPart_toNat result (value &&& ACOD_UINT_SYMBOL_MASK).toNat i hresult (by omega)
      (by omega)
    have hpow : 2 ^ (4 * (i + 1)) = 2 ^ (4 * i) * 16 := by
      rw [Nat.mul_succ, Nat.pow_add]
    have hpow' : 2 ^ (4 * (left + 1 + 1)) = 2 ^ (4 * (left + 1)) * 16 := by
      rw [Nat.mul_succ, Nat.pow_add]
    have hlow : (value &&& ACOD_UINT_SYMBOL_MASK).toNat * 2 ^ (4 * i) ≤ 15 * 2 ^ (4 * i) :=
      Nat.mul_le_mul_right _ (by omega)
    obtain ⟨decoder₂, result', part, hparts, hlast, htables, hresult'⟩ := @ih (i + 1) _
      (uintReaderAppendPart result (value &&& ACOD_UINT_SYMBOL_MASK).toNat i) _ (by omega)
      (by rw [happend, hpow]; omega) (by rw [hnext]; omega) hrest
    refine ⟨decoder₂, result', part, ?_, hlast, htables, ?_⟩
    · rw [uintReaderReadParts, hread]
      exact hparts
    · rw [show i + (left + 1) = i + 1 + left by omega, hresult', happend, hnext, hgroup, hpow]
      have hsplit : value.toNat * 2 ^ (4 * i) =
          value.toNat / 16 * (2 ^ (4 * i) * 16) + value.toNat % 16 * 2 ^ (4 * i) := by
        conv_lhs => rw [← Nat.div_add_mod value.toNat 16]
        ring
      omega

/-- **A number is read back**, and the tables of the two sides stay the
same. -/
theorem uintReaderRead_yields {ref : UintTable → TableRef} {tables : UintFreqTables} {value : UInt64}
    {decoder decoder' : δ} (h : Yields decoder (uintWriterWrite ref tables value).2 decoder') :
    uintReaderRead ref tables decoder = some (value, (uintWriterWrite ref tables value).1, decoder') := by
  obtain ⟨decoder₁, hread, hrest⟩ := h
  have hcount := (uintLengthSymbol_le_iff value (uintLengthSymbol value)).mp (Nat.le_refl _)
  have hmax := uintLengthSymbol_le value
  simp only [uintReaderRead, uintWriterWrite, hread, Option.bind_eq_bind, Option.bind_some]
  cases hn : uintLengthSymbol value with
  | zero =>
    rw [hn] at hrest hcount
    cases hrest
    have hzero : value = 0 := UInt64.toNat_inj.mp (Nat.lt_one_iff.mp hcount)
    rw [hzero]
    rfl
  | succ left =>
    rw [hn] at hrest hcount
    have hleft : left < 16 := by rw [hn] at hmax; exact hmax
    obtain ⟨decoder₂, result, part, hparts, hlast, htables, hvalue⟩ :=
      @uintReaderReadParts_yields δ _ ref _ left 0 value 0 decoder₁ decoder' (by rw [Nat.zero_add]; exact hleft) Nat.one_pos hcount hrest
    rw [show left + 1 - 1 = left from rfl, hparts, Option.bind_some, if_pos (Nat.succ_pos left), hlast, htables]
    rw [Nat.zero_add, Nat.mul_zero, Nat.pow_zero, Nat.mul_one, show UInt64.toNat 0 = 0 from rfl, Nat.add_zero] at hvalue
    rw [Option.bind_some, UInt64.toNat_inj.mp hvalue]
    rfl

end RoundTrip

/-! ## Which symbols the tables need -/

/-- Tables whose numbers have fewer than `limit` groups. -/
structure UintTablesReady (tables : UintFreqTables) (limit : Nat) : Prop where
  length : FtableReady tables.lengthTable limit
  parts : FtableReady tables.uintPartsTable 16
  lastPart : FtableReady tables.lastPartTable 16

theorem UintTablesReady.init {maxValue : UInt64} {limit : Nat}
    (h : ((mostSignificantBitIndex maxValue + 3) / 4).toNat + 1 = limit) (hlimit : limit < 2 ^ 15) :
    UintTablesReady (uintFreqTablesInit maxValue) limit := by
  have hparts := (ftableInit_ready 16 (FTABLE_INIT_ONE ||| FTABLE_EXCLUDE_EOF) (by decide) (by decide)).1
  have hlength := (ftableInit_ready limit (FTABLE_INIT_ONE ||| FTABLE_EXCLUDE_EOF) (by decide) hlimit).1
  rw [← h] at hlength ⊢
  exact ⟨hlength, hparts, hparts⟩

/-- Every symbol has a share of its table. -/
def AllCodable (coded : List CodedSymbol) : Prop := ∀ c ∈ coded, Codable c.table c.symbol

theorem AllCodable.codedInput {coded : List CodedSymbol} (h : AllCodable coded) :
    ∀ pair ∈ codedInput coded, Codable pair.1 pair.2 := by
  intro pair hpair
  obtain ⟨c, hc, rfl⟩ := List.mem_map.mp hpair
  exact h c hc

theorem AllCodable.cons {c : CodedSymbol} {coded : List CodedSymbol} (h : Codable c.table c.symbol)
    (h' : AllCodable coded) : AllCodable (c :: coded) := List.forall_mem_cons.mpr ⟨h, h'⟩

theorem uintWriterWriteParts_ready {ref : UintTable → TableRef} {tables : UintFreqTables} {left limit : Nat}
    {value : UInt64} (h : UintTablesReady tables limit) :
    UintTablesReady (uintWriterWriteParts ref left tables value).1 limit ∧
      AllCodable (uintWriterWriteParts ref left tables value).2 := by
  induction left generalizing value with
  | zero => exact ⟨h, fun c hc => by cases hc⟩
  | succ left ih =>
    have hgroup := lowGroup_toNat value
    have hpart : (value &&& ACOD_UINT_SYMBOL_MASK).toNat < 16 := by omega
    rw [uintWriterWriteParts]
    split
    · refine ⟨⟨h.length, h.parts, h.lastPart.increment hpart⟩, fun c hc => ?_⟩
      obtain rfl := List.mem_singleton.mp hc
      exact h.lastPart.codable hpart
    · obtain ⟨hready, hall⟩ := @ih (value >>> UInt64.ofNat ACOD_UINT_BIT_GROUP_SIZE)
      exact ⟨hready, .cons (h.parts.codable hpart) hall⟩

theorem uintWriterWrite_ready {ref : UintTable → TableRef} {tables : UintFreqTables} {limit : Nat} {value : UInt64}
    (h : UintTablesReady tables limit) (hfits : uintLengthSymbol value < limit) :
    UintTablesReady (uintWriterWrite ref tables value).1 limit ∧ AllCodable (uintWriterWrite ref tables value).2 := by
  obtain ⟨hready, hall⟩ := @uintWriterWriteParts_ready ref
    { tables with lengthTable := ftableIncrement tables.lengthTable (uintLengthSymbol value) }
    (uintLengthSymbol value) limit value ⟨h.length.increment hfits, h.parts, h.lastPart⟩
  exact ⟨hready, .cons (h.length.codable hfits) hall⟩

/-- The first symbol written says whether the number fits its tables. -/
theorem uintWriterWrite_fits {ref : UintTable → TableRef} {tables : UintFreqTables} {limit : Nat} {value : UInt64}
    (h : UintTablesReady tables limit) (hcontained : ∀ c ∈ (uintWriterWrite ref tables value).2, c.Contained) :
    uintLengthSymbol value < limit := by
  have hfirst := hcontained _ (List.mem_cons_self ..)
  rw [CodedSymbol.Contained, h.length.limit_eq] at hfirst
  exact hfirst

end Scomp
