/-
Which table a symbol is coded with, over whole runs of the compressor.

A table is what the symbols coded with it have made it. Two kinds of symbols
are not counted: the groups of a number but the last, and the end of a
document.
-/
import Scomp.ArithmeticCoding.SafeReads
import Scomp.Json.Documents

namespace Scomp

def UintFreqTables.get (tables : UintFreqTables) : UintTable → Ftable
  | .length => tables.lengthTable
  | .parts => tables.uintPartsTable
  | .lastPart => tables.lastPartTable

def StringCompressionBase.get (strings : StringCompressionBase) : StringTable → Ftable
  | .main => strings.mainSymbolTable
  | .offset table => strings.offsetTables.get table
  | .length table => strings.lengthTables.get table

/-- The tables of a compressor by their places. -/
def tableAt (base : JsonCompressionBase) (strings : StringCompressionBase) : TableRef → Ftable
  | .token state => base.tables state
  | .whitespaces => base.whitespaces
  | .number part table => (base.numberTables part).get table
  | .string table => strings.get table

def JsonCompressor.tableAt (comp : JsonCompressor) : TableRef → Ftable := Scomp.tableAt comp.base comp.strcomp.base

/-! ## Counted symbols -/

/-- The tables that are never incremented. -/
def TableRef.isParts : TableRef → Bool
  | .number _ .parts | .string (.offset .parts) | .string (.length .parts) => true
  | _ => false

/-- The EOF of a table of token kinds. -/
def CodedSymbol.isDocumentEnd (c : CodedSymbol) : Bool :=
  match c.ref with
  | .token _ => c.symbol = JSON_TOKEN_MAX + 1
  | _ => false

def CodedSymbol.isCounted (c : CodedSymbol) : Bool := !(c.ref.isParts || c.isDocumentEnd)

def countSymbol (tables : TableRef → Ftable) (c : CodedSymbol) : TableRef → Ftable :=
  if c.isCounted then Function.update tables c.ref (ftableIncrement (tables c.ref) c.symbol) else tables

/-- Each symbol is coded with the table of its place, as the symbols before
it have left it. -/
def TablesFollow (tables : TableRef → Ftable) : List CodedSymbol → (TableRef → Ftable) → Prop
  | [], tables' => tables' = tables
  | c :: coded, tables' => c.table = tables c.ref ∧ TablesFollow (countSymbol tables c) coded tables'

structure CodesWith (tables : TableRef → Ftable) (coded : List CodedSymbol) (tables' : TableRef → Ftable) (ends : Nat) :
    Prop where
  follow : TablesFollow tables coded tables'
  ends : coded.countP CodedSymbol.isDocumentEnd = ends

theorem CodesWith.nil (tables : TableRef → Ftable) : CodesWith tables [] tables 0 := ⟨rfl, rfl⟩

theorem CodesWith.counted {tables : TableRef → Ftable} {c : CodedSymbol} (htable : c.table = tables c.ref)
    (hcounted : c.isCounted = true) :
    CodesWith tables [c] (Function.update tables c.ref (ftableIncrement (tables c.ref) c.symbol)) 0 := by
  have hend : c.isDocumentEnd = false := by
    simp only [CodedSymbol.isCounted, Bool.not_eq_true', Bool.or_eq_false_iff] at hcounted
    exact hcounted.2
  exact ⟨⟨htable, by rw [TablesFollow, countSymbol, if_pos hcounted]⟩, by simp [hend]⟩

theorem CodesWith.parts {tables : TableRef → Ftable} {c : CodedSymbol} (htable : c.table = tables c.ref)
    (hparts : c.ref.isParts = true) : CodesWith tables [c] tables 0 := by
  have hend : c.isDocumentEnd = false := by
    unfold CodedSymbol.isDocumentEnd
    cases hr : c.ref with
    | token state =>
      rw [hr] at hparts
      cases hparts
    | _ => rfl
  exact ⟨⟨htable, by simp [TablesFollow, countSymbol, CodedSymbol.isCounted, hparts]⟩, by simp [hend]⟩

theorem TablesFollow.append {tables tables₁ tables₂ : TableRef → Ftable} {first second : List CodedSymbol}
    (h : TablesFollow tables first tables₁) (h' : TablesFollow tables₁ second tables₂) :
    TablesFollow tables (first ++ second) tables₂ := by
  induction first generalizing tables with
  | nil =>
    cases h
    exact h'
  | cons c first ih => exact ⟨h.1, ih h.2⟩

theorem CodesWith.append {tables tables₁ tables₂ : TableRef → Ftable} {first second : List CodedSymbol} {ends ends' : Nat}
    (h : CodesWith tables first tables₁ ends) (h' : CodesWith tables₁ second tables₂ ends') :
    CodesWith tables (first ++ second) tables₂ (ends + ends') :=
  ⟨h.follow.append h'.follow, by rw [List.countP_append, h.ends, h'.ends]⟩

/-- Tables keep their numbers of symbols. -/
theorem TablesFollow.limit {tables tables' : TableRef → Ftable} {coded : List CodedSymbol}
    (h : TablesFollow tables coded tables') (ref : TableRef) :
    (tables' ref).length = (tables ref).length := by
  induction coded generalizing tables with
  | nil => rw [show tables' = tables from h]
  | cons c coded ih =>
    rw [ih h.2, countSymbol]
    split
    · by_cases href : ref = c.ref
      · rw [href, Function.update_self, ftableIncrement_limit]
      · rw [Function.update_of_ne href]
    · rfl

/-! ## Numbers -/

/-- Where the tables of a number may be. -/
structure UintPlaces (place : UintTable → TableRef) : Prop where
  injective : Function.Injective place
  isParts : ∀ table, (place table).isParts = decide (table = .parts)
  notToken : ∀ table state, place table ≠ .token state

theorem UintPlaces.number (part : NumberPart) : UintPlaces fun table => .number part table :=
  ⟨fun _ _ he => (TableRef.number.inj he).2, fun table => by cases table <;> rfl, fun _ _ he => by cases he⟩

theorem UintPlaces.offset : UintPlaces fun table => .string (.offset table) :=
  ⟨fun _ _ he => StringTable.offset.inj (TableRef.string.inj he), fun table => by cases table <;> rfl,
    fun _ _ he => by cases he⟩

theorem UintPlaces.length : UintPlaces fun table => .string (.length table) :=
  ⟨fun _ _ he => StringTable.length.inj (TableRef.string.inj he), fun table => by cases table <;> rfl,
    fun _ _ he => by cases he⟩

/-- The tables with a number's own in their places. -/
def withUintTables (place : UintTable → TableRef) (tables : TableRef → Ftable) (uint : UintFreqTables) : TableRef → Ftable :=
  Function.update (Function.update (Function.update tables (place .length) uint.lengthTable) (place .parts)
    uint.uintPartsTable) (place .lastPart) uint.lastPartTable

theorem withUintTables_of_ne {place : UintTable → TableRef} {tables : TableRef → Ftable} {uint : UintFreqTables} {ref : TableRef}
    (h : ∀ table, ref ≠ place table) : withUintTables place tables uint ref = tables ref := by
  rw [withUintTables, Function.update_of_ne (h _), Function.update_of_ne (h _), Function.update_of_ne (h _)]

section

variable {place : UintTable → TableRef} (hplace : UintPlaces place)
include hplace

theorem UintPlaces.isCounted {table : UintTable} (h : table ≠ .parts) (ftable : Ftable) (symbol : Symbol) :
    CodedSymbol.isCounted { ref := place table, table := ftable, symbol := symbol } = true := by
  have hparts := hplace.isParts table
  have hend : CodedSymbol.isDocumentEnd { ref := place table, table := ftable, symbol := symbol } = false := by
    unfold CodedSymbol.isDocumentEnd
    split
    · next state he => exact absurd he (hplace.notToken table state)
    · rfl
  rw [decide_eq_false h] at hparts
  simp [CodedSymbol.isCounted, hparts, hend]

theorem UintPlaces.with_get (tables : TableRef → Ftable) (uint : UintFreqTables) (table : UintTable) :
    withUintTables place tables uint (place table) = uint.get table := by
  unfold withUintTables
  cases table with
  | lastPart => rw [Function.update_self]; rfl
  | parts => rw [Function.update_of_ne (hplace.injective.ne (by decide)), Function.update_self]; rfl
  | length =>
    rw [Function.update_of_ne (hplace.injective.ne (by decide)), Function.update_of_ne (hplace.injective.ne (by decide)),
      Function.update_self]
    rfl

theorem UintPlaces.with_ext {tables tables' : TableRef → Ftable} {uint : UintFreqTables}
    (hget : ∀ table, tables' (place table) = uint.get table) (hne : ∀ ref, (∀ table, ref ≠ place table) → tables' ref = tables ref) :
    tables' = withUintTables place tables uint := by
  funext ref
  by_cases href : ∃ table, ref = place table
  · obtain ⟨table, rfl⟩ := href
    rw [hget, hplace.with_get]
  · have hother : ∀ table, ref ≠ place table := fun table he => href ⟨table, he⟩
    rw [hne ref hother, withUintTables_of_ne hother]

theorem uintWriterWriteParts_codes (tables : TableRef → Ftable) (uint : UintFreqTables) (left : Nat) (value : UInt64) :
    CodesWith (withUintTables place tables uint) (uintWriterWriteParts place left uint value).2
      (withUintTables place tables (uintWriterWriteParts place left uint value).1) 0 := by
  induction left generalizing value with
  | zero => exact .nil _
  | succ left ih =>
    rw [uintWriterWriteParts]
    split
    · have hcodes := @CodesWith.counted (withUintTables place tables uint)
        { ref := place .lastPart, table := uint.lastPartTable, symbol := (value &&& ACOD_UINT_SYMBOL_MASK).toNat }
        (hplace.with_get tables uint .lastPart).symm (hplace.isCounted (by decide) _ _)
      dsimp only at hcodes
      rw [hplace.with_get] at hcodes
      unfold withUintTables at hcodes ⊢
      rw [Function.update_idem] at hcodes
      exact hcodes
    · have hparts := @CodesWith.parts (withUintTables place tables uint)
        { ref := place .parts, table := uint.uintPartsTable, symbol := (value &&& ACOD_UINT_SYMBOL_MASK).toNat }
        (hplace.with_get tables uint .parts).symm (hplace.isParts .parts)
      exact hparts.append (ih (value >>> UInt64.ofNat ACOD_UINT_BIT_GROUP_SIZE))

theorem uintWriterWrite_codes (tables : TableRef → Ftable) (uint : UintFreqTables) (value : UInt64) :
    CodesWith (withUintTables place tables uint) (uintWriterWrite place uint value).2
      (withUintTables place tables (uintWriterWrite place uint value).1) 0 := by
  have hfirst := @CodesWith.counted (withUintTables place tables uint)
    { ref := place .length, table := uint.lengthTable, symbol := uintLengthSymbol value }
    (hplace.with_get tables uint .length).symm (hplace.isCounted (by decide) _ _)
  have hlength : ∀ table, Function.update (withUintTables place tables uint) (place .length) table =
      withUintTables place tables { uint with lengthTable := table } := by
    intro table
    unfold withUintTables
    rw [Function.update_comm (hplace.injective.ne (show UintTable.lastPart ≠ .length by decide)),
      Function.update_comm (hplace.injective.ne (show UintTable.parts ≠ .length by decide)), Function.update_idem]
  dsimp only at hfirst
  rw [hplace.with_get, hlength] at hfirst
  exact hfirst.append (uintWriterWriteParts_codes hplace tables _ _ value)

/-- A number in its places, all else the same. -/
theorem UintPlaces.write_codes {tables tables' : TableRef → Ftable} {uint : UintFreqTables} {value : UInt64}
    (hbefore : ∀ table, tables (place table) = uint.get table)
    (hafter : ∀ table, tables' (place table) = (uintWriterWrite place uint value).1.get table)
    (hne : ∀ ref, (∀ table, ref ≠ place table) → tables' ref = tables ref) :
    CodesWith tables (uintWriterWrite place uint value).2 tables' 0 := by
  have hcodes := uintWriterWrite_codes hplace tables uint value
  rw [← hplace.with_ext hbefore fun _ _ => rfl, ← hplace.with_ext hafter hne] at hcodes
  exact hcodes

end

theorem jsonCompressionWriteUint_codes (base : JsonCompressionBase) (strings : StringCompressionBase) (part : NumberPart)
    (value : UInt64) :
    CodesWith (tableAt base strings) (jsonCompressionWriteUint base part value).2
      (tableAt (jsonCompressionWriteUint base part value).1 strings) 0 := by
  refine (UintPlaces.number part).write_codes (fun _ => rfl) (fun table => ?_) fun ref href => ?_
  · exact congrArg (fun uint : UintFreqTables => uint.get table) (Function.update_self ..)
  · cases ref with
    | number part' table =>
      have hpart : part' ≠ part := fun he => href table (by rw [he])
      exact congrArg (fun uint : UintFreqTables => uint.get table) (Function.update_of_ne hpart ..)
    | _ => rfl

theorem jsonCompressionWriteUints_codes (base : JsonCompressionBase) (strings : StringCompressionBase)
    (writes : List (NumberPart × UInt64)) :
    CodesWith (tableAt base strings) (jsonCompressionWriteUints base writes).2
      (tableAt (jsonCompressionWriteUints base writes).1 strings) 0 := by
  induction writes generalizing base with
  | nil => exact .nil _
  | cons write writes ih =>
    obtain ⟨part, value⟩ := write
    exact (jsonCompressionWriteUint_codes base strings part value).append (ih _)

/-! ## Tokens -/

theorem jsonCompressionWriteWhitespace_codes (base : JsonCompressionBase) (strings : StringCompressionBase) (b : Byte) :
    CodesWith (tableAt base strings) (jsonCompressionWriteWhitespace base b).2
      (tableAt (jsonCompressionWriteWhitespace base b).1 strings) 0 := by
  have hcodes := @CodesWith.counted (tableAt base strings)
    { ref := .whitespaces, table := base.whitespaces, symbol := jsonCompressionGetSymbolByWhitespaceChar b } rfl rfl
  have hafter : tableAt (jsonCompressionWriteWhitespace base b).1 strings = Function.update (tableAt base strings)
      .whitespaces (ftableIncrement base.whitespaces (jsonCompressionGetSymbolByWhitespaceChar b)) := by
    funext ref
    cases ref <;> rfl
  rw [hafter]
  exact hcodes

theorem jsonCompressionWritePayload_codes (base : JsonCompressionBase) (strings : StringCompressionBase) (token : JsonToken) :
    CodesWith (tableAt base strings) (jsonCompressionWritePayload base token).2
      (tableAt (jsonCompressionWritePayload base token).1 strings) 0 := by
  unfold jsonCompressionWritePayload
  split
  · exact jsonCompressionWriteWhitespace_codes base strings _
  · exact jsonCompressionWriteUints_codes base strings _
  · exact .nil _

theorem jsonCompressorWriteNonstringToken_codes (base : JsonCompressionBase) (strings : StringCompressionBase)
    (newState : JsonState) (token : JsonToken) :
    CodesWith (tableAt base strings) (jsonCompressorWriteNonstringToken base newState token).2
      (tableAt (jsonCompressorWriteNonstringToken base newState token).1 strings) 0 := by
  have hmax := toSymbol_le_max token.kind
  have hkind := @CodesWith.counted (tableAt base strings)
    { ref := .token base.currentState, table := base.tables base.currentState, symbol := token.kind.toSymbol } rfl
    (by
      have hne : token.kind.toSymbol ≠ JSON_TOKEN_MAX + 1 := fun he => absurd (he ▸ hmax) (by decide)
      simp [CodedSymbol.isCounted, TableRef.isParts, CodedSymbol.isDocumentEnd, hne])
  have hafter : tableAt { jsonCompressionBaseIncrementCurrent base token.kind.toSymbol with currentState := newState }
      strings = Function.update (tableAt base strings) (.token base.currentState)
        (ftableIncrement (base.tables base.currentState) token.kind.toSymbol) := by
    funext ref
    cases ref with
    | token state =>
      by_cases hs : state = base.currentState
      · rw [hs, Function.update_self]
        exact Function.update_self ..
      · rw [Function.update_of_ne fun he => hs (TableRef.token.inj he)]
        exact Function.update_of_ne hs ..
    | _ => rfl
  dsimp only at hkind
  rw [show tableAt base strings (.token base.currentState) = base.tables base.currentState from rfl, ← hafter] at hkind
  exact hkind.append (jsonCompressionWritePayload_codes _ strings token)

/-! ## Strings -/

section

variable (tables : JsonCompressionBase)

theorem strcompWriteMainSymbol_codes (base : StringCompressionBase) (symbol : Symbol) :
    CodesWith (tableAt tables base) [(strcompWriteMainSymbol base symbol).2]
      (tableAt tables (strcompWriteMainSymbol base symbol).1) 0 := by
  have hcodes := @CodesWith.counted (tableAt tables base) (strcompWriteMainSymbol base symbol).2 rfl rfl
  have hafter : tableAt tables (strcompWriteMainSymbol base symbol).1 = Function.update (tableAt tables base)
      (.string .main) (ftableIncrement base.mainSymbolTable symbol) := by
    funext ref
    match ref with
    | .string .main | .string (.offset _) | .string (.length _) | .token _ | .whitespaces | .number _ _ => rfl
  rw [hafter]
  exact hcodes

theorem strcompWriteBackreference_codes (base : StringCompressionBase) (offset length : Int) :
    CodesWith (tableAt tables base) (strcompWriteBackreference base offset length).2
      (tableAt tables (strcompWriteBackreference base offset length).1) 0 := by
  have hmarker := strcompWriteMainSymbol_codes tables base STRCOMP_BACKREFERENCE_SYMBOL
  have hoffset := @UintPlaces.write_codes _ .offset (tableAt tables (strcompWriteMainSymbol base STRCOMP_BACKREFERENCE_SYMBOL).1)
    (tableAt tables { (strcompWriteMainSymbol base STRCOMP_BACKREFERENCE_SYMBOL).1 with
      offsetTables := (uintWriterWrite (fun table => .string (.offset table)) base.offsetTables
        (UInt64.ofInt (offset - length))).1 })
    base.offsetTables (UInt64.ofInt (offset - length)) (fun _ => rfl) (fun _ => rfl) fun ref href => by
      match ref with
      | .string (.offset table) => exact absurd rfl (href table)
      | .string .main | .string (.length _) | .token _ | .whitespaces | .number _ _ => rfl
  have hlength := @UintPlaces.write_codes _ .length
    (tableAt tables { (strcompWriteMainSymbol base STRCOMP_BACKREFERENCE_SYMBOL).1 with
      offsetTables := (uintWriterWrite (fun table => .string (.offset table)) base.offsetTables
        (UInt64.ofInt (offset - length))).1 })
    (tableAt tables (strcompWriteBackreference base offset length).1)
    base.lengthTables (UInt64.ofInt length) (fun _ => rfl) (fun _ => rfl) fun ref href => by
      match ref with
      | .string (.length table) => exact absurd rfl (href table)
      | .string .main | .string (.offset _) | .token _ | .whitespaces | .number _ _ => rfl
  exact hmarker.append (hoffset.append hlength)

theorem strcompCompressorFlushOnce_codes {compressor compressor' : StringCompressor} {coded : List CodedSymbol}
    (h : strcompCompressorFlushOnce compressor = some (compressor', coded)) :
    CodesWith (tableAt tables compressor.base) coded (tableAt tables compressor'.base) 0 := by
  unfold strcompCompressorFlushOnce at h
  extract_lets bufferStart₀ bufferStart found at h
  clear_value bufferStart found
  dsimp only at h
  split at h
  · split at h
    · cases h
      exact strcompWriteBackreference_codes tables compressor.base _ _
    · cases h
  · split at h
    · cases h
      exact strcompWriteMainSymbol_codes tables compressor.base _
    · cases h

theorem strcompWrite_codes {compressor compressor' : StringCompressor} {b : Byte} {coded : List CodedSymbol}
    (h : strcompWrite compressor b = some (compressor', coded)) :
    CodesWith (tableAt tables compressor.base) coded (tableAt tables compressor'.base) 0 := by
  unfold strcompWrite at h
  dsimp only at h
  split at h
  · have hcodes := strcompCompressorFlushOnce_codes tables h
    exact hcodes
  · cases h
    exact .nil _

theorem strcompWriteAll_codes {compressor compressor' : StringCompressor} {bytes : List Byte} {coded : List CodedSymbol}
    (h : strcompWriteAll compressor bytes = some (compressor', coded)) :
    CodesWith (tableAt tables compressor.base) coded (tableAt tables compressor'.base) 0 := by
  induction bytes generalizing compressor coded with
  | nil =>
    cases h
    exact .nil _
  | cons b bytes ih =>
    obtain ⟨⟨compressor₁, first⟩, hfirst, h⟩ := Option.bind_eq_some_iff.mp h
    obtain ⟨⟨compressor₂, rest⟩, hrest, h⟩ := Option.bind_eq_some_iff.mp h
    cases h
    exact (strcompWrite_codes tables hfirst).append (ih hrest)

theorem strcompFlushLoop_codes {turns : Nat} {compressor compressor' : StringCompressor} {coded : List CodedSymbol}
    (h : strcompFlushLoop turns compressor = some (compressor', coded)) :
    CodesWith (tableAt tables compressor.base) coded (tableAt tables compressor'.base) 0 := by
  induction turns generalizing compressor coded with
  | zero => cases h
  | succ turns ih =>
    rw [strcompFlushLoop] at h
    split at h
    · obtain ⟨⟨compressor₁, first⟩, hfirst, h⟩ := Option.bind_eq_some_iff.mp h
      obtain ⟨⟨compressor₂, rest⟩, hrest, h⟩ := Option.bind_eq_some_iff.mp h
      cases h
      exact (strcompCompressorFlushOnce_codes tables hfirst).append (ih hrest)
    · cases h
      exact .nil _

theorem strcompFlush_codes {compressor compressor' : StringCompressor} {coded : List CodedSymbol}
    (h : strcompFlush compressor = some (compressor', coded)) :
    CodesWith (tableAt tables compressor.base) coded (tableAt tables compressor'.base) 0 := by
  obtain ⟨⟨compressor₁, body⟩, hbody, h⟩ := Option.bind_eq_some_iff.mp h
  cases h
  exact (strcompFlushLoop_codes tables hbody).append (strcompWriteMainSymbol_codes tables compressor₁.base _)

end

/-! ## The compressor -/

theorem jsonCompressorWriteStringToken_codes (tables : JsonCompressionBase) {strcomp strcomp' : StringCompressor}
    {token : JsonToken} {coded : List CodedSymbol}
    (h : jsonCompressorWriteStringToken strcomp token = some (strcomp', coded)) :
    CodesWith (tableAt tables strcomp.base) coded (tableAt tables strcomp'.base) 0 := by
  unfold jsonCompressorWriteStringToken at h
  split at h
  · exact strcompWriteAll_codes tables h
  · exact strcompFlush_codes tables h

theorem jsonCompressorWriteToken_codes {comp comp' : JsonCompressor} {token : JsonToken} {coded : List CodedSymbol}
    (h : jsonCompressorWriteToken comp token = some (comp', coded)) : CodesWith comp.tableAt coded comp'.tableAt 0 := by
  obtain ⟨newState, -, h⟩ := Option.bind_eq_some_iff.mp h
  split at h
  · cases h
    exact jsonCompressorWriteNonstringToken_codes comp.base comp.strcomp.base newState token
  · obtain ⟨⟨strcomp, string⟩, hstring, h⟩ := Option.bind_eq_some_iff.mp h
    have hcodes := jsonCompressorWriteStringToken_codes comp.base hstring
    dsimp only at h
    split at h
    · cases h
      exact hcodes.append (jsonCompressorWriteNonstringToken_codes comp.base strcomp.base newState token)
    · cases h
      exact hcodes

theorem jsonCompressorProcessNextToken_codes {comp comp' : JsonCompressor} {isValid : Bool} {coded : List CodedSymbol}
    (h : jsonCompressorProcessNextToken comp = some (isValid, comp', coded)) :
    CodesWith comp.tableAt coded comp'.tableAt 0 := by
  obtain ⟨⟨token, tokenizer⟩, -, h⟩ := Option.bind_eq_some_iff.mp h
  dsimp only at h
  split at h
  · cases h
    exact .nil _
  · obtain ⟨⟨comp₁, first⟩, hwrite, h⟩ := Option.bind_eq_some_iff.mp h
    have hcodes := jsonCompressorWriteToken_codes hwrite
    cases h
    exact hcodes

theorem jsonCompressorProcessAll_codes {fuel : Nat} {comp comp' : JsonCompressor} {coded : List CodedSymbol}
    (h : jsonCompressorProcessAll fuel comp = some (comp', coded)) : CodesWith comp.tableAt coded comp'.tableAt 0 := by
  induction fuel generalizing comp coded with
  | zero => cases h
  | succ fuel ih =>
    obtain ⟨available, -, h⟩ := Option.bind_eq_some_iff.mp h
    split at h
    · obtain ⟨⟨isValid, comp₁, first⟩, hfirst, h⟩ := Option.bind_eq_some_iff.mp h
      have hcodes := jsonCompressorProcessNextToken_codes hfirst
      dsimp only at h
      split at h
      · obtain ⟨⟨comp₂, rest⟩, hrest, h⟩ := Option.bind_eq_some_iff.mp h
        cases h
        exact hcodes.append (ih hrest)
      · cases h
        exact hcodes
    · cases h
      exact .nil _

/-- The end of a document leaves the tables as they are. -/
theorem jsonCompressorFinalize_codes {comp comp' : JsonCompressor} {coded : List CodedSymbol} (hlimits : comp.base.LimitsOK)
    (h : jsonCompressorFinalize comp = some (comp', coded)) : CodesWith comp.tableAt coded comp'.tableAt 1 := by
  obtain ⟨strcomp, string, hcodes, rfl, rfl⟩ : ∃ strcomp string,
      CodesWith comp.tableAt string (tableAt comp.base strcomp.base) 0 ∧
      comp' = jsonCompressorReset { comp with strcomp := strcomp } ∧
      coded = string ++ [jsonEndSymbol comp.base] := by
    unfold jsonCompressorFinalize at h
    dsimp only at h
    split at h
    · obtain ⟨⟨strcomp, string⟩, hflush, h⟩ := Option.bind_eq_some_iff.mp h
      cases h
      exact ⟨strcomp, string, strcompFlush_codes comp.base hflush, rfl, rfl⟩
    · cases h
      exact ⟨comp.strcomp, [], .nil _, rfl, rfl⟩
  have hend : (jsonEndSymbol comp.base).isDocumentEnd = true := by
    simp only [CodedSymbol.isDocumentEnd, jsonEndSymbol, jsonCompressionBaseGetCurrentFtable,
      ftableGetEofSymbol_of_length (hlimits _) (show 18 ≤ 2 ^ 15 by decide)]
    rfl
  have hsame : CodesWith (tableAt comp.base strcomp.base) [jsonEndSymbol comp.base] (tableAt comp.base strcomp.base) 1 :=
    ⟨⟨rfl, by simp [TablesFollow, countSymbol, CodedSymbol.isCounted, hend]⟩, by simp [hend]⟩
  have hafter : (jsonCompressorReset { comp with strcomp := strcomp }).tableAt = tableAt comp.base strcomp.base := by
    funext ref
    cases ref <;> rfl
  have hall := hcodes.append hsame
  rw [Nat.zero_add] at hall
  rw [hafter]
  exact hall

theorem jsonCompressDocument_codes {comp comp' : JsonCompressor} {coded : List CodedSymbol} (hlimits : comp.base.LimitsOK)
    (h : jsonCompressDocument comp = some (comp', coded)) : CodesWith comp.tableAt coded comp'.tableAt 1 := by
  obtain ⟨available, -, h⟩ := Option.bind_eq_some_iff.mp h
  obtain ⟨⟨comp₁, body⟩, hbody, h⟩ := Option.bind_eq_some_iff.mp h
  obtain ⟨⟨comp₂, tail⟩, htail, h⟩ := Option.bind_eq_some_iff.mp h
  cases h
  have hcodes := jsonCompressorProcessAll_codes hbody
  have hlimits₁ : comp₁.base.LimitsOK := fun state => (hcodes.follow.limit (.token state)).trans (hlimits state)
  have hall := hcodes.append (jsonCompressorFinalize_codes hlimits₁ htail)
  rw [Nat.zero_add] at hall
  exact hall

/-- **Over all documents** the tables are what their symbols have made them,
and each document has one end. -/
theorem jsonCompressDocuments_codes {comp comp' : JsonCompressor} {readers : List Reader} {codeds : List (List CodedSymbol)}
    (hlimits : comp.base.LimitsOK) (h : jsonCompressDocuments comp readers = some (comp', codeds)) :
    CodesWith comp.tableAt codeds.flatten comp'.tableAt readers.length := by
  induction readers generalizing comp codeds with
  | nil =>
    cases h
    exact .nil _
  | cons r readers ih =>
    obtain ⟨⟨comp₁, coded⟩, hfirst, h⟩ := Option.bind_eq_some_iff.mp h
    obtain ⟨⟨comp₂, rest⟩, hrest, h⟩ := Option.bind_eq_some_iff.mp h
    cases h
    have hcodes := @jsonCompressDocument_codes (comp.withReader r) _ _ hlimits hfirst
    have hlimits₁ : comp₁.base.LimitsOK := fun state => (hcodes.follow.limit (.token state)).trans (hlimits state)
    have hall := hcodes.append (ih hlimits₁ hrest)
    rw [Nat.add_comm] at hall
    exact hall

end Scomp
