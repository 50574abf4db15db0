/-
Compressor and decompressor in step, token by token.

The compressor knows its state from the tokenizer, which sees every
character of a string; the decompressor runs a state machine of its own that
sees the string's delimiters only. What keeps them together is `JsonShared`:
the tables of both kinds, the state machine, and the bytes that went through
the string compression.
-/
import Scomp.Json.WellFormed
import Scomp.Json.Decompressor
import Scomp.Json.StateMachineSafety
import Scomp.StringCompression.RoundTrip

namespace Scomp

/-! ## What the two sides share -/

structure JsonShared where
  tables : JsonCompressionBase
  strings : StringCompressionBase
  jsm : JsonStateMachine
  emitted : List Byte

structure JsonSynced {δ : Type} (decomp : JsonDecompressor δ) (shared : JsonShared) : Prop where
  tables : decomp.base = shared.tables
  strings : StrSynced decomp.strdecomp shared.strings shared.emitted
  jsm : decomp.jsm = shared.jsm

/-- The decompressor with other tables and a decoder that is further on. -/
def JsonDecompressor.advance {δ : Type} (decomp : JsonDecompressor δ) (base : JsonCompressionBase) (decoder : δ) :
    JsonDecompressor δ :=
  { decomp.withDecoder decoder with base := base }

section Payload

variable {δ : Type}

@[simp] theorem JsonDecompressor.advance_base (decomp : JsonDecompressor δ) (base : JsonCompressionBase) (decoder : δ) :
    (decomp.advance base decoder).base = base := rfl

@[simp] theorem JsonDecompressor.advance_decoder (decomp : JsonDecompressor δ) (base : JsonCompressionBase) (decoder : δ) :
    (decomp.advance base decoder).decoder = decoder := rfl

@[simp] theorem JsonDecompressor.advance_writer (decomp : JsonDecompressor δ) (base : JsonCompressionBase) (decoder : δ) :
    (decomp.advance base decoder).writer = decomp.writer := rfl

/-! ## Payloads -/

variable [SymbolDecoder δ]

/-- One part of a number, and what is left to read after it. -/
theorem jsonDecompressorReadUint_yields {decomp : JsonDecompressor δ} {base : JsonCompressionBase} {part : NumberPart}
    {value : UInt64} {writes : List (NumberPart × UInt64)} {decoder decoder' : δ}
    (h : Yields decoder (jsonCompressionWriteUints base ((part, value) :: writes)).2 decoder') :
    ∃ decoder₁, jsonDecompressorReadUint (decomp.advance base decoder) part =
        some (value, decomp.advance (jsonCompressionWriteUint base part value).1 decoder₁) ∧
      Yields decoder₁ (jsonCompressionWriteUints (jsonCompressionWriteUint base part value).1 writes).2 decoder' := by
  obtain ⟨decoder₁, hfirst, hrest⟩ := Yields.append h
  have hread := uintReaderRead_yields hfirst
  refine ⟨decoder₁, ?_, hrest⟩
  rw [jsonDecompressorReadUint, JsonDecompressor.advance_base, JsonDecompressor.advance_decoder, hread]
  rfl

/-- The number that is read: fields that the flags leave out are zero. -/
def JsonNumberToken.restored (number : JsonNumberToken) : JsonNumberToken :=
  { flags := number.flags
    integerPart := if hasFlag number.flags JSON_NUMBER_INTEGER_PART_IS_ZERO then 0 else number.integerPart
    fractionPart := if hasFlag number.flags JSON_NUMBER_HAS_FRACTION then number.fractionPart else 0
    fractionLeadingZeroes := if hasFlag number.flags JSON_NUMBER_HAS_FRACTION then number.fractionLeadingZeroes else 0
    exponentPart := if hasFlag number.flags JSON_NUMBER_HAS_EXPONENT then number.exponentPart else 0
    exponentLeadingZeroes := if hasFlag number.flags JSON_NUMBER_HAS_EXPONENT then number.exponentLeadingZeroes else 0 }

omit [SymbolDecoder δ] in
theorem printNumber_restored {number : JsonNumberToken} (h : NumberWellFormed number) :
    printNumber number.restored = printNumber number := by
  have hinteger : number.restored.integerPart = number.integerPart := by
    simp only [JsonNumberToken.restored]
    split
    · next hzero => exact (h.zero hzero).symm
    · rfl
  have hfraction : printFraction number.restored = printFraction number := by
    simp only [printFraction, JsonNumberToken.restored]
    split <;> rfl
  have hexponent : printExponent number.restored = printExponent number := by
    simp only [printExponent, printExponentSign, JsonNumberToken.restored]
    split <;> rfl
  rw [printNumber, hinteger, hfraction, hexponent]
  rfl

/-- The optional parts of a number are read one after another. -/
theorem jsonDecompressorReadInteger_yields {decomp : JsonDecompressor δ} {base : JsonCompressionBase}
    {number : JsonNumberToken} {value : UInt64} {writes : List (NumberPart × UInt64)} {decoder decoder' : δ}
    (h : Yields decoder (jsonCompressionWriteUints base
      ((if hasFlag number.flags JSON_NUMBER_INTEGER_PART_IS_ZERO then [] else [(.int, value)]) ++ writes)).2 decoder') :
    ∃ base₁ decoder₁, jsonDecompressorReadInteger (decomp.advance base decoder) number =
        some ({ number with
            integerPart :=
              if hasFlag number.flags JSON_NUMBER_INTEGER_PART_IS_ZERO then number.integerPart else value },
          decomp.advance base₁ decoder₁) ∧
      Yields decoder₁ (jsonCompressionWriteUints base₁ writes).2 decoder' ∧
      (jsonCompressionWriteUints base ((if hasFlag number.flags JSON_NUMBER_INTEGER_PART_IS_ZERO then []
        else [(.int, value)]) ++ writes)).1 = (jsonCompressionWriteUints base₁ writes).1 := by
  unfold jsonDecompressorReadInteger
  cases hflag : hasFlag number.flags JSON_NUMBER_INTEGER_PART_IS_ZERO with
  | true =>
    rw [hflag] at h
    exact ⟨base, decoder, rfl, h, rfl⟩
  | false =>
    rw [hflag] at h
    obtain ⟨decoder₁, hread, hrest⟩ := @jsonDecompressorReadUint_yields _ _ decomp _ _ _ _ _ _ h
    refine ⟨_, decoder₁, ?_, hrest, rfl⟩
    simp only [Bool.not_false, if_true, hread, Option.bind_eq_bind, Option.bind_some, Bool.false_eq_true, if_false]
    rfl

theorem jsonDecompressorReadFraction_yields {decomp : JsonDecompressor δ} {base : JsonCompressionBase}
    {number : JsonNumberToken} {zeroes : Byte} {value : UInt64} {writes : List (NumberPart × UInt64)}
    {decoder decoder' : δ}
    (h : Yields decoder (jsonCompressionWriteUints base
      ((if hasFlag number.flags JSON_NUMBER_HAS_FRACTION then [(.fracZero, zeroes.toUInt64), (.frac, value)] else []) ++
        writes)).2 decoder') :
    ∃ base₁ decoder₁, jsonDecompressorReadFraction (decomp.advance base decoder) number =
        some ({ number with
            fractionLeadingZeroes :=
              if hasFlag number.flags JSON_NUMBER_HAS_FRACTION then zeroes else number.fractionLeadingZeroes
            fractionPart := if hasFlag number.flags JSON_NUMBER_HAS_FRACTION then value else number.fractionPart },
          decomp.advance base₁ decoder₁) ∧
      Yields decoder₁ (jsonCompressionWriteUints base₁ writes).2 decoder' ∧
      (jsonCompressionWriteUints base ((if hasFlag number.flags JSON_NUMBER_HAS_FRACTION then
        [(.fracZero, zeroes.toUInt64), (.frac, value)] else []) ++ writes)).1 =
          (jsonCompressionWriteUints base₁ writes).1 := by
  unfold jsonDecompressorReadFraction
  cases hflag : hasFlag number.flags JSON_NUMBER_HAS_FRACTION with
  | true =>
    rw [hflag] at h
    obtain ⟨decoder₁, hread, hrest⟩ := @jsonDecompressorReadUint_yields _ _ decomp _ _ _ _ _ _ h
    obtain ⟨decoder₂, hread', hrest'⟩ := @jsonDecompressorReadUint_yields _ _ decomp _ _ _ _ _ _ hrest
    refine ⟨_, decoder₂, ?_, hrest', rfl⟩
    simp only [if_true, hread, hread', Option.bind_eq_bind, Option.bind_some, UInt8.toUInt8_toUInt64]
    rfl
  | false =>
    rw [hflag] at h
    exact ⟨base, decoder, rfl, h, rfl⟩

theorem jsonDecompressorReadExponent_yields {decomp : JsonDecompressor δ} {base : JsonCompressionBase}
    {number : JsonNumberToken} {zeroes : Byte} {value : UInt16} {decoder decoder' : δ}
    (h : Yields decoder (jsonCompressionWriteUints base
      (if hasFlag number.flags JSON_NUMBER_HAS_EXPONENT then
        [(.expoZero, zeroes.toUInt64), (.expo, value.toUInt64)] else [])).2 decoder') :
    jsonDecompressorReadExponent (decomp.advance base decoder) number =
      some ({ number with
          exponentLeadingZeroes :=
            if hasFlag number.flags JSON_NUMBER_HAS_EXPONENT then zeroes else number.exponentLeadingZeroes
          exponentPart := if hasFlag number.flags JSON_NUMBER_HAS_EXPONENT then value else number.exponentPart },
        decomp.advance (jsonCompressionWriteUints base (if hasFlag number.flags JSON_NUMBER_HAS_EXPONENT then
          [(.expoZero, zeroes.toUInt64), (.expo, value.toUInt64)] else [])).1 decoder') := by
  unfold jsonDecompressorReadExponent
  cases hflag : hasFlag number.flags JSON_NUMBER_HAS_EXPONENT with
  | true =>
    rw [hflag] at h
    obtain ⟨decoder₁, hread, hrest⟩ := @jsonDecompressorReadUint_yields _ _ decomp _ _ _ _ _ _ h
    obtain ⟨decoder₂, hread', hrest'⟩ := @jsonDecompressorReadUint_yields _ _ decomp _ _ _ _ _ _ hrest
    cases hrest'
    simp only [if_true, hread, hread', Option.bind_eq_bind, Option.bind_some, UInt8.toUInt8_toUInt64,
      UInt16.toUInt16_toUInt64]
    rfl
  | false =>
    rw [hflag] at h
    cases h
    rfl

theorem jsonDecompressorReadNumber_yields {decomp : JsonDecompressor δ} {base : JsonCompressionBase}
    {number : JsonNumberToken} {decoder decoder' : δ}
    (h : Yields decoder (jsonCompressionWriteUints base (jsonNumberWrites number)).2 decoder') :
    jsonDecompressorReadNumber (decomp.advance base decoder) =
      some (number.restored, decomp.advance (jsonCompressionWriteUints base (jsonNumberWrites number)).1 decoder') := by
  obtain ⟨decoder₁, hflags, hrest₁⟩ := @jsonDecompressorReadUint_yields _ _ decomp _ _ _ _ _ _ h
  rw [List.append_assoc] at hrest₁
  obtain ⟨base₂, decoder₂, hinteger, hrest₂, hbase₂⟩ := @jsonDecompressorReadInteger_yields _ _ decomp _
    { JsonNumberToken.zero with flags := number.flags } _ _ _ _ hrest₁
  obtain ⟨base₃, decoder₃, hfraction, hrest₃, hbase₃⟩ := @jsonDecompressorReadFraction_yields _ _ decomp _
    { JsonNumberToken.zero with
      flags := number.flags
      integerPart := if hasFlag number.flags JSON_NUMBER_INTEGER_PART_IS_ZERO then 0 else number.integerPart }
    _ _ _ _ _ hrest₂
  have hexponent := @jsonDecompressorReadExponent_yields _ _ decomp _
    { JsonNumberToken.zero with
      flags := number.flags
      integerPart := if hasFlag number.flags JSON_NUMBER_INTEGER_PART_IS_ZERO then 0 else number.integerPart
      fractionLeadingZeroes := if hasFlag number.flags JSON_NUMBER_HAS_FRACTION then number.fractionLeadingZeroes else 0
      fractionPart := if hasFlag number.flags JSON_NUMBER_HAS_FRACTION then number.fractionPart else 0 }
    _ _ _ _ hrest₃
  have hbase : (jsonCompressionWriteUints base (jsonNumberWrites number)).1 =
      (jsonCompressionWriteUints base₃ (if hasFlag number.flags JSON_NUMBER_HAS_EXPONENT then
        [(.expoZero, number.exponentLeadingZeroes.toUInt64), (.expo, number.exponentPart.toUInt64)] else [])).1 := by
    rw [← hbase₃, ← hbase₂, ← List.append_assoc]
    rfl
  rw [hbase, jsonDecompressorReadNumber]
  refine Option.bind_eq_some_iff.mpr ⟨_, hflags, ?_⟩
  dsimp only
  rw [UInt8.toUInt8_toUInt64]
  exact Option.bind_eq_some_iff.mpr ⟨_, hinteger, Option.bind_eq_some_iff.mpr ⟨_, hfraction, hexponent⟩⟩

/-- The payload of a token, up to the fields that are not printed. -/
theorem jsonDecompressorReadPayload_yields {decomp : JsonDecompressor δ} {base : JsonCompressionBase}
    {token : JsonToken} {decoder decoder' : δ} (hw : TokenWellFormed false token)
    (h : Yields decoder (jsonCompressionWritePayload base token).2 decoder') :
    ∃ token', jsonDecompressorReadPayload (decomp.advance base decoder) token.kind =
        some (token', decomp.advance (jsonCompressionWritePayload base token).1 decoder') ∧
      token'.kind = token.kind ∧ printToken token' = printToken token := by
  obtain ⟨hplain, hwhitespace, hnumber⟩ := hw
  obtain ⟨kind, payload⟩ := token
  dsimp only at hplain hwhitespace hnumber ⊢
  cases kind with
  | whitespace =>
    obtain ⟨decoder₁, hread, rfl⟩ := h
    refine ⟨{ kind := .whitespace, payload := .character (jsonCompressionGetWhitespaceCharBySymbol
      (jsonCompressionGetSymbolByWhitespaceChar (JsonToken.character { kind := .whitespace, payload := payload }))) },
      ?_, rfl, ?_⟩
    · rw [jsonDecompressorReadPayload, JsonDecompressor.advance_decoder, JsonDecompressor.advance_base, hread]
      rfl
    · exact congrArg (fun b => [b]) (getWhitespaceChar_getSymbol (hwhitespace rfl))
  | number =>
    refine ⟨{ kind := .number, payload := .number (JsonToken.number { kind := .number, payload := payload }).restored },
      ?_, rfl, printNumber_restored (hnumber rfl)⟩
    rw [jsonDecompressorReadPayload, jsonDecompressorReadNumber_yields h]
    rfl
  | escapeSequence | unicodeCharacter | escapedUnicodeCharcode => cases hplain
  | _ =>
    cases h
    exact ⟨_, rfl, rfl, rfl⟩

/-! ## One call -/

/-- What marks the end of a document, in the table of the current state. -/
def jsonEndSymbol (base : JsonCompressionBase) : CodedSymbol :=
  { ref := .token base.currentState, table := jsonCompressionBaseGetCurrentFtable base,
    symbol := ftableGetEofSymbol (jsonCompressionBaseGetCurrentFtable base) }

theorem toSymbol_ne_eof {table : Ftable} (h : table.length = 18) (kind : JsonTokenKind) :
    kind.toSymbol ≠ ftableGetEofSymbol table := by
  rw [ftableGetEofSymbol_of_length h (by decide)]
  cases kind <;> decide

omit [SymbolDecoder δ] in
theorem jsonDecompressorUpdateJsm_accepted {decomp : JsonDecompressor δ} {kind : JsonTokenKind}
    {jsm' : JsonStateMachine} {newState : JsonState} (h : jsmProcessToken decomp.jsm kind = some (true, jsm'))
    (hnew : jsmGetCurrentState jsm' = some newState) :
    jsonDecompressorUpdateJsm decomp kind =
      some (true, { decomp with jsm := jsm', base := { decomp.base with currentState := newState } }) := by
  rw [jsonDecompressorUpdateJsm, h]
  simp only [Option.bind_eq_bind, Option.bind_some, Bool.not_true, Bool.false_eq_true, if_false, hnew]
  rfl

omit [SymbolDecoder δ] in
theorem jsonDecompressorPrint_spec {decomp : JsonDecompressor δ} {token : JsonToken}
    (h : WriterAtByte decomp.writer) (hkind : token.kind ≠ .invalid) :
    ∃ writer, jsonDecompressorPrint decomp token =
        some { decomp with strdecomp := { decomp.strdecomp with writer := writer } } ∧
      WriterAtByte writer ∧ writer.bytes = decomp.writer.bytes ++ printToken token := by
  obtain ⟨writer, hwrite, hat, hbytes⟩ := jsonDetokenizerWrite_prints hkind decomp.writer h
  have hwrite' : jsonDetokenizerWrite decomp.writer token = some (_, writer) := hwrite
  refine ⟨writer, ?_, hat, hbytes⟩
  rw [jsonDecompressorPrint, hwrite']
  rfl

/-- A token outside strings. -/
theorem JsonSynced.readToken {decomp : JsonDecompressor δ} {shared : JsonShared} {token : JsonToken}
    {jsm' : JsonStateMachine} {newState : JsonState} {decoder : δ} (h : JsonSynced decomp shared)
    (hlimits : shared.tables.LimitsOK) (hstate : jsonIsStringState shared.tables.currentState = false)
    (hkind : token.kind ≠ .invalid) (hw : TokenWellFormed false token)
    (haccepted : jsmProcessToken shared.jsm token.kind = some (true, jsm'))
    (hnew : jsmGetCurrentState jsm' = some newState)
    (hyields : Yields decomp.decoder (jsonCompressorWriteNonstringToken shared.tables newState token).2 decoder) :
    ∃ decomp', jsonDecompressorProcessNextToken decomp = some (true, decomp') ∧
      JsonSynced decomp' { shared with
        tables := (jsonCompressorWriteNonstringToken shared.tables newState token).1, jsm := jsm' } ∧
      decomp'.writer.bytes = decomp.writer.bytes ++ printToken token ∧ decomp'.decoder = decoder := by
  obtain ⟨decoder₁, hread, hpayload⟩ := hyields
  have htables := h.tables
  rw [← h.jsm] at haccepted
  have heof : token.kind.toSymbol ≠ ftableGetEofSymbol (jsonCompressionBaseGetCurrentFtable shared.tables) :=
    toSymbol_ne_eof (hlimits _) token.kind
  have hupdate := @jsonDecompressorUpdateJsm_accepted _ (jsonDecompressorCount (decomp.withDecoder decoder₁)
    token.kind.toSymbol) _ _ _ haccepted hnew
  obtain ⟨token', hpayload', hkind', hprint⟩ := @jsonDecompressorReadPayload_yields _ _
    { decomp with jsm := jsm' } _ _ _ _ hw hpayload
  obtain ⟨writer, hwriter, hat, hbytes⟩ := @jsonDecompressorPrint_spec _ (JsonDecompressor.advance
    { decomp with jsm := jsm' } (jsonCompressorWriteNonstringToken shared.tables newState token).1 decoder) token'
    h.strings.writer (by rw [hkind']; exact hkind)
  rw [hprint] at hbytes
  refine ⟨{ JsonDecompressor.advance { decomp with jsm := jsm' }
      (jsonCompressorWriteNonstringToken shared.tables newState token).1 decoder with
      strdecomp := { decomp.strdecomp with decoder := decoder, writer := writer } },
    ?_, ⟨rfl, ⟨h.strings.tables, h.strings.lookback, hat, h.strings.limit⟩, rfl⟩, hbytes, rfl⟩
  rw [jsonDecompressorProcessNextToken, htables, if_neg (by rw [hstate]; decide), jsonDecompressorReadNonstring,
    jsonDecompressorReadKind, htables]
  refine Option.bind_eq_some_iff.mpr ⟨_, Option.bind_eq_some_iff.mpr ⟨_, hread, rfl⟩, ?_⟩
  dsimp only
  rw [if_neg heof, ofSymbol_toSymbol]
  refine Option.bind_eq_some_iff.mpr ⟨_, hupdate, ?_⟩
  dsimp only
  rw [if_neg (by decide)]
  refine Option.bind_eq_some_iff.mpr ⟨(token', _), ?_, Option.bind_eq_some_iff.mpr ⟨_, hwriter, rfl⟩⟩
  rw [jsonDecompressorCount, show (decomp.withDecoder decoder₁).base = shared.tables from htables]
  exact hpayload'

/-- The delimiter that ends a string: first the string's own EOF, then the
token. -/
theorem JsonSynced.readDelimiter {decomp : JsonDecompressor δ} {shared : JsonShared} {token : JsonToken}
    {jsm' : JsonStateMachine} {newState : JsonState} {decoder : δ} (h : JsonSynced decomp shared)
    (hlimits : shared.tables.LimitsOK) (hstate : jsonIsStringState shared.tables.currentState = true)
    (hkind : token.kind = .stringDelimiter)
    (haccepted : jsmProcessToken shared.jsm token.kind = some (true, jsm'))
    (hnew : jsmGetCurrentState jsm' = some newState)
    (hyields : Yields decomp.decoder
      ([(strcompWriteMainSymbol shared.strings (ftableGetEofSymbol shared.strings.mainSymbolTable)).2] ++
        (jsonCompressorWriteNonstringToken shared.tables newState token).2) decoder) :
    ∃ decomp', jsonDecompressorProcessNextToken decomp = some (true, decomp') ∧
      JsonSynced decomp' { shared with
        tables := (jsonCompressorWriteNonstringToken shared.tables newState token).1
        strings := (strcompWriteMainSymbol shared.strings (ftableGetEofSymbol shared.strings.mainSymbolTable)).1
        jsm := jsm' } ∧
      decomp'.writer.bytes = decomp.writer.bytes ++ printToken token ∧ decomp'.decoder = decoder := by
  obtain ⟨kind, payload⟩ := token
  obtain rfl : kind = .stringDelimiter := hkind
  obtain ⟨tables, strings, jsm, emitted⟩ := shared
  obtain rfl : decomp.base = tables := h.tables
  obtain rfl : decomp.jsm = jsm := h.jsm
  obtain ⟨decoder₀, heofYields, hrest⟩ := hyields.append
  obtain ⟨strdecomp, hstring, hsynced, hwriter₀, hdecoder₀⟩ := h.strings.readEof heofYields
  obtain ⟨decoder₁, hread, hlast⟩ := hrest
  obtain rfl : decoder = decoder₁ := hlast
  have heof : JsonTokenKind.stringDelimiter.toSymbol ≠
      ftableGetEofSymbol (jsonCompressionBaseGetCurrentFtable decomp.base) := toSymbol_ne_eof (hlimits _) _
  have hupdate := @jsonDecompressorUpdateJsm_accepted _ (jsonDecompressorCount
    (({ decomp with strdecomp := strdecomp } : JsonDecompressor δ).withDecoder decoder)
    JsonTokenKind.stringDelimiter.toSymbol) _ _ _ haccepted hnew
  obtain ⟨writer, hwriter, hat, hbytes⟩ := @jsonDecompressorPrint_spec _ (JsonDecompressor.advance
    { decomp with strdecomp := strdecomp, jsm := jsm' }
    (jsonCompressorWriteNonstringToken decomp.base newState { kind := .stringDelimiter }).1 decoder)
    { kind := .stringDelimiter } hsynced.writer (by decide)
  rw [JsonDecompressor.advance_writer, show JsonDecompressor.writer { decomp with strdecomp := strdecomp, jsm := jsm' } =
    decomp.writer from hwriter₀] at hbytes
  refine ⟨{ JsonDecompressor.advance { decomp with strdecomp := strdecomp, jsm := jsm' }
      (jsonCompressorWriteNonstringToken decomp.base newState { kind := .stringDelimiter }).1 decoder with
      strdecomp := { strdecomp with decoder := decoder, writer := writer } },
    ?_, ⟨rfl, ⟨hsynced.tables, hsynced.lookback, hat, hsynced.limit⟩, rfl⟩, hbytes, rfl⟩
  rw [← hdecoder₀] at hread
  rw [jsonDecompressorProcessNextToken, if_pos hstate, jsonDecompressorReadString]
  refine Option.bind_eq_some_iff.mpr ⟨_, hstring, ?_⟩
  dsimp only
  rw [if_neg (by decide), jsonDecompressorReadKind]
  refine Option.bind_eq_some_iff.mpr ⟨_, Option.bind_eq_some_iff.mpr ⟨_, hread, rfl⟩, ?_⟩
  dsimp only
  rw [if_neg heof, ofSymbol_toSymbol, if_neg (by decide)]
  refine Option.bind_eq_some_iff.mpr ⟨_, hupdate, ?_⟩
  dsimp only
  rw [if_pos rfl]
  exact Option.bind_eq_some_iff.mpr ⟨_, hwriter, rfl⟩

/-- Reads of the string decompressor that return true are calls that return
true. -/
theorem jsonReads_of_strdecompReads {decomp : JsonDecompressor δ} {strdecomp : StringDecompressor δ}
    (hstate : jsonIsStringState decomp.base.currentState = true) (h : StrdecompReads decomp.strdecomp strdecomp) :
    JsonReads decomp { decomp with strdecomp := strdecomp } := by
  induction h with
  | refl => exact .refl
  | @tail strdecomp₁ strdecomp₂ hreads hread ih =>
    refine ih.tail ?_
    rw [jsonDecompressorProcessNextToken, if_pos hstate, jsonDecompressorReadString]
    exact Option.bind_eq_some_iff.mpr ⟨_, hread, rfl⟩

/-- The end of a document outside strings: its symbol is not counted. -/
theorem JsonSynced.readEnd {decomp : JsonDecompressor δ} {shared : JsonShared} {decoder : δ}
    (h : JsonSynced decomp shared) (hstate : jsonIsStringState shared.tables.currentState = false)
    (hyields : Yields decomp.decoder [jsonEndSymbol shared.tables] decoder) :
    ∃ decomp', jsonDecompressorProcessNextToken decomp = some (false, decomp') ∧ JsonSynced decomp' shared ∧
      decomp'.writer = decomp.writer ∧ decomp'.decoder = decoder := by
  obtain ⟨decoder₁, hread, rfl⟩ := hyields
  obtain ⟨tables, strings, jsm, emitted⟩ := shared
  obtain rfl : decomp.base = tables := h.tables
  refine ⟨decomp.withDecoder decoder, ?_,
    ⟨rfl, ⟨h.strings.tables, h.strings.lookback, h.strings.writer, h.strings.limit⟩, h.jsm⟩, rfl, rfl⟩
  rw [jsonDecompressorProcessNextToken, if_neg (by rw [hstate]; decide), jsonDecompressorReadNonstring,
    jsonDecompressorReadKind]
  refine Option.bind_eq_some_iff.mpr ⟨_, Option.bind_eq_some_iff.mpr ⟨_, hread, rfl⟩, ?_⟩
  dsimp only
  exact if_pos rfl

/-- The end of a document within a string: its symbol is counted. -/
theorem JsonSynced.readStringEnd {decomp : JsonDecompressor δ} {shared : JsonShared} {decoder : δ}
    (h : JsonSynced decomp shared) (hstate : jsonIsStringState shared.tables.currentState = true)
    (hyields : Yields decomp.decoder
      ([(strcompWriteMainSymbol shared.strings (ftableGetEofSymbol shared.strings.mainSymbolTable)).2] ++
        [jsonEndSymbol shared.tables]) decoder) :
    ∃ decomp', jsonDecompressorProcessNextToken decomp = some (false, decomp') ∧
      JsonSynced decomp' { shared with
        tables := jsonCompressionBaseIncrementCurrent shared.tables (jsonEndSymbol shared.tables).symbol
        strings := (strcompWriteMainSymbol shared.strings (ftableGetEofSymbol shared.strings.mainSymbolTable)).1 } ∧
      decomp'.writer = decomp.writer ∧ decomp'.decoder = decoder := by
  obtain ⟨tables, strings, jsm, emitted⟩ := shared
  obtain rfl : decomp.base = tables := h.tables
  obtain ⟨decoder₀, heofYields, hrest⟩ := hyields.append
  obtain ⟨strdecomp, hstring, hsynced, hwriter, hdecoder⟩ := h.strings.readEof heofYields
  obtain ⟨decoder₁, hread, rfl⟩ := hrest
  rw [← hdecoder] at hread
  refine ⟨jsonDecompressorCount (({ decomp with strdecomp := strdecomp } : JsonDecompressor δ).withDecoder decoder)
    (jsonEndSymbol decomp.base).symbol, ?_,
    ⟨rfl, ⟨hsynced.tables, hsynced.lookback, hsynced.writer, hsynced.limit⟩, h.jsm⟩, hwriter, rfl⟩
  rw [jsonDecompressorProcessNextToken, if_pos hstate, jsonDecompressorReadString]
  refine Option.bind_eq_some_iff.mpr ⟨_, hstring, ?_⟩
  dsimp only
  rw [if_neg (by decide), jsonDecompressorReadKind]
  refine Option.bind_eq_some_iff.mpr ⟨_, Option.bind_eq_some_iff.mpr ⟨_, hread, rfl⟩, ?_⟩
  dsimp only
  exact if_pos rfl

end Payload

end Scomp
