/-
The JSON compressor (`json_compressor.c`).

A function returns the symbols it writes, see `CodedSymbol`. The string
compressor is a pointer in the source; it is only used through it, so it is a
member here.
-/
import Scomp.Json.CompressionBase
import Scomp.Json.Tokenizer
import Scomp.Json.Detokenizer
import Scomp.StringCompression.StringCompressor

namespace Scomp

structure JsonCompressor where
  base : JsonCompressionBase
  strcomp : StringCompressor
  tokenizer : JsonTokenizer

def jsonCompressorInit (reader : Reader) (strcomp : StringCompressor) : JsonCompressor :=
  { base := jsonCompressionBaseInit, strcomp := strcomp, tokenizer := jsonTokenizerInit reader }

def jsonTokenizerReset (t : JsonTokenizer) : JsonTokenizer := { t with jsm := jsmReset t.jsm }

def jsonCompressorReset (comp : JsonCompressor) : JsonCompressor :=
  { comp with base := jsonCompressionBaseReset comp.base, tokenizer := jsonTokenizerReset comp.tokenizer }

/-- The bytes of a token inside a string; the loops write `value & 0xff` and
shift, as many times as the token says. -/
def jsonStringTokenBytes (token : JsonToken) : List Byte :=
  match token.kind with
  | .unicodeCharacter => mergedBytes token.unicodeLength.toNat token.unicodeValue
  | .escapeSequence => [0x5c, token.character]
  | .escapedUnicodeCharcode => 0x5c :: 0x75 :: mergedBytes token.unicodeLength.toNat token.unicodeValue
  | _ => []

def jsonCompressorWriteStringToken (strcomp : StringCompressor) (token : JsonToken) :
    Option (StringCompressor × List CodedSymbol) :=
  if isStringCharacterKind token.kind then strcompWriteAll strcomp (jsonStringTokenBytes token)
  else strcompFlush strcomp

/-- The calls of `uint_writer_write` for a number, in order. -/
def jsonNumberWrites (number : JsonNumberToken) : List (NumberPart × UInt64) :=
  (.flag, number.flags.toUInt64) ::
    ((if hasFlag number.flags JSON_NUMBER_INTEGER_PART_IS_ZERO then [] else [(.int, number.integerPart)]) ++
    (if hasFlag number.flags JSON_NUMBER_HAS_FRACTION then
      [(.fracZero, number.fractionLeadingZeroes.toUInt64), (.frac, number.fractionPart)] else []) ++
    (if hasFlag number.flags JSON_NUMBER_HAS_EXPONENT then
      [(.expoZero, number.exponentLeadingZeroes.toUInt64), (.expo, number.exponentPart.toUInt64)] else []))

/-- One part of a number, which its tables count. -/
def jsonCompressionWriteUint (base : JsonCompressionBase) (part : NumberPart) (value : UInt64) :
    JsonCompressionBase × List CodedSymbol :=
  let (tables, coded) := uintWriterWrite (fun table => .number part table) (base.numberTables part) value
  ({ base with numberTables := Function.update base.numberTables part tables }, coded)

def jsonCompressionWriteUints (base : JsonCompressionBase) : List (NumberPart × UInt64) →
    JsonCompressionBase × List CodedSymbol
  | [] => (base, [])
  | (part, value) :: writes =>
    let (base, first) := jsonCompressionWriteUint base part value
    let (base, rest) := jsonCompressionWriteUints base writes
    (base, first ++ rest)

def jsonCompressionWriteWhitespace (base : JsonCompressionBase) (b : Byte) : JsonCompressionBase × List CodedSymbol :=
  let s := jsonCompressionGetSymbolByWhitespaceChar b
  ({ base with whitespaces := ftableIncrement base.whitespaces s },
    [{ ref := .whitespaces, table := base.whitespaces, symbol := s }])

/-- What a token has besides its kind. -/
def jsonCompressionWritePayload (base : JsonCompressionBase) (token : JsonToken) :
    JsonCompressionBase × List CodedSymbol :=
  match token.kind with
  | .whitespace => jsonCompressionWriteWhitespace base token.character
  | .number => jsonCompressionWriteUints base (jsonNumberWrites token.number)
  | _ => (base, [])

/-- `newState` is the state of the tokenizer, which has seen the token. -/
def jsonCompressorWriteNonstringToken (base : JsonCompressionBase) (newState : JsonState) (token : JsonToken) :
    JsonCompressionBase × List CodedSymbol :=
  let kind : CodedSymbol :=
    { ref := .token base.currentState, table := jsonCompressionBaseGetCurrentFtable base, symbol := token.kind.toSymbol }
  let base := { jsonCompressionBaseIncrementCurrent base token.kind.toSymbol with currentState := newState }
  let (base, payload) := jsonCompressionWritePayload base token
  (base, kind :: payload)

/-- Should be called when it is time to terminate the JSON. -/
def jsonCompressorFinalize (comp : JsonCompressor) : Option (JsonCompressor × List CodedSymbol) := do
  let (strcomp, coded) ←
    if jsonIsStringState comp.base.currentState then strcompFlush comp.strcomp else some (comp.strcomp, [])
  let table := jsonCompressionBaseGetCurrentFtable comp.base
  let eof := ftableGetEofSymbol table
  -- the table does not count the EOF
  return (jsonCompressorReset { comp with strcomp := strcomp },
    coded ++ [{ ref := .token comp.base.currentState, table := table, symbol := eof }])

/-- What a valid token makes the compressor write. -/
def jsonCompressorWriteToken (comp : JsonCompressor) (token : JsonToken) :
    Option (JsonCompressor × List CodedSymbol) := do
  let newState ← jsonTokenizerGetCurrentState comp.tokenizer
  if !jsonIsStringState comp.base.currentState then
    let (base, coded) := jsonCompressorWriteNonstringToken comp.base newState token
    return ({ comp with base := base }, coded)
  else
    let (strcomp, coded) ← jsonCompressorWriteStringToken comp.strcomp token
    if token.kind = .stringDelimiter then
      let (base, rest) := jsonCompressorWriteNonstringToken comp.base newState token
      return ({ comp with base := base, strcomp := strcomp }, coded ++ rest)
    else
      return ({ comp with strcomp := strcomp }, coded)

/-- `false` if an invalid JSON sequence is encountered. -/
def jsonCompressorProcessNextToken (comp : JsonCompressor) : Option (Bool × JsonCompressor × List CodedSymbol) := do
  let (token, tokenizer) ← jsonTokenizerParseNext comp.tokenizer
  let comp := { comp with tokenizer := tokenizer }
  if token.kind = .invalid then return (false, comp, [])
  else
    let (comp, coded) ← jsonCompressorWriteToken comp token
    return (true, comp, coded)

/-- Called until it returns false or no bytes are left. -/
def jsonCompressorProcessAll : Nat → JsonCompressor → Option (JsonCompressor × List CodedSymbol)
  | 0, _ => none
  | fuel + 1, comp => do
    if (← readerGetBytesAvailable comp.tokenizer.reader) > 0 then
      let (isValid, comp, first) ← jsonCompressorProcessNextToken comp
      if isValid then
        let (comp, rest) ← jsonCompressorProcessAll fuel comp
        return (comp, first ++ rest)
      else
        return (comp, first)
    else
      return (comp, [])

/-- A document: all its tokens, and the end. Each valid token takes at least
one byte, so the bytes bound the calls. -/
def jsonCompressDocument (comp : JsonCompressor) : Option (JsonCompressor × List CodedSymbol) := do
  let available ← readerGetBytesAvailable comp.tokenizer.reader
  let (comp, body) ← jsonCompressorProcessAll (available.toNat + 1) comp
  let (comp, tail) ← jsonCompressorFinalize comp
  return (comp, body ++ tail)

end Scomp
