/-
The JSON tokenizer (`json_tokenizer.c`).

The exits after which nothing may be consumed restore the snapshot taken
before the token. A function `Reader → Option (Option α × Reader)` is the
part between the two: its inner `none` asks for the restore, which
`jtokTryMultibyte` does.
-/
import Scomp.Json.StateMachine
import Scomp.DataStructures.Reader

namespace Scomp

structure JsonTokenizer where
  jsm : JsonStateMachine
  reader : Reader
deriving DecidableEq, Repr

def jsonTokenizerInit (reader : Reader) : JsonTokenizer := { jsm := jsmInit, reader := reader }

/-! ## UTF-8 -/

/-- 1 to 4, or 0 for a byte that starts no sequence. -/
def utf8GetSequenceLengthByFirstByte (b : Byte) : Nat :=
  if b ≤ 0x7f then 1
  else if b ≤ 0xc1 then 0
  else if b ≤ 0xdf then 2
  else if b ≤ 0xef then 3
  else if b ≤ 0xf4 then 4
  else 0

def utf8IsValidContinuationByte (b : Byte) : Bool := b &&& 0xc0 = 0x80

/-! ## Yielding a token -/

/-- The byte of a single-byte token was only peeked at. -/
def jtokYieldSinglebyteToken (t : JsonTokenizer) (token : JsonToken) : Option (JsonToken × JsonTokenizer) := do
  let (isAccepted, jsm) ← jsmProcessToken t.jsm token.kind
  if isAccepted then
    let (_, reader) ← readerReadByte t.reader
    return (token, { jsm := jsm, reader := reader })
  else
    return (INVALID_JSON_TOKEN, { t with jsm := jsm })

def jtokYieldMultibyteToken (t : JsonTokenizer) (token : JsonToken) (snapshot : ReaderSnapshot) :
    Option (JsonToken × JsonTokenizer) := do
  let (isAccepted, jsm) ← jsmProcessToken t.jsm token.kind
  if isAccepted then
    return (token, { t with jsm := jsm })
  else
    return (INVALID_JSON_TOKEN, { jsm := jsm, reader := ← readerRestoreSnapshot t.reader snapshot })

/-- A snapshot, the bytes of a token, and the token or the restored reader. -/
def jtokTryMultibyte (t : JsonTokenizer) (read : Reader → Option (Option JsonToken × Reader)) :
    Option (JsonToken × JsonTokenizer) := do
  let snapshot := readerTakeSnapshot t.reader
  match ← read t.reader with
  | (some token, reader) => jtokYieldMultibyteToken { t with reader := reader } token snapshot
  | (none, reader) => return (INVALID_JSON_TOKEN, { t with reader := ← readerRestoreSnapshot reader snapshot })

/-! ## Tokens inside a string -/

def jtokIsHex (hexChar : Byte) : Bool :=
  (hexChar ≥ 0x30 && hexChar ≤ 0x39) || (hexChar ≥ 0x61 && hexChar ≤ 0x66) || (hexChar ≥ 0x41 && hexChar ≤ 0x46)

/-- The loop `for (; i < i + count; i++)` that checks bytes one by one and
merges them into `value` at `i << 3`. -/
def jtokMergeBytes (isValid : Byte → Bool) (i : Nat) : Nat → UInt64 → Reader → Option (Option UInt64 × Reader)
  | 0, value, r => some (some value, r)
  | count + 1, value, r => do
    let (nextByte, r) ← readerReadByte r
    if isValid nextByte then
      jtokMergeBytes isValid (i + 1) count (value ||| (nextByte.toUInt64 <<< UInt64.ofNat (8 * i))) r
    else return (none, r)

/-- From the backslash on. -/
def jtokReadEscape (r : Reader) : Option (Option JsonToken × Reader) := do
  let (_, r) ← readerReadByte r
  let (nextChar, r) ← readerReadByte r
  if nextChar ∈ JTOK_ESCAPE_SEQ_CHARS then
    return (some { kind := .escapeSequence, payload := .character nextChar }, r)
  else if nextChar = 0x75 then
    if (← readerGetBytesAvailable r) < JSON_HEX_CHARACTERS_IN_ESCAPED_UNICODE_CODEPOINT then
      return (none, r)
    else
      let (value, r) ← jtokMergeBytes jtokIsHex 0 JSON_HEX_CHARACTERS_IN_ESCAPED_UNICODE_CODEPOINT 0 r
      return (value.map fun value =>
        { kind := .escapedUnicodeCharcode,
          payload := .unicodeCharacter value (UInt8.ofNat JSON_HEX_CHARACTERS_IN_ESCAPED_UNICODE_CODEPOINT) }, r)
  else
    return (none, r)

def jtokReadUnicodeCharacter (firstByte : Byte) (utf8Length : Nat) (r : Reader) :
    Option (Option JsonToken × Reader) := do
  let (_, r) ← readerReadByte r
  let (value, r) ← jtokMergeBytes utf8IsValidContinuationByte 1 (utf8Length - 1) firstByte.toUInt64 r
  return (value.map fun value =>
    { kind := .unicodeCharacter, payload := .unicodeCharacter value (UInt8.ofNat utf8Length) }, r)

def jtokParseStringToken (t : JsonTokenizer) : Option (JsonToken × JsonTokenizer) := do
  let (firstByte, reader) ← readerPeekByte t.reader
  let t := { t with reader := reader }
  let available ← readerGetBytesAvailable t.reader
  let utf8Length := utf8GetSequenceLengthByFirstByte firstByte
  if firstByte = 0x22 then
    jtokYieldSinglebyteToken t { kind := .stringDelimiter }
  else if firstByte = 0x5c then
    if available < 2 then return (INVALID_JSON_TOKEN, t) else jtokTryMultibyte t jtokReadEscape
  else if utf8Length = 0 || available < utf8Length then
    return (INVALID_JSON_TOKEN, t)
  else if utf8Length = 1 && firstByte ≤ 0x1f then
    -- unescaped control characters are not valid in JSON
    return (INVALID_JSON_TOKEN, t)
  else
    jtokTryMultibyte t (jtokReadUnicodeCharacter firstByte utf8Length)

/-! ## Tokens outside a string -/

/-- The bytes after the first, which gave the kind away. -/
def jtokReadExpected (kind : JsonTokenKind) : List Byte → Reader → Option (Option JsonToken × Reader)
  | [], r => some (some { kind := kind }, r)
  | expected :: rest, r => do
    let (b, r) ← readerReadByte r
    if b = expected then jtokReadExpected kind rest r else return (none, r)

def jtokReadFixed (kind : JsonTokenKind) (expectedBytes : List Byte) (r : Reader) :
    Option (Option JsonToken × Reader) := do
  let (_, r) ← readerReadByte r
  jtokReadExpected kind expectedBytes.tail r

def jtokParseFixedToken (t : JsonTokenizer) (kind : JsonTokenKind) (expectedBytes : List Byte) :
    Option (JsonToken × JsonTokenizer) := do
  if (← readerGetBytesAvailable t.reader) < expectedBytes.length then
    return (INVALID_JSON_TOKEN, t)
  else
    jtokTryMultibyte t (jtokReadFixed kind expectedBytes)

/-- `UINT64_MAX / 10` -/
def TENTH_OF_MAX_UINT64 : UInt64 := 1844674407370955161

def jtokUint64WillOverflow (value : UInt64) (addition : Byte) : Bool :=
  value ≥ TENTH_OF_MAX_UINT64 - addition.toUInt64

structure JtokUintReadingResult where
  value : UInt64
  leadingZeroes : Byte
deriving DecidableEq, Repr

def jtokUintIsInvalid (res : JtokUintReadingResult) : Bool := res.value = 0 && res.leadingZeroes = 0

/-- The loop of `_jtok_read_uint`; each turn but the last reads a byte, so
the bytes available bound the turns. -/
def jtokReadUintLoop : Nat → Byte → UInt64 → Reader → Option (JtokUintReadingResult × Reader)
  | 0, _, _, _ => none
  | fuel + 1, leadingZeroes, value, r => do
    if (← readerGetBytesAvailable r) > 0 then
      let (nextByte, r) ← readerPeekByte r
      if nextByte < 0x30 || nextByte > 0x39 then
        return ({ value := value, leadingZeroes := leadingZeroes }, r)
      else if nextByte = 0x30 && value = 0 then
        let leadingZeroes := leadingZeroes + 1
        if leadingZeroes ≥ JSON_MAX_NUMBER_LEADING_ZEROES then
          return ({ value := 0, leadingZeroes := 0 }, r)
        else
          let (_, r) ← readerReadByte r
          jtokReadUintLoop fuel leadingZeroes value r
      else
        let digit := nextByte - 0x30
        if jtokUint64WillOverflow value digit then
          return ({ value := 0, leadingZeroes := 0 }, r)
        else
          let (_, r) ← readerReadByte r
          jtokReadUintLoop fuel leadingZeroes (value * 10 + digit.toUInt64) r
    else
      return ({ value := value, leadingZeroes := leadingZeroes }, r)

def jtokReadUint (r : Reader) : Option (JtokUintReadingResult × Reader) := do
  jtokReadUintLoop ((← readerGetBytesAvailable r).toNat + 1) 0 0 r

/-- One part of a number after another. -/
def jtokAndThen {α β : Type} (first : Reader → Option (Option α × Reader))
    (next : α → Reader → Option (Option β × Reader)) (r : Reader) : Option (Option β × Reader) := do
  match ← first r with
  | (some a, r) => next a r
  | (none, r) => return (none, r)

/-- `-`, unless it is the last byte. -/
def jtokReadNumberSign (r : Reader) : Option (Option JsonNumberToken × Reader) := do
  let (nextByte, r) ← readerPeekByte r
  if nextByte = 0x2d then
    if (← readerGetBytesAvailable r) < 2 then return (none, r)
    else
      let (_, r) ← readerReadByte r
      return (some { JsonNumberToken.zero with flags := JSON_NUMBER_IS_NEGATIVE }, r)
  else return (some .zero, r)

def jtokReadNumberInteger (number : JsonNumberToken) (r : Reader) :
    Option (Option JsonNumberToken × Reader) := do
  let (intPart, r) ← jtokReadUint r
  if jtokUintIsInvalid intPart || intPart.leadingZeroes > 1 ||
      (intPart.leadingZeroes > 0 && intPart.value > 0) then
    return (none, r)
  else if intPart.leadingZeroes > 0 then
    return (some { number with flags := number.flags ||| JSON_NUMBER_INTEGER_PART_IS_ZERO }, r)
  else
    return (some { number with integerPart := intPart.value }, r)

def jtokReadNumberFraction (number : JsonNumberToken) (r : Reader) :
    Option (Option JsonNumberToken × Reader) := do
  if (← readerGetBytesAvailable r) ≥ 1 then
    let (nextByte, r) ← readerPeekByte r
    if nextByte = 0x2e then
      if (← readerGetBytesAvailable r) < 2 then return (none, r)
      else
        let (_, r) ← readerReadByte r
        let (fracPart, r) ← jtokReadUint r
        if jtokUintIsInvalid fracPart then return (none, r)
        else
          return (some { number with
            flags := number.flags ||| JSON_NUMBER_HAS_FRACTION
            fractionPart := fracPart.value
            fractionLeadingZeroes := fracPart.leadingZeroes }, r)
    else return (some number, r)
  else return (some number, r)

/-- The sign of the exponent; the reader is at the byte after `e`. -/
def jtokReadExponentSign (number : JsonNumberToken) (r : Reader) :
    Option (Option JsonNumberToken × Reader) := do
  let (nextByte, r) ← readerPeekByte r
  if nextByte = 0x2d || nextByte = 0x2b then
    if (← readerGetBytesAvailable r) < 2 then return (none, r)
    else
      let (_, r) ← readerReadByte r
      return (some { number with
        flags := number.flags |||
          (if nextByte = 0x2d then JSON_NUMBER_EXPONENT_IS_NEGATIVE else JSON_NUMBER_EXPONENT_HAS_PLUS) }, r)
  else return (some number, r)

def jtokReadExponentDigits (number : JsonNumberToken) (r : Reader) :
    Option (Option JsonNumberToken × Reader) := do
  let (expoPart, r) ← jtokReadUint r
  if jtokUintIsInvalid expoPart || expoPart.value > 65535 then return (none, r)
  else
    return (some { number with
      exponentPart := expoPart.value.toUInt16
      exponentLeadingZeroes := expoPart.leadingZeroes }, r)

def jtokReadNumberExponent (number : JsonNumberToken) (r : Reader) :
    Option (Option JsonNumberToken × Reader) := do
  if (← readerGetBytesAvailable r) ≥ 1 then
    let (nextByte, r) ← readerPeekByte r
    if nextByte = 0x65 || nextByte = 0x45 then
      if (← readerGetBytesAvailable r) < 2 then return (none, r)
      else
        let (_, r) ← readerReadByte r
        let flags := number.flags ||| JSON_NUMBER_HAS_EXPONENT |||
          (if nextByte = 0x45 then JSON_NUMBER_EXPONENT_UPPERCASE else 0)
        jtokAndThen (jtokReadExponentSign { number with flags := flags }) jtokReadExponentDigits r
    else return (some number, r)
  else return (some number, r)

/-- The four parts of a number in the order of `_jtok_parse_number`. -/
def jtokReadNumber (r : Reader) : Option (Option JsonToken × Reader) := do
  let (number, r) ← jtokAndThen (jtokAndThen (jtokAndThen jtokReadNumberSign jtokReadNumberInteger)
    jtokReadNumberFraction) jtokReadNumberExponent r
  return (number.map fun number => { kind := .number, payload := .number number }, r)

def jtokParseNumber (t : JsonTokenizer) : Option (JsonToken × JsonTokenizer) :=
  jtokTryMultibyte t jtokReadNumber

def jtokDetectNonstringTokenStart (b : Byte) : JsonTokenKind :=
  if b = 0x7b then .objectOpen
  else if b = 0x7d then .objectClose
  else if b = 0x5b then .arrayOpen
  else if b = 0x5d then .arrayClose
  else if b = 0x74 then .true
  else if b = 0x66 then .false
  else if b = 0x6e then .null
  else if b = 0x2c then .valueSeparator
  else if b = 0x3a then .kvSeparator
  else if b = 0x20 || b = 0x0a || b = 0x0d || b = 0x09 then .whitespace
  else if b = 0x22 then .stringDelimiter
  else if (b ≥ 0x30 && b ≤ 0x39) || b = 0x2d then .number
  else if b = 0xef then .bom
  else .invalid

def jtokParseNonstringToken (t : JsonTokenizer) : Option (JsonToken × JsonTokenizer) := do
  let (b, reader) ← readerPeekByte t.reader
  let t := { t with reader := reader }
  match jtokDetectNonstringTokenStart b with
  | .invalid => return (INVALID_JSON_TOKEN, t)
  | .true => jtokParseFixedToken t .true JTOK_TRUE_BYTES
  | .false => jtokParseFixedToken t .false JTOK_FALSE_BYTES
  | .null => jtokParseFixedToken t .null JTOK_NULL_BYTES
  | .bom => jtokParseFixedToken t .bom UTF8_BOM
  | .number => jtokParseNumber t
  | kind => jtokYieldSinglebyteToken t { kind := kind, payload := .character b }

def jsonTokenizerGetCurrentState (t : JsonTokenizer) : Option JsonState := jsmGetCurrentState t.jsm

/-- `none` also for: "JSON tokenizer expects at least one byte in its reader". -/
def jsonTokenizerParseNext (t : JsonTokenizer) : Option (JsonToken × JsonTokenizer) := do
  if (← readerGetBytesAvailable t.reader) > 0 then
    if jsonIsStringState (← jsonTokenizerGetCurrentState t) then jtokParseStringToken t
    else jtokParseNonstringToken t
  else none

/-- One whole JSON has been read; only whitespace may follow. -/
def jsonTokenizerIsDone (t : JsonTokenizer) : Option Bool := do
  return (← jsonTokenizerGetCurrentState t) = .root

end Scomp
