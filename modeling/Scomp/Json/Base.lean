/-
JSON token kinds, states of the JSON state machine, and the tokens the
tokenizer hands out (`json_base.c`).
-/
import Scomp.Commons

namespace Scomp

/-- Limits nesting, so that an infinite run of '[' cannot exhaust memory. -/
def JSON_MAX_STATE_STACK_LENGTH : Nat := 512

/-- Declared bound on the bytes assembled into one token. -/
def JSON_MAX_SINGLE_TOKEN_LENGTH : Nat := 128

def JSON_HEX_CHARACTERS_IN_ESCAPED_UNICODE_CODEPOINT : Nat := 4

def JTOK_TRUE_BYTES : List Byte := [0x74, 0x72, 0x75, 0x65]
def JTOK_FALSE_BYTES : List Byte := [0x66, 0x61, 0x6c, 0x73, 0x65]
def JTOK_NULL_BYTES : List Byte := [0x6e, 0x75, 0x6c, 0x6c]
/-- The characters `\`, `"`, `/`, `b`, `f`, `n`, `r`, `t`. -/
def JTOK_ESCAPE_SEQ_CHARS : List Byte := [0x5c, 0x22, 0x2f, 0x62, 0x66, 0x6e, 0x72, 0x74]
/-- Space, newline, carriage return, tab. -/
def JTOK_WHITESPACE_CHARS : List Byte := [0x20, 0x0a, 0x0d, 0x09]
def UTF8_BOM : List Byte := [0xef, 0xbb, 0xbf]

/-- `json_token_kind`, in the order of the source's numbering from 0. -/
inductive JsonTokenKind
  | invalid
  | objectOpen
  | objectClose
  | arrayOpen
  | arrayClose
  | true
  | false
  | null
  | valueSeparator
  | stringDelimiter
  | kvSeparator
  | bom
  | whitespace
  | escapeSequence
  | unicodeCharacter
  | escapedUnicodeCharcode
  | number
deriving DecidableEq, Repr

/-- The kind's number, which is also its symbol in a frequency table. -/
def JsonTokenKind.toSymbol : JsonTokenKind → Symbol
  | .invalid => 0
  | .objectOpen => 1
  | .objectClose => 2
  | .arrayOpen => 3
  | .arrayClose => 4
  | .true => 5
  | .false => 6
  | .null => 7
  | .valueSeparator => 8
  | .stringDelimiter => 9
  | .kvSeparator => 10
  | .bom => 11
  | .whitespace => 12
  | .escapeSequence => 13
  | .unicodeCharacter => 14
  | .escapedUnicodeCharcode => 15
  | .number => 16

/-- The kind a number stands for; numbers above `JSON_TOKEN_MAX` are no kind. -/
def JsonTokenKind.ofSymbol : Symbol → JsonTokenKind
  | 1 => .objectOpen
  | 2 => .objectClose
  | 3 => .arrayOpen
  | 4 => .arrayClose
  | 5 => .true
  | 6 => .false
  | 7 => .null
  | 8 => .valueSeparator
  | 9 => .stringDelimiter
  | 10 => .kvSeparator
  | 11 => .bom
  | 12 => .whitespace
  | 13 => .escapeSequence
  | 14 => .unicodeCharacter
  | 15 => .escapedUnicodeCharcode
  | 16 => .number
  | _ => .invalid

def JSON_TOKEN_MAX : Symbol := 16

@[simp] theorem ofSymbol_toSymbol (kind : JsonTokenKind) :
    JsonTokenKind.ofSymbol kind.toSymbol = kind := by cases kind <;> rfl

theorem toSymbol_le_max (kind : JsonTokenKind) : kind.toSymbol ≤ JSON_TOKEN_MAX := by
  cases kind <;> decide

/-- `json_state`, in the order of the source's numbering from 0. -/
inductive JsonState
  | root
  | start
  | value
  | objectStart
  | objectContinue
  | objectKvSeparator
  | objectKeyStart
  | arrayStart
  | arrayContinue
  | string
  | objectKey
deriving DecidableEq, Repr

def jsonIsStringState (state : JsonState) : Bool := state = .string || state = .objectKey

/-- The seven booleans `json_number_flags` packs into one byte. -/
def JSON_NUMBER_INTEGER_PART_IS_ZERO : Byte := 1
def JSON_NUMBER_IS_NEGATIVE : Byte := 2
def JSON_NUMBER_HAS_FRACTION : Byte := 4
def JSON_NUMBER_HAS_EXPONENT : Byte := 8
def JSON_NUMBER_EXPONENT_UPPERCASE : Byte := 16
def JSON_NUMBER_EXPONENT_IS_NEGATIVE : Byte := 32
def JSON_NUMBER_EXPONENT_HAS_PLUS : Byte := 64
def JSON_NUMBER_FLAGS_MAX : UInt64 := 127

/-- Leading zeroes from which a part of a number is refused. -/
def JSON_MAX_NUMBER_LEADING_ZEROES : Byte := 80

structure JsonNumberToken where
  integerPart : UInt64
  fractionPart : UInt64
  exponentPart : UInt16
  flags : Byte
  fractionLeadingZeroes : Byte
  exponentLeadingZeroes : Byte
deriving DecidableEq, Repr

/-- The zero-initialised number, `{0}`. -/
def JsonNumberToken.zero : JsonNumberToken :=
  { integerPart := 0, fractionPart := 0, exponentPart := 0, flags := 0,
    fractionLeadingZeroes := 0, exponentLeadingZeroes := 0 }

/-- The members of the token's union that tokenizer and detokenizer use. -/
inductive JsonTokenPayload
  | none
  | character (character : Byte)
  | unicodeCharacter (value : UInt64) (length : Byte)
  | number (number : JsonNumberToken)
deriving DecidableEq, Repr

structure JsonToken where
  kind : JsonTokenKind
  payload : JsonTokenPayload := .none
deriving DecidableEq, Repr

/-- `token.character.character` -/
def JsonToken.character (token : JsonToken) : Byte :=
  match token.payload with
  | .character c => c
  | _ => 0

/-- `token.unicode_character.value` -/
def JsonToken.unicodeValue (token : JsonToken) : UInt64 :=
  match token.payload with
  | .unicodeCharacter value _ => value
  | _ => 0

/-- `token.unicode_character.length` -/
def JsonToken.unicodeLength (token : JsonToken) : Byte :=
  match token.payload with
  | .unicodeCharacter _ length => length
  | _ => 0

/-- `token.number` -/
def JsonToken.number (token : JsonToken) : JsonNumberToken :=
  match token.payload with
  | .number number => number
  | _ => .zero

def INVALID_JSON_TOKEN : JsonToken := { kind := .invalid }

end Scomp
