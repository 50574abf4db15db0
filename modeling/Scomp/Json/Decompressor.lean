/-
The JSON decompressor (`json_decompressor.c`).

The writer and the decoder are those of the string decompressor, which the
source is given pointers to as well.
-/
import Scomp.Json.CompressionBase
import Scomp.Json.StateMachine
import Scomp.Json.Detokenizer
import Scomp.StringCompression.StringDecompressor

namespace Scomp

structure JsonDecompressor (δ : Type) where
  strdecomp : StringDecompressor δ
  context : Context
  base : JsonCompressionBase
  jsm : JsonStateMachine

section Definitions

variable {δ : Type}

def JsonDecompressor.decoder (decomp : JsonDecompressor δ) : δ := decomp.strdecomp.decoder

def JsonDecompressor.writer (decomp : JsonDecompressor δ) : Writer := decomp.strdecomp.writer

def JsonDecompressor.withDecoder (decomp : JsonDecompressor δ) (decoder : δ) : JsonDecompressor δ :=
  { decomp with strdecomp := { decomp.strdecomp with decoder := decoder } }

def jsonDecompressorReset (decomp : JsonDecompressor δ) : JsonDecompressor δ :=
  { decomp with base := jsonCompressionBaseReset decomp.base, jsm := jsmReset decomp.jsm }

def jsonDecompressorInit (context : Context) (strdecomp : StringDecompressor δ) : JsonDecompressor δ :=
  jsonDecompressorReset
    { strdecomp := strdecomp, context := context, base := jsonCompressionBaseInit, jsm := jsmInit }

def jsonDecompressorUpdateJsm (decomp : JsonDecompressor δ) (kind : JsonTokenKind) :
    Option (Bool × JsonDecompressor δ) := do
  let (isAccepted, jsm) ← jsmProcessToken decomp.jsm kind
  let decomp := { decomp with jsm := jsm }
  if !isAccepted then
    return (false, { decomp with
      context := contextSetError decomp.context
        s!"Illegal sequence of JSON tokens discovered when decompressing: unexpected {kind.toSymbol}" })
  else
    let state ← jsmGetCurrentState decomp.jsm
    return (true, { decomp with base := { decomp.base with currentState := state } })

/-- Prints a token to the writer. -/
def jsonDecompressorPrint (decomp : JsonDecompressor δ) (token : JsonToken) : Option (JsonDecompressor δ) := do
  let (_, writer) ← jsonDetokenizerWrite decomp.writer token
  return { decomp with strdecomp := { decomp.strdecomp with writer := writer } }

variable [SymbolDecoder δ]

/-- A symbol read with the table of the current state. -/
def jsonDecompressorReadKind (decomp : JsonDecompressor δ) : Option (Symbol × JsonDecompressor δ) := do
  let (s, decoder) ← SymbolDecoder.read decomp.decoder (.token decomp.base.currentState)
    (jsonCompressionBaseGetCurrentFtable decomp.base)
  return (s, decomp.withDecoder decoder)

/-- The table of the current state counts a symbol. -/
def jsonDecompressorCount (decomp : JsonDecompressor δ) (s : Symbol) : JsonDecompressor δ :=
  { decomp with base := jsonCompressionBaseIncrementCurrent decomp.base s }

/-- `none` also for: "String delimiter must be accepted in string JSON state". -/
def jsonDecompressorReadString (decomp : JsonDecompressor δ) : Option (Bool × JsonDecompressor δ) := do
  let (isMore, strdecomp) ← strdecompRead decomp.strdecomp
  let decomp := { decomp with strdecomp := strdecomp }
  if isMore then return (true, decomp)
  else
    let table := jsonCompressionBaseGetCurrentFtable decomp.base
    let (s, decomp) ← jsonDecompressorReadKind decomp
    -- EOF is counted here
    let decomp := jsonDecompressorCount decomp s
    if s = ftableGetEofSymbol table then return (false, decomp)
    else
      let kind := JsonTokenKind.ofSymbol s
      if kind ≠ .stringDelimiter then
        return (false, { decomp with
          context := contextSetError decomp.context
            s!"Illegal sequence of JSON tokens discovered when decompressing: expected string delimiter, but got {s} instead" })
      else
        let (isDelimiterAccepted, decomp) ← jsonDecompressorUpdateJsm decomp .stringDelimiter
        if isDelimiterAccepted then return (true, ← jsonDecompressorPrint decomp { kind := kind })
        else none

/-- One part of a number. -/
def jsonDecompressorReadUint (decomp : JsonDecompressor δ) (part : NumberPart) :
    Option (UInt64 × JsonDecompressor δ) := do
  let (value, tables, decoder) ← uintReaderRead (fun table => .number part table) (decomp.base.numberTables part)
    decomp.decoder
  return (value, { decomp.withDecoder decoder with
    base := { decomp.base with numberTables := Function.update decomp.base.numberTables part tables } })

def jsonDecompressorReadInteger (decomp : JsonDecompressor δ) (number : JsonNumberToken) :
    Option (JsonNumberToken × JsonDecompressor δ) :=
  if !hasFlag number.flags JSON_NUMBER_INTEGER_PART_IS_ZERO then do
    let (integerPart, decomp) ← jsonDecompressorReadUint decomp .int
    return ({ number with integerPart := integerPart }, decomp)
  else some (number, decomp)

def jsonDecompressorReadFraction (decomp : JsonDecompressor δ) (number : JsonNumberToken) :
    Option (JsonNumberToken × JsonDecompressor δ) :=
  if hasFlag number.flags JSON_NUMBER_HAS_FRACTION then do
    let (fractionLeadingZeroes, decomp) ← jsonDecompressorReadUint decomp .fracZero
    let (fractionPart, decomp) ← jsonDecompressorReadUint decomp .frac
    return ({ number with
      fractionLeadingZeroes := fractionLeadingZeroes.toUInt8, fractionPart := fractionPart }, decomp)
  else some (number, decomp)

def jsonDecompressorReadExponent (decomp : JsonDecompressor δ) (number : JsonNumberToken) :
    Option (JsonNumberToken × JsonDecompressor δ) :=
  if hasFlag number.flags JSON_NUMBER_HAS_EXPONENT then do
    let (exponentLeadingZeroes, decomp) ← jsonDecompressorReadUint decomp .expoZero
    let (exponentPart, decomp) ← jsonDecompressorReadUint decomp .expo
    return ({ number with
      exponentLeadingZeroes := exponentLeadingZeroes.toUInt8, exponentPart := exponentPart.toUInt16 }, decomp)
  else some (number, decomp)

def jsonDecompressorReadNumber (decomp : JsonDecompressor δ) : Option (JsonNumberToken × JsonDecompressor δ) := do
  let (flags, decomp) ← jsonDecompressorReadUint decomp .flag
  let (number, decomp) ← jsonDecompressorReadInteger decomp { JsonNumberToken.zero with flags := flags.toUInt8 }
  let (number, decomp) ← jsonDecompressorReadFraction decomp number
  jsonDecompressorReadExponent decomp number

/-- What a token has besides its kind. -/
def jsonDecompressorReadPayload (decomp : JsonDecompressor δ) (kind : JsonTokenKind) :
    Option (JsonToken × JsonDecompressor δ) :=
  match kind with
  | .whitespace => do
    let (whitespace, decoder) ← SymbolDecoder.read decomp.decoder .whitespaces decomp.base.whitespaces
    return ({ kind := kind, payload := .character (jsonCompressionGetWhitespaceCharBySymbol whitespace) },
      { decomp.withDecoder decoder with
        base := { decomp.base with whitespaces := ftableIncrement decomp.base.whitespaces whitespace } })
  | .number => do
    let (number, decomp) ← jsonDecompressorReadNumber decomp
    return ({ kind := kind, payload := .number number }, decomp)
  | _ => some ({ kind := kind }, decomp)

def jsonDecompressorReadNonstring (decomp : JsonDecompressor δ) : Option (Bool × JsonDecompressor δ) := do
  let table := jsonCompressionBaseGetCurrentFtable decomp.base
  let (s, decomp) ← jsonDecompressorReadKind decomp
  if s = ftableGetEofSymbol table then return (false, decomp)
  else
    let kind := JsonTokenKind.ofSymbol s
    let (isAccepted, decomp) ← jsonDecompressorUpdateJsm (jsonDecompressorCount decomp s) kind
    if !isAccepted then return (false, decomp)
    else
      let (token, decomp) ← jsonDecompressorReadPayload decomp kind
      return (true, ← jsonDecompressorPrint decomp token)

/-- One token, or a part of a string. `false` on EOF. -/
def jsonDecompressorProcessNextToken (decomp : JsonDecompressor δ) : Option (Bool × JsonDecompressor δ) :=
  if jsonIsStringState decomp.base.currentState then jsonDecompressorReadString decomp
  else jsonDecompressorReadNonstring decomp

/-- Calls that return true, one after another. -/
def JsonReads : JsonDecompressor δ → JsonDecompressor δ → Prop :=
  Relation.ReflTransGen fun decomp decomp' => jsonDecompressorProcessNextToken decomp = some (true, decomp')

/-- Called until it returns false. -/
def JsonFinishes (decomp decomp' : JsonDecompressor δ) : Prop :=
  ∃ last, JsonReads decomp last ∧ jsonDecompressorProcessNextToken last = some (false, decomp')

end Definitions

end Scomp
