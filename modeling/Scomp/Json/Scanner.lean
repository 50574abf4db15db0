/-
The tokenizer's lexical half on a plain list of bytes: the token at its
start, and how many bytes it takes.

`Scans` relates it to the reader: reading with the functions of the source
gives the scanned token and a reader that many bytes ahead.
-/
import Scomp.Json.Tokenizer
import Scomp.DataStructures.ReaderBytes

namespace Scomp

/-- What stands at the start of the bytes, and how many of them it takes. -/
abbrev Scanner (α : Type) := List Byte → Option (α × Nat)

def Scanner.andThen {α β : Type} (first : Scanner α) (next : α → Scanner β) : Scanner β := fun bytes => do
  let (a, n) ← first bytes
  let (b, m) ← next a (bytes.drop n)
  return (b, n + m)

theorem Scanner.andThen_eq_some {α β : Type} {first : Scanner α} {next : α → Scanner β} {bytes b k}
    (h : first.andThen next bytes = some (b, k)) :
    ∃ a n m, first bytes = some (a, n) ∧ next a (bytes.drop n) = some (b, m) ∧ k = n + m := by
  simp only [Scanner.andThen, Option.bind_eq_bind] at h
  obtain ⟨⟨a, n⟩, hfirst, h⟩ := Option.bind_eq_some_iff.mp h
  obtain ⟨⟨b', m⟩, hnext, h⟩ := Option.bind_eq_some_iff.mp h
  cases h
  exact ⟨a, n, m, hfirst, hnext, rfl⟩

def scanMerged (isValid : Byte → Bool) (i : Nat) : Nat → UInt64 → List Byte → Option UInt64
  | 0, value, _ => some value
  | _ + 1, _, [] => none
  | count + 1, value, b :: bytes =>
    if isValid b then scanMerged isValid (i + 1) count (value ||| (b.toUInt64 <<< UInt64.ofNat (8 * i))) bytes
    else none

def scanEscape : Scanner JsonToken
  | _ :: nextChar :: bytes =>
    if nextChar ∈ JTOK_ESCAPE_SEQ_CHARS then
      some ({ kind := .escapeSequence, payload := .character nextChar }, 2)
    else if nextChar = 0x75 then
      if bytes.length < 4 then none
      else (scanMerged jtokIsHex 0 4 0 bytes).map fun value =>
        ({ kind := .escapedUnicodeCharcode, payload := .unicodeCharacter value 4 }, 6)
    else none
  | _ => none

def scanUnicodeCharacter (firstByte : Byte) (utf8Length : Nat) : Scanner JsonToken := fun bytes =>
  (scanMerged utf8IsValidContinuationByte 1 (utf8Length - 1) firstByte.toUInt64 bytes.tail).map fun value =>
    ({ kind := .unicodeCharacter, payload := .unicodeCharacter value (UInt8.ofNat utf8Length) }, utf8Length)

def scanStringToken : Scanner JsonToken
  | [] => none
  | b :: bytes =>
    let utf8Length := utf8GetSequenceLengthByFirstByte b
    if b = 0x22 then some ({ kind := .stringDelimiter }, 1)
    else if b = 0x5c then if bytes.length + 1 < 2 then none else scanEscape (b :: bytes)
    else if utf8Length = 0 || bytes.length + 1 < utf8Length then none
    else if utf8Length = 1 && b ≤ 0x1f then none
    else scanUnicodeCharacter b utf8Length (b :: bytes)

def scanFixed (kind : JsonTokenKind) (expectedBytes : List Byte) : Scanner JsonToken := fun bytes =>
  if bytes.tail.take (expectedBytes.length - 1) = expectedBytes.tail then
    some ({ kind := kind }, expectedBytes.length)
  else none

/-- The result of `_jtok_read_uint`, and the bytes it reads in any case. -/
def scanUint (leadingZeroes : Byte) (value : UInt64) : List Byte → JtokUintReadingResult × Nat
  | [] => ({ value := value, leadingZeroes := leadingZeroes }, 0)
  | b :: bytes =>
    if b < 0x30 || b > 0x39 then ({ value := value, leadingZeroes := leadingZeroes }, 0)
    else if b = 0x30 && value = 0 then
      if leadingZeroes + 1 ≥ JSON_MAX_NUMBER_LEADING_ZEROES then ({ value := 0, leadingZeroes := 0 }, 0)
      else ((scanUint (leadingZeroes + 1) value bytes).1, (scanUint (leadingZeroes + 1) value bytes).2 + 1)
    else if jtokUint64WillOverflow value (b - 0x30) then ({ value := 0, leadingZeroes := 0 }, 0)
    else ((scanUint leadingZeroes (value * 10 + (b - 0x30).toUInt64) bytes).1,
      (scanUint leadingZeroes (value * 10 + (b - 0x30).toUInt64) bytes).2 + 1)

def scanNumberSign : Scanner JsonNumberToken
  | [] => none
  | b :: bytes =>
    if b = 0x2d then
      if bytes.length + 1 < 2 then none
      else some ({ JsonNumberToken.zero with flags := JSON_NUMBER_IS_NEGATIVE }, 1)
    else some (.zero, 0)

def scanNumberInteger (number : JsonNumberToken) : Scanner JsonNumberToken := fun bytes =>
  let (intPart, n) := scanUint 0 0 bytes
  if jtokUintIsInvalid intPart || intPart.leadingZeroes > 1 ||
      (intPart.leadingZeroes > 0 && intPart.value > 0) then none
  else if intPart.leadingZeroes > 0 then
    some ({ number with flags := number.flags ||| JSON_NUMBER_INTEGER_PART_IS_ZERO }, n)
  else some ({ number with integerPart := intPart.value }, n)

/-- The digits after the point. -/
def scanFractionDigits (number : JsonNumberToken) : Scanner JsonNumberToken := fun bytes =>
  let (fracPart, n) := scanUint 0 0 bytes
  if jtokUintIsInvalid fracPart then none
  else some ({ number with
    flags := number.flags ||| JSON_NUMBER_HAS_FRACTION
    fractionPart := fracPart.value
    fractionLeadingZeroes := fracPart.leadingZeroes }, n)

def scanNumberFraction (number : JsonNumberToken) : Scanner JsonNumberToken
  | [] => some (number, 0)
  | b :: bytes =>
    if b = 0x2e then
      if bytes.length + 1 < 2 then none
      else (scanFractionDigits number bytes).map fun (number, n) => (number, 1 + n)
    else some (number, 0)

def scanExponentSign (number : JsonNumberToken) : Scanner JsonNumberToken
  | [] => none
  | b :: bytes =>
    if b = 0x2d || b = 0x2b then
      if bytes.length + 1 < 2 then none
      else some ({ number with
        flags := number.flags |||
          (if b = 0x2d then JSON_NUMBER_EXPONENT_IS_NEGATIVE else JSON_NUMBER_EXPONENT_HAS_PLUS) }, 1)
    else some (number, 0)

def scanExponentDigits (number : JsonNumberToken) : Scanner JsonNumberToken := fun bytes =>
  let (expoPart, n) := scanUint 0 0 bytes
  if jtokUintIsInvalid expoPart || expoPart.value > 65535 then none
  else some ({ number with
    exponentPart := expoPart.value.toUInt16
    exponentLeadingZeroes := expoPart.leadingZeroes }, n)

/-- The number with the flags that the `e` gives it. -/
def withExponent (number : JsonNumberToken) (b : Byte) : JsonNumberToken :=
  { number with flags := number.flags ||| JSON_NUMBER_HAS_EXPONENT |||
      (if b = 0x45 then JSON_NUMBER_EXPONENT_UPPERCASE else 0) }

def scanNumberExponent (number : JsonNumberToken) : Scanner JsonNumberToken
  | [] => some (number, 0)
  | b :: bytes =>
    if b = 0x65 || b = 0x45 then
      if bytes.length + 1 < 2 then none
      else (((scanExponentSign (withExponent number b)).andThen scanExponentDigits) bytes).map
        fun (number, n) => (number, 1 + n)
    else some (number, 0)

def scanNumber : Scanner JsonToken := fun bytes =>
  ((((scanNumberSign.andThen scanNumberInteger).andThen scanNumberFraction).andThen scanNumberExponent)
    bytes).map fun (number, n) => ({ kind := .number, payload := .number number }, n)

def scanNonstringToken : Scanner JsonToken
  | [] => none
  | b :: bytes =>
    let fixed := fun kind (expectedBytes : List Byte) =>
      if bytes.length + 1 < expectedBytes.length then none else scanFixed kind expectedBytes (b :: bytes)
    match jtokDetectNonstringTokenStart b with
    | .invalid => none
    | .true => fixed .true JTOK_TRUE_BYTES
    | .false => fixed .false JTOK_FALSE_BYTES
    | .null => fixed .null JTOK_NULL_BYTES
    | .bom => fixed .bom UTF8_BOM
    | .number => scanNumber (b :: bytes)
    | kind => some ({ kind := kind, payload := .character b }, 1)

def scanToken (isStringState : Bool) : Scanner JsonToken :=
  if isStringState then scanStringToken else scanNonstringToken

/-! ## The reader scans -/

/-- On bytes that satisfy `P`, reading is scanning: the result is the scanned
one, and the reader is ahead by the scanned bytes. -/
def Scans {α : Type} (P : List Byte → Prop) (read : Reader → Option (Option α × Reader)) (scan : Scanner α) : Prop :=
  ∀ r : Reader, r.AtByte → P r.unreadBytes →
    ∃ r' n, read r = some ((scan r.unreadBytes).map Prod.fst, r') ∧ r.Ahead r' n ∧
      ∀ a m, scan r.unreadBytes = some (a, m) → n = m

theorem Scans.andThen {α β : Type} {P} {read : Reader → Option (Option α × Reader)} {scan : Scanner α}
    {readNext : α → Reader → Option (Option β × Reader)} {scanNext : α → Scanner β} {Q : List Byte → Prop}
    (h : Scans P read scan) (hnext : ∀ a, Scans Q (readNext a) (scanNext a))
    (hQ : ∀ bytes a n, P bytes → scan bytes = some (a, n) → Q (bytes.drop n)) :
    Scans P (jtokAndThen read readNext) (scan.andThen scanNext) := by
  intro r hr hP
  obtain ⟨r₁, n, hread, hahead, hn⟩ := h r hr hP
  cases hs : scan r.unreadBytes with
  | none =>
    rw [hs] at hread
    refine ⟨r₁, n, ?_, hahead, ?_⟩
    · simp [jtokAndThen, hread, Scanner.andThen, hs]
    · intro a m he
      simp [Scanner.andThen, hs] at he
  | some am =>
    obtain ⟨a, m⟩ := am
    rw [hs] at hread
    have hm := hn a m hs
    subst hm
    obtain ⟨r₂, k, hread₂, hahead₂, hk⟩ := hnext a r₁ hahead.atByte (by
      rw [hahead.unread]; exact hQ _ _ _ hP hs)
    rw [hahead.unread] at hread₂ hk
    refine ⟨r₂, n + k, ?_, hahead.trans hahead₂, ?_⟩
    · simp only [jtokAndThen, hread, Option.bind_eq_bind, Option.bind_some, Option.map_some, hread₂,
        Scanner.andThen, hs]
      cases scanNext a (r.unreadBytes.drop n) <;> rfl
    · intro b m he
      simp only [Scanner.andThen, hs, Option.bind_eq_bind, Option.bind_some] at he
      obtain ⟨⟨b', m'⟩, hb, he⟩ := Option.bind_eq_some_iff.mp he
      cases he
      rw [hk b' m' hb]

end Scomp
