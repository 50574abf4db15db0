/-
The JSON detokenizer (`json_detokenizer.c`), and the bytes it prints for a
token.
-/
import Scomp.Json.Base
import Scomp.DataStructures.WriterFacts
import Mathlib.Data.Nat.Digits.Lemmas

namespace Scomp

/-- Single bytes written one after another. -/
def jdetWriteBytes (w : Writer) : List Byte → Option Writer
  | [] => some w
  | b :: bytes => do jdetWriteBytes (← writerWriteByte w b) bytes

/-- `_jdet_write_uint`, which calls itself once for each decimal digit; a
64-bit value has at most 20. -/
def jdetWriteUintDigits : Nat → Writer → UInt64 → Option (Nat × Writer)
  | 0, _, _ => none
  | fuel + 1, w, value => do
    let rem := value % 10
    let value := value / 10
    if value ≠ 0 then
      let (result, w) ← jdetWriteUintDigits fuel w value
      return (1 + result, ← writerWriteByte w (0x30 + rem.toUInt8))
    else
      return (1, ← writerWriteByte w (0x30 + rem.toUInt8))

def jdetWriteUint (w : Writer) (value : UInt64) : Option (Nat × Writer) := jdetWriteUintDigits 20 w value

/-- The loop that writes `chars & 0xff` and shifts. -/
def jdetWriteMerged : Nat → Writer → UInt64 → Option Writer
  | 0, w, _ => some w
  | length + 1, w, chars => do jdetWriteMerged length (← writerWriteByte w chars.toUInt8) (chars >>> 8)

/-- `flags & flag` as a condition. -/
def hasFlag (flags flag : Byte) : Bool := flags &&& flag ≠ 0

/-- Leading zeroes of a part, and the part unless it is zero. -/
def jdetWritePart (w : Writer) (leadingZeroes : Byte) (part : UInt64) : Option (Nat × Writer) := do
  let w ← jdetWriteBytes w (List.replicate leadingZeroes.toNat 0x30)
  if part ≠ 0 then
    let (result, w) ← jdetWriteUint w part
    return (leadingZeroes.toNat + result, w)
  else
    return (leadingZeroes.toNat, w)

def jdetWriteSign (w : Writer) (number : JsonNumberToken) : Option (Nat × Writer) :=
  if hasFlag number.flags JSON_NUMBER_IS_NEGATIVE then do return (1, ← writerWriteByte w 0x2d) else some (0, w)

def jdetWriteFraction (w : Writer) (number : JsonNumberToken) : Option (Nat × Writer) :=
  if hasFlag number.flags JSON_NUMBER_HAS_FRACTION then do
    let w ← writerWriteByte w 0x2e
    let (result, w) ← jdetWritePart w number.fractionLeadingZeroes number.fractionPart
    return (1 + result, w)
  else some (0, w)

def jdetWriteExponentSign (w : Writer) (number : JsonNumberToken) : Option (Nat × Writer) :=
  if hasFlag number.flags (JSON_NUMBER_EXPONENT_HAS_PLUS ||| JSON_NUMBER_EXPONENT_IS_NEGATIVE) then do
    return (1, ← writerWriteByte w (if hasFlag number.flags JSON_NUMBER_EXPONENT_HAS_PLUS then 0x2b else 0x2d))
  else some (0, w)

def jdetWriteExponent (w : Writer) (number : JsonNumberToken) : Option (Nat × Writer) :=
  if hasFlag number.flags JSON_NUMBER_HAS_EXPONENT then do
    let w ← writerWriteByte w (if hasFlag number.flags JSON_NUMBER_EXPONENT_UPPERCASE then 0x45 else 0x65)
    let (signResult, w) ← jdetWriteExponentSign w number
    let (result, w) ← jdetWritePart w number.exponentLeadingZeroes number.exponentPart.toUInt64
    return (1 + signResult + result, w)
  else some (0, w)

def jdetWriteNumber (w : Writer) (number : JsonNumberToken) : Option (Nat × Writer) := do
  let (signResult, w) ← jdetWriteSign w number
  let (intResult, w) ← jdetWriteUint w number.integerPart
  let (fracResult, w) ← jdetWriteFraction w number
  let (expoResult, w) ← jdetWriteExponent w number
  return (signResult + intResult + fracResult + expoResult, w)

/-- Writes the bytes of a token, returns how many it wrote. `none` also for:
"JSON detokenizer cannot serialize invalid tokens". -/
def jsonDetokenizerWrite (w : Writer) (token : JsonToken) : Option (Nat × Writer) :=
  match token.kind with
  | .invalid => none
  | .objectOpen => do return (1, ← writerWriteByte w 0x7b)
  | .objectClose => do return (1, ← writerWriteByte w 0x7d)
  | .arrayOpen => do return (1, ← writerWriteByte w 0x5b)
  | .arrayClose => do return (1, ← writerWriteByte w 0x5d)
  | .bom => do return (UTF8_BOM.length, ← jdetWriteBytes w UTF8_BOM)
  | .true => do return (JTOK_TRUE_BYTES.length, ← jdetWriteBytes w JTOK_TRUE_BYTES)
  | .false => do return (JTOK_FALSE_BYTES.length, ← jdetWriteBytes w JTOK_FALSE_BYTES)
  | .null => do return (JTOK_NULL_BYTES.length, ← jdetWriteBytes w JTOK_NULL_BYTES)
  | .valueSeparator => do return (1, ← writerWriteByte w 0x2c)
  | .stringDelimiter => do return (1, ← writerWriteByte w 0x22)
  | .kvSeparator => do return (1, ← writerWriteByte w 0x3a)
  | .whitespace => do return (1, ← writerWriteByte w token.character)
  | .escapeSequence => do return (2, ← jdetWriteBytes w [0x5c, token.character])
  | .unicodeCharacter => do
    return (token.unicodeLength.toNat, ← jdetWriteMerged token.unicodeLength.toNat w token.unicodeValue)
  | .escapedUnicodeCharcode => do
    let w ← jdetWriteBytes w [0x5c, 0x75]
    return (6, ← jdetWriteMerged 4 w token.unicodeValue)
  | .number => jdetWriteNumber w token.number

/-! ## The printed bytes -/

/-- The decimal digits of a number, most significant first. -/
def decimalBytes (n : Nat) : List Byte :=
  if n = 0 then [0x30] else (Nat.digits 10 n).reverse.map fun d => 0x30 + UInt8.ofNat d

def mergedBytes : Nat → UInt64 → List Byte
  | 0, _ => []
  | length + 1, chars => chars.toUInt8 :: mergedBytes length (chars >>> 8)

def printPart (leadingZeroes : Byte) (part : UInt64) : List Byte :=
  List.replicate leadingZeroes.toNat 0x30 ++ (if part ≠ 0 then decimalBytes part.toNat else [])

def printSign (number : JsonNumberToken) : List Byte :=
  if hasFlag number.flags JSON_NUMBER_IS_NEGATIVE then [0x2d] else []

def printFraction (number : JsonNumberToken) : List Byte :=
  if hasFlag number.flags JSON_NUMBER_HAS_FRACTION then
    0x2e :: printPart number.fractionLeadingZeroes number.fractionPart
  else []

def printExponentSign (number : JsonNumberToken) : List Byte :=
  if hasFlag number.flags (JSON_NUMBER_EXPONENT_HAS_PLUS ||| JSON_NUMBER_EXPONENT_IS_NEGATIVE) then
    [if hasFlag number.flags JSON_NUMBER_EXPONENT_HAS_PLUS then 0x2b else 0x2d]
  else []

def printExponent (number : JsonNumberToken) : List Byte :=
  if hasFlag number.flags JSON_NUMBER_HAS_EXPONENT then
    (if hasFlag number.flags JSON_NUMBER_EXPONENT_UPPERCASE then 0x45 else 0x65) ::
      (printExponentSign number ++ printPart number.exponentLeadingZeroes number.exponentPart.toUInt64)
  else []

def printNumber (number : JsonNumberToken) : List Byte :=
  printSign number ++ decimalBytes number.integerPart.toNat ++ printFraction number ++ printExponent number

/-- What the detokenizer prints for a token. -/
def printToken (token : JsonToken) : List Byte :=
  match token.kind with
  | .invalid => []
  | .objectOpen => [0x7b]
  | .objectClose => [0x7d]
  | .arrayOpen => [0x5b]
  | .arrayClose => [0x5d]
  | .bom => UTF8_BOM
  | .true => JTOK_TRUE_BYTES
  | .false => JTOK_FALSE_BYTES
  | .null => JTOK_NULL_BYTES
  | .valueSeparator => [0x2c]
  | .stringDelimiter => [0x22]
  | .kvSeparator => [0x3a]
  | .whitespace => [token.character]
  | .escapeSequence => [0x5c, token.character]
  | .unicodeCharacter => mergedBytes token.unicodeLength.toNat token.unicodeValue
  | .escapedUnicodeCharcode => [0x5c, 0x75] ++ mergedBytes 4 token.unicodeValue
  | .number => printNumber token.number

/-- A function that writes these bytes and returns their number. -/
def Prints (write : Writer → Option (Nat × Writer)) (bytes : List Byte) : Prop :=
  ∀ w, WriterAtByte w → ∃ w', write w = some (bytes.length, w') ∧ WriterAtByte w' ∧ w'.bytes = w.bytes ++ bytes

theorem jdetWriteBytes_spec {w : Writer} (h : WriterAtByte w) (bytes : List Byte) :
    ∃ w', jdetWriteBytes w bytes = some w' ∧ WriterAtByte w' ∧ w'.bytes = w.bytes ++ bytes := by
  induction bytes generalizing w with
  | nil => exact ⟨w, rfl, h, by simp⟩
  | cons b bytes ih =>
    obtain ⟨w₁, hw, h₁, hb⟩ := h.write b
    obtain ⟨w', hw', h', hb'⟩ := ih h₁
    refine ⟨w', ?_, h', ?_⟩
    · simp only [jdetWriteBytes, hw, Option.bind_eq_bind, Option.bind_some, hw']
    · rw [hb', hb, List.append_assoc]
      rfl

/-- A number with one more digit. -/
theorem decimalBytes_snoc {n d : Nat} (hn : 0 < n) (hd : d < 10) :
    decimalBytes (n * 10 + d) = decimalBytes n ++ [0x30 + UInt8.ofNat d] := by
  have hdigits : Nat.digits 10 (n * 10 + d) = d :: Nat.digits 10 n := by
    rw [Nat.mul_comm, Nat.add_comm]
    exact Nat.digits_add 10 (by decide) d n hd (.inr (by omega))
  rw [decimalBytes, decimalBytes, if_neg (by omega), if_neg (by omega), hdigits, List.reverse_cons, List.map_append]
  rfl

theorem decimalBytes_digit {d : Nat} (hd : d < 10) : decimalBytes d = [0x30 + UInt8.ofNat d] := by
  by_cases hz : d = 0
  · subst hz; rfl
  · rw [decimalBytes, if_neg hz, Nat.digits_of_lt 10 d hz hd]
    rfl

theorem jdetWriteUintDigits_prints {fuel} {value : UInt64} (hv : value.toNat < 10 ^ fuel) :
    0 < fuel → Prints (jdetWriteUintDigits fuel · value) (decimalBytes value.toNat) := by
  induction fuel generalizing value with
  | zero => intro hpos; omega
  | succ fuel ih =>
    intro _ w h
    have hdiv : (value / 10).toNat = value.toNat / 10 := by rw [UInt64.toNat_div]; rfl
    have hrem : (value % 10).toUInt8 = UInt8.ofNat (value.toNat % 10) := by
      apply UInt8.toNat_inj.mp
      rw [UInt64.toNat_toUInt8, UInt64.toNat_mod, UInt8.toNat_ofNat']
      rfl
    have hne : value / 10 ≠ 0 ↔ 0 < value.toNat / 10 := by
      rw [Ne, ← UInt64.toNat_inj, hdiv, Nat.pos_iff_ne_zero]
      rfl
    simp only [jdetWriteUintDigits]
    by_cases hmore : 0 < value.toNat / 10
    · rw [Nat.pow_succ] at hv
      have hpos : 0 < fuel := by
        by_contra hz
        have : fuel = 0 := by omega
        subst this
        simp at hv
        omega
      obtain ⟨w₁, hw₁, h₁, hb₁⟩ := @ih (value / 10) (by rw [hdiv]; omega) hpos w h
      obtain ⟨w₂, hw₂, h₂, hb₂⟩ := h₁.write (0x30 + (value % 10).toUInt8)
      have hsnoc := @decimalBytes_snoc (value.toNat / 10) (value.toNat % 10) hmore (Nat.mod_lt _ (by decide))
      rw [Nat.div_add_mod'] at hsnoc
      rw [hdiv] at hw₁ hb₁
      dsimp only at hw₁
      refine ⟨w₂, ?_, h₂, ?_⟩
      · rw [if_pos (hne.mpr hmore), hw₁]
        simp only [Option.bind_eq_bind, Option.bind_some, hw₂, hsnoc, List.length_append, List.length_singleton]
        rw [Nat.add_comm]
        rfl
      · rw [hb₂, hb₁, hsnoc, hrem, List.append_assoc]
    · obtain ⟨w₂, hw₂, h₂, hb₂⟩ := h.write (0x30 + (value % 10).toUInt8)
      have hsmall : value.toNat % 10 = value.toNat := Nat.mod_eq_of_lt (by omega)
      have hdigit := @decimalBytes_digit value.toNat (by omega)
      refine ⟨w₂, ?_, h₂, ?_⟩
      · rw [if_neg (fun hn => hmore (hne.mp hn)), hdigit]
        simp only [Option.bind_eq_bind, hw₂, Option.bind_some]
        rfl
      · rw [hb₂, hdigit, hrem, hsmall]

theorem jdetWriteUint_prints (value : UInt64) : Prints (jdetWriteUint · value) (decimalBytes value.toNat) := by
  have hv : value.toNat < 10 ^ 20 := Nat.lt_trans value.toNat_lt (by decide)
  exact jdetWriteUintDigits_prints hv (by decide)

theorem jdetWriteMerged_spec {w : Writer} (h : WriterAtByte w) (length : Nat) (chars : UInt64) :
    ∃ w', jdetWriteMerged length w chars = some w' ∧ WriterAtByte w' ∧
      w'.bytes = w.bytes ++ mergedBytes length chars := by
  induction length generalizing w chars with
  | zero => exact ⟨w, rfl, h, by simp [mergedBytes]⟩
  | succ length ih =>
    obtain ⟨w₁, hw, h₁, hb⟩ := h.write chars.toUInt8
    obtain ⟨w', hw', h', hb'⟩ := ih h₁ (chars >>> 8)
    refine ⟨w', ?_, h', ?_⟩
    · simp only [jdetWriteMerged, hw, Option.bind_eq_bind, Option.bind_some, hw']
    · rw [hb', hb, List.append_assoc]
      rfl

theorem mergedBytes_length (length : Nat) (chars : UInt64) : (mergedBytes length chars).length = length := by
  induction length generalizing chars with
  | zero => rfl
  | succ length ih => rw [mergedBytes, List.length_cons, ih]

/-! ## The detokenizer prints -/

theorem Prints.byte (b : Byte) : Prints (fun w => do return (1, ← writerWriteByte w b)) [b] := by
  intro w h
  obtain ⟨w', hw, h', hb⟩ := h.write b
  refine ⟨w', ?_, h', hb⟩
  simp only [hw, Option.bind_eq_bind, Option.bind_some]
  rfl

theorem Prints.bytes (bytes : List Byte) : Prints (fun w => do return (bytes.length, ← jdetWriteBytes w bytes)) bytes := by
  intro w h
  obtain ⟨w', hw, h', hb⟩ := jdetWriteBytes_spec h bytes
  refine ⟨w', ?_, h', hb⟩
  simp only [hw, Option.bind_eq_bind, Option.bind_some]
  rfl

theorem jdetWritePart_prints (leadingZeroes : Byte) (part : UInt64) :
    Prints (jdetWritePart · leadingZeroes part) (printPart leadingZeroes part) := by
  intro w h
  obtain ⟨w₁, hw₁, h₁, hb₁⟩ := jdetWriteBytes_spec h (List.replicate leadingZeroes.toNat 0x30)
  simp only [jdetWritePart, hw₁, Option.bind_eq_bind, Option.bind_some, printPart]
  split
  · obtain ⟨w₂, hw₂, h₂, hb₂⟩ := jdetWriteUint_prints part w₁ h₁
    refine ⟨w₂, ?_, h₂, by rw [hb₂, hb₁, List.append_assoc]⟩
    simp only [hw₂, Option.bind_some, List.length_append, List.length_replicate]
    rfl
  · exact ⟨w₁, by simp, h₁, by rw [hb₁, List.append_nil]⟩

theorem jdetWriteSign_prints (number : JsonNumberToken) :
    Prints (jdetWriteSign · number) (printSign number) := by
  intro w h
  unfold jdetWriteSign printSign
  split
  · exact Prints.byte 0x2d w h
  · exact ⟨w, rfl, h, by simp⟩

theorem jdetWriteFraction_prints (number : JsonNumberToken) :
    Prints (jdetWriteFraction · number) (printFraction number) := by
  intro w h
  unfold jdetWriteFraction printFraction
  split
  · obtain ⟨w₁, hw₁, h₁, hb₁⟩ := h.write 0x2e
    obtain ⟨w₂, hw₂, h₂, hb₂⟩ := jdetWritePart_prints number.fractionLeadingZeroes number.fractionPart w₁ h₁
    refine ⟨w₂, ?_, h₂, by rw [hb₂, hb₁, List.append_assoc]; rfl⟩
    simp only [hw₁, hw₂, Option.bind_eq_bind, Option.bind_some, List.length_cons]
    rw [Nat.add_comm]
    rfl
  · exact ⟨w, rfl, h, by simp⟩

theorem jdetWriteExponentSign_prints (number : JsonNumberToken) :
    Prints (jdetWriteExponentSign · number) (printExponentSign number) := by
  intro w h
  unfold jdetWriteExponentSign printExponentSign
  split
  · exact Prints.byte _ w h
  · exact ⟨w, rfl, h, by simp⟩

theorem jdetWriteExponent_prints (number : JsonNumberToken) :
    Prints (jdetWriteExponent · number) (printExponent number) := by
  intro w h
  unfold jdetWriteExponent printExponent
  split
  · obtain ⟨w₁, hw₁, h₁, hb₁⟩ := h.write (if hasFlag number.flags JSON_NUMBER_EXPONENT_UPPERCASE then 0x45 else 0x65)
    obtain ⟨w₂, hw₂, h₂, hb₂⟩ := jdetWriteExponentSign_prints number w₁ h₁
    obtain ⟨w₃, hw₃, h₃, hb₃⟩ := jdetWritePart_prints number.exponentLeadingZeroes
      number.exponentPart.toUInt64 w₂ h₂
    refine ⟨w₃, ?_, h₃, by rw [hb₃, hb₂, hb₁]; simp⟩
    simp only [hw₁, hw₂, hw₃, Option.bind_eq_bind, Option.bind_some, List.length_cons, List.length_append]
    rw [show 1 + (printExponentSign number).length +
        (printPart number.exponentLeadingZeroes number.exponentPart.toUInt64).length =
      (printExponentSign number).length +
        (printPart number.exponentLeadingZeroes number.exponentPart.toUInt64).length + 1 by omega]
    rfl
  · exact ⟨w, rfl, h, by simp⟩

theorem jdetWriteNumber_prints (number : JsonNumberToken) :
    Prints (jdetWriteNumber · number) (printNumber number) := by
  intro w h
  obtain ⟨w₁, hw₁, h₁, hb₁⟩ := jdetWriteSign_prints number w h
  obtain ⟨w₂, hw₂, h₂, hb₂⟩ := jdetWriteUint_prints number.integerPart w₁ h₁
  obtain ⟨w₃, hw₃, h₃, hb₃⟩ := jdetWriteFraction_prints number w₂ h₂
  obtain ⟨w₄, hw₄, h₄, hb₄⟩ := jdetWriteExponent_prints number w₃ h₃
  refine ⟨w₄, ?_, h₄, by rw [hb₄, hb₃, hb₂, hb₁, printNumber]; simp⟩
  simp only [jdetWriteNumber, hw₁, hw₂, hw₃, hw₄, Option.bind_eq_bind, Option.bind_some, printNumber,
    List.length_append]
  rfl

/-- **The detokenizer writes the bytes of any valid token** and returns
their number. -/
theorem jsonDetokenizerWrite_prints {token : JsonToken} (h : token.kind ≠ .invalid) :
    Prints (jsonDetokenizerWrite · token) (printToken token) := by
  unfold jsonDetokenizerWrite printToken
  cases hk : token.kind with
  | invalid => exact absurd hk h
  | objectOpen | objectClose | arrayOpen | arrayClose | valueSeparator | stringDelimiter | kvSeparator
  | whitespace => exact Prints.byte _
  | bom | true | false | null | escapeSequence => exact Prints.bytes _
  | unicodeCharacter =>
    intro w hw
    obtain ⟨w', hw', h', hb⟩ := jdetWriteMerged_spec hw token.unicodeLength.toNat token.unicodeValue
    refine ⟨w', ?_, h', hb⟩
    simp only [hw', Option.bind_eq_bind, Option.bind_some, mergedBytes_length]
    rfl
  | escapedUnicodeCharcode =>
    intro w hw
    obtain ⟨w₁, hw₁, h₁, hb₁⟩ := jdetWriteBytes_spec hw [0x5c, 0x75]
    obtain ⟨w₂, hw₂, h₂, hb₂⟩ := jdetWriteMerged_spec h₁ 4 token.unicodeValue
    refine ⟨w₂, ?_, h₂, by rw [hb₂, hb₁, List.append_assoc]⟩
    simp only [hw₁, hw₂, Option.bind_eq_bind, Option.bind_some, List.length_append, mergedBytes_length]
    rfl
  | number => exact jdetWriteNumber_prints token.number

end Scomp
