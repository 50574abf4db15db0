/-
The texts that the tokenizer reads as numbers.

A `NumberText` that stands in front of the right bytes (`Before`) is scanned
whole, as the number it spells, and everything scanned as a number is one.
-/
import Scomp.Json.Digits

namespace Scomp

/-- `e` or `E`, an optional sign, and digits. -/
structure ExponentText where
  mark : Byte
  sign : Option Byte
  digits : List Byte

/-- `-` or not, digits, and optionally a point with digits and an exponent. -/
structure NumberText where
  negative : Bool
  integer : List Byte
  fraction : Option (List Byte)
  exponent : Option ExponentText

def ExponentText.bytes (text : ExponentText) : List Byte := text.mark :: (text.sign.toList ++ text.digits)

def signBytes (negative : Bool) : List Byte := if negative then [0x2d] else []

def fractionBytes : Option (List Byte) → List Byte
  | none => []
  | some digits => 0x2e :: digits

def exponentBytes : Option ExponentText → List Byte
  | none => []
  | some text => text.bytes

def NumberText.bytes (text : NumberText) : List Byte :=
  signBytes text.negative ++ (text.integer ++ (fractionBytes text.fraction ++ exponentBytes text.exponent))

/-! ## What may be read -/

structure ExponentText.Before (text : ExponentText) (rest : List Byte) : Prop where
  mark : text.mark = 0x65 ∨ text.mark = 0x45
  sign : ∀ b ∈ text.sign, b = 0x2d ∨ b = 0x2b
  digits : ReadableRun text.digits rest
  small : decimalValue text.digits ≤ 65535

def ExponentBefore (rest : List Byte) : Option ExponentText → Prop
  | none => ∀ b ∈ rest.head?, b ≠ 0x65 ∧ b ≠ 0x45
  | some text => text.Before rest

def FractionBefore (rest : List Byte) : Option (List Byte) → Prop
  | none => ∀ b ∈ rest.head?, b ≠ 0x2e
  | some digits => ReadableRun digits rest

/-- A leading zero is the only digit. -/
structure IntegerBefore (integer rest : List Byte) : Prop extends ReadableRun integer rest where
  noZeroes : leadingZeroCount integer = 0 ∨ integer = [0x30]

/-- The text is readable, and the bytes after it do not continue it. -/
structure NumberText.Before (text : NumberText) (rest : List Byte) : Prop where
  integer : IntegerBefore text.integer (fractionBytes text.fraction ++ (exponentBytes text.exponent ++ rest))
  fraction : FractionBefore (exponentBytes text.exponent ++ rest) text.fraction
  exponent : ExponentBefore rest text.exponent

/-! ## The number spelled -/

def signNumber (negative : Bool) : JsonNumberToken :=
  if negative then { JsonNumberToken.zero with flags := JSON_NUMBER_IS_NEGATIVE } else .zero

def integerNumber (number : JsonNumberToken) (digits : List Byte) : JsonNumberToken :=
  if leadingZeroCount digits > 0 then { number with flags := number.flags ||| JSON_NUMBER_INTEGER_PART_IS_ZERO }
  else { number with integerPart := (uintResult digits).value }

def fractionNumber (number : JsonNumberToken) : Option (List Byte) → JsonNumberToken
  | none => number
  | some digits =>
    { number with
      flags := number.flags ||| JSON_NUMBER_HAS_FRACTION
      fractionPart := (uintResult digits).value
      fractionLeadingZeroes := (uintResult digits).leadingZeroes }

def exponentSignNumber (number : JsonNumberToken) : Option Byte → JsonNumberToken
  | none => number
  | some b =>
    { number with
      flags := number.flags |||
        (if b = 0x2d then JSON_NUMBER_EXPONENT_IS_NEGATIVE else JSON_NUMBER_EXPONENT_HAS_PLUS) }

def exponentNumber (number : JsonNumberToken) : Option ExponentText → JsonNumberToken
  | none => number
  | some text =>
    { exponentSignNumber (withExponent number text.mark) text.sign with
      exponentPart := (uintResult text.digits).value.toUInt16
      exponentLeadingZeroes := (uintResult text.digits).leadingZeroes }

/-- The number that the text spells. -/
def NumberText.number (text : NumberText) : JsonNumberToken :=
  exponentNumber (fractionNumber (integerNumber (signNumber text.negative) text.integer) text.fraction) text.exponent

/-! ## Scanning a text -/

theorem DigitRun.head {digits rest : List Byte} (h : DigitRun digits rest) : ∃ b tail, digits = b :: tail ∧ isDigit b = true := by
  obtain ⟨b, tail, rfl⟩ := List.exists_cons_of_ne_nil h.nonempty
  exact ⟨b, tail, rfl, h.digit b (by simp)⟩

theorem ne_of_isDigit {b c : Byte} (hb : isDigit b = true) (hc : isDigit c = false) : b ≠ c := by
  rintro rfl
  rw [hb] at hc
  cases hc

theorem scanNumberSign_text (negative : Bool) {digits rest : List Byte} (h : DigitRun digits rest) :
    scanNumberSign (signBytes negative ++ (digits ++ rest)) =
      some (signNumber negative, (signBytes negative).length) := by
  obtain ⟨b, tail, rfl, hb⟩ := h.head
  cases negative with
  | true => simp [signBytes, signNumber, scanNumberSign]
  | false =>
    have hne : b ≠ 0x2d := ne_of_isDigit hb (by decide)
    simp [signBytes, signNumber, scanNumberSign, hne]

theorem scanNumberInteger_text (number : JsonNumberToken) {digits rest : List Byte} (h : IntegerBefore digits rest) :
    scanNumberInteger number (digits ++ rest) = some (integerNumber number digits, digits.length) := by
  have hread := h.toReadableRun
  have hlead := hread.leadingZeroes
  have hvalue := hread.value
  simp only [scanNumberInteger, hread.scanUint, hread.valid, integerNumber]
  rcases h.noZeroes with hzero | rfl
  · have hnone : (uintResult digits).leadingZeroes = 0 := UInt8.toNat_inj.1 (hlead.trans hzero)
    simp [hnone, hzero]
  · rfl

theorem scanNumberFraction_text (number : JsonNumberToken) {fraction : Option (List Byte)} {rest : List Byte}
    (h : FractionBefore rest fraction) :
    scanNumberFraction number (fractionBytes fraction ++ rest) =
      some (fractionNumber number fraction, (fractionBytes fraction).length) := by
  cases fraction with
  | none =>
    cases rest with
    | nil => rfl
    | cons b rest =>
      have hb : b ≠ 0x2e := h b rfl
      simp [fractionBytes, fractionNumber, scanNumberFraction, hb]
  | some digits =>
    have hread : ReadableRun digits rest := h
    have hlen := List.length_pos_iff.2 hread.nonempty
    simp only [fractionBytes, List.cons_append, scanNumberFraction, if_pos, scanFractionDigits, hread.scanUint,
      hread.valid, List.length_append]
    rw [if_neg (by omega)]
    simp [fractionNumber, Nat.add_comm]

theorem scanExponentSign_text (number : JsonNumberToken) {sign : Option Byte} {digits rest : List Byte}
    (hsign : ∀ b ∈ sign, b = 0x2d ∨ b = 0x2b) (h : DigitRun digits rest) :
    scanExponentSign number (sign.toList ++ (digits ++ rest)) =
      some (exponentSignNumber number sign, sign.toList.length) := by
  obtain ⟨b, tail, rfl, hb⟩ := h.head
  cases sign with
  | none =>
    have hminus : b ≠ 0x2d := ne_of_isDigit hb (by decide)
    have hplus : b ≠ 0x2b := ne_of_isDigit hb (by decide)
    simp [scanExponentSign, exponentSignNumber, hminus, hplus]
  | some c =>
    have hc := hsign c rfl
    simp [scanExponentSign, exponentSignNumber, hc]

theorem scanNumberExponent_text (number : JsonNumberToken) {exponent : Option ExponentText} {rest : List Byte}
    (h : ExponentBefore rest exponent) :
    scanNumberExponent number (exponentBytes exponent ++ rest) =
      some (exponentNumber number exponent, (exponentBytes exponent).length) := by
  cases exponent with
  | none =>
    cases rest with
    | nil => rfl
    | cons b rest =>
      obtain ⟨hlower, hupper⟩ := h b rfl
      simp [exponentBytes, exponentNumber, scanNumberExponent, hlower, hupper]
  | some text =>
    have hbefore : text.Before rest := h
    have hread := hbefore.digits
    have hlen := List.length_pos_iff.2 hread.nonempty
    have hmark : (decide (text.mark = 0x65) || decide (text.mark = 0x45)) = true := by
      simpa using hbefore.mark
    have hsmall : ¬ (uintResult text.digits).value > 65535 := by
      rw [gt_iff_lt, UInt64.not_lt, UInt64.le_iff_toNat_le, hread.value]
      exact hbefore.small
    have hsign := scanExponentSign_text (withExponent number text.mark) hbefore.sign hread.toDigitRun
    simp only [exponentBytes, ExponentText.bytes, List.cons_append, List.append_assoc, scanNumberExponent, hmark, if_true,
      List.length_append]
    rw [if_neg (by omega), Scanner.andThen, hsign]
    simp [scanExponentDigits, hread.scanUint, hread.valid, hsmall, exponentNumber, Nat.add_comm]

theorem Scanner.andThen_append {α β : Type} {first : Scanner α} {next : α → Scanner β} {l r : List Byte} {a : α} {b : β}
    {n : Nat} (h : first (l ++ r) = some (a, l.length)) (hnext : next a r = some (b, n)) :
    first.andThen next (l ++ r) = some (b, l.length + n) := by
  simp [Scanner.andThen, h, hnext]

/-- **A number text is scanned whole.** -/
theorem scanNumber_text {text : NumberText} {rest : List Byte} (h : text.Before rest) :
    scanNumber (text.bytes ++ rest) =
      some ({ kind := .number, payload := .number text.number }, text.bytes.length) := by
  have hsign := scanNumberSign_text text.negative h.integer.toDigitRun
  have hinteger := Scanner.andThen_append hsign (scanNumberInteger_text _ h.integer)
  rw [← List.length_append, ← List.append_assoc] at hinteger
  have hfraction := Scanner.andThen_append hinteger (scanNumberFraction_text _ h.fraction)
  rw [← List.length_append, ← List.append_assoc] at hfraction
  have hexponent := Scanner.andThen_append hfraction (scanNumberExponent_text _ h.exponent)
  rw [← List.length_append, ← List.append_assoc] at hexponent
  have hbytes : text.bytes = signBytes text.negative ++ text.integer ++ fractionBytes text.fraction ++
      exponentBytes text.exponent := by
    simp [NumberText.bytes]
  rw [scanNumber, hbytes, hexponent]
  rfl

/-! ## A scanned number is a text -/

theorem scanNumberSign_isText {bytes : List Byte} {number : JsonNumberToken} {n : Nat}
    (h : scanNumberSign bytes = some (number, n)) :
    ∃ negative, bytes = signBytes negative ++ bytes.drop n ∧ number = signNumber negative := by
  cases bytes with
  | nil => cases h
  | cons b bytes =>
    rw [scanNumberSign] at h
    by_cases hb : b = 0x2d
    · subst hb
      rw [if_pos rfl] at h
      split at h
      · cases h
      · cases h
        exact ⟨true, rfl, rfl⟩
    · rw [if_neg hb] at h
      cases h
      exact ⟨false, rfl, rfl⟩

theorem scanNumberInteger_isText {number number' : JsonNumberToken} {bytes : List Byte} {n : Nat}
    (h : scanNumberInteger number bytes = some (number', n)) :
    ∃ digits, bytes = digits ++ bytes.drop n ∧ IntegerBefore digits (bytes.drop n) := by
  have hvalid : jtokUintIsInvalid (scanUint 0 0 bytes).1 = false := by
    by_contra hinvalid
    rw [Bool.not_eq_false] at hinvalid
    simp [scanNumberInteger, hinvalid] at h
  obtain ⟨digits, rest, rfl, hread⟩ := scanUint_readableRun hvalid
  have hlead := hread.leadingZeroes
  have hvalue := hread.value
  simp only [scanNumberInteger, hread.scanUint, hread.valid, Bool.false_or] at h
  by_cases hmany : (decide ((uintResult digits).leadingZeroes > 1) ||
      decide ((uintResult digits).leadingZeroes > 0) && decide ((uintResult digits).value > 0)) = true
  · rw [if_pos hmany] at h
    cases h
  · rw [if_neg hmany] at h
    have hn : n = digits.length := by
      split at h
      · cases h
        rfl
      · cases h
        rfl
    have hrest : (digits ++ rest).drop n = rest := by rw [hn, List.drop_left]
    rw [hrest]
    refine ⟨digits, rfl, hread, ?_⟩
    simp only [Bool.or_eq_true, Bool.and_eq_true, decide_eq_true_eq, gt_iff_lt, not_or, not_and, UInt64.not_lt,
      UInt8.lt_iff_toNat_lt, UInt64.le_iff_toNat_le, hlead, hvalue] at hmany
    obtain ⟨hone, hboth⟩ := hmany
    rcases Nat.eq_zero_or_pos (leadingZeroCount digits) with hzero | hpos
    · exact .inl hzero
    · refine .inr ?_
      have hzero : decimalValue digits = 0 := Nat.le_zero.1 (hboth hpos)
      have hlength := leadingZeroCount_of_decimalValue hread.digit hzero
      have hone' : digits.length = 1 := by
        rw [← hlength]
        exact Nat.le_antisymm (Nat.not_lt.1 hone) hpos
      obtain ⟨b, rfl⟩ := List.length_eq_one_iff.1 hone'
      by_cases hb : b = 0x30
      · rw [hb]
      · simp [leadingZeroCount, hb] at hlength

theorem scanNumberFraction_isText {number number' : JsonNumberToken} {bytes : List Byte} {n : Nat}
    (h : scanNumberFraction number bytes = some (number', n)) :
    ∃ fraction, bytes = fractionBytes fraction ++ bytes.drop n ∧ FractionBefore (bytes.drop n) fraction := by
  cases bytes with
  | nil => exact ⟨none, by simp [fractionBytes], by simp [FractionBefore]⟩
  | cons b bytes =>
    rw [scanNumberFraction] at h
    by_cases hb : b = 0x2e
    · subst hb
      rw [if_pos rfl] at h
      split at h
      · cases h
      · obtain ⟨⟨number₁, n₁⟩, hdigits, he⟩ := Option.map_eq_some_iff.mp h
        cases he
        have hvalid : jtokUintIsInvalid (scanUint 0 0 bytes).1 = false := by
          by_contra hinvalid
          rw [Bool.not_eq_false] at hinvalid
          simp [scanFractionDigits, hinvalid] at hdigits
        obtain ⟨digits, rest, rfl, hread⟩ := scanUint_readableRun hvalid
        simp only [scanFractionDigits, hread.scanUint, hread.valid, Bool.false_eq_true, if_false] at hdigits
        cases hdigits
        rw [Nat.add_comm, List.drop_succ_cons, List.drop_left]
        exact ⟨some digits, rfl, hread⟩
    · rw [if_neg hb] at h
      cases h
      exact ⟨none, rfl, by simpa [FractionBefore] using hb⟩

theorem scanExponentSign_isText {number number' : JsonNumberToken} {bytes : List Byte} {n : Nat}
    (h : scanExponentSign number bytes = some (number', n)) :
    ∃ sign : Option Byte, bytes = sign.toList ++ bytes.drop n ∧ ∀ b ∈ sign, b = 0x2d ∨ b = 0x2b := by
  cases bytes with
  | nil => cases h
  | cons b bytes =>
    rw [scanExponentSign] at h
    by_cases hb : b = 0x2d ∨ b = 0x2b
    · rw [if_pos (by simpa using hb)] at h
      split at h
      · cases h
      · cases h
        exact ⟨some b, rfl, by simpa using hb⟩
    · rw [if_neg (by simpa using hb)] at h
      cases h
      exact ⟨none, rfl, by simp⟩

theorem scanNumberExponent_isText {number number' : JsonNumberToken} {bytes : List Byte} {n : Nat}
    (h : scanNumberExponent number bytes = some (number', n)) :
    ∃ exponent, bytes = exponentBytes exponent ++ bytes.drop n ∧ ExponentBefore (bytes.drop n) exponent := by
  cases bytes with
  | nil => exact ⟨none, by simp [exponentBytes], by simp [ExponentBefore]⟩
  | cons b bytes =>
    rw [scanNumberExponent] at h
    by_cases hb : b = 0x65 ∨ b = 0x45
    · rw [if_pos (by simpa using hb)] at h
      split at h
      · cases h
      · obtain ⟨⟨number₂, n₂⟩, hboth, he⟩ := Option.map_eq_some_iff.mp h
        cases he
        obtain ⟨number₁, n₁, n₂, hsign, hdigits, rfl⟩ := Scanner.andThen_eq_some hboth
        obtain ⟨sign, hsplit, hsignBytes⟩ := scanExponentSign_isText hsign
        rw [Nat.add_comm, List.drop_succ_cons, ← List.drop_drop]
        generalize bytes.drop n₁ = digitBytes at hsplit hdigits ⊢
        have hvalid : jtokUintIsInvalid (scanUint 0 0 digitBytes).1 = false := by
          by_contra hinvalid
          rw [Bool.not_eq_false] at hinvalid
          simp [scanExponentDigits, hinvalid] at hdigits
        obtain ⟨digits, rest, rfl, hread⟩ := scanUint_readableRun hvalid
        by_cases hlarge : (uintResult digits).value > 65535
        · simp [scanExponentDigits, hread.scanUint, hread.valid, hlarge] at hdigits
        · simp only [scanExponentDigits, hread.scanUint, hread.valid, hlarge, decide_false, Bool.or_self,
            Bool.false_eq_true, if_false] at hdigits
          cases hdigits
          rw [List.drop_left]
          rw [gt_iff_lt, UInt64.not_lt, UInt64.le_iff_toNat_le, hread.value] at hlarge
          refine ⟨some { mark := b, sign := sign, digits := digits }, ?_, ?_⟩
          · rw [hsplit]
            simp [exponentBytes, ExponentText.bytes]
          · exact ⟨hb, hsignBytes, hread, hlarge⟩
    · rw [if_neg (by simpa using hb)] at h
      cases h
      exact ⟨none, rfl, by simpa [ExponentBefore] using hb⟩

/-- **What is scanned as a number is a number text.** -/
theorem scanNumber_isText {bytes : List Byte} {token : JsonToken} {n : Nat}
    (h : scanNumber bytes = some (token, n)) :
    ∃ (text : NumberText) (rest : List Byte), bytes = text.bytes ++ rest ∧ text.Before rest ∧
      token = { kind := .number, payload := .number text.number } ∧ n = text.bytes.length := by
  obtain ⟨⟨number₄, n₄⟩, hall, -⟩ := Option.map_eq_some_iff.mp h
  obtain ⟨number₃, m₃, n₄, hall₃, hexp, rfl⟩ := Scanner.andThen_eq_some hall
  obtain ⟨number₂, m₂, n₃, hall₂, hfrac, rfl⟩ := Scanner.andThen_eq_some hall₃
  obtain ⟨number₁, n₁, n₂, hsign, hint, rfl⟩ := Scanner.andThen_eq_some hall₂
  obtain ⟨negative, hbytes, -⟩ := scanNumberSign_isText hsign
  obtain ⟨digits, hbytes₁, hinteger⟩ := scanNumberInteger_isText hint
  obtain ⟨fraction, hbytes₂, hfraction⟩ := scanNumberFraction_isText hfrac
  obtain ⟨exponent, hbytes₃, hexponent⟩ := scanNumberExponent_isText hexp
  rw [List.drop_drop] at hbytes₁ hinteger hbytes₂
  rw [List.drop_drop] at hfraction hbytes₃ hexponent
  let text : NumberText := { negative := negative, integer := digits, fraction := fraction, exponent := exponent }
  have hsplit : bytes = text.bytes ++ bytes.drop (n₁ + n₂ + n₃ + n₄) := by
    refine hbytes.trans ?_
    rw [hbytes₁, hbytes₂, hbytes₃]
    simp [text, NumberText.bytes]
  have hbefore : text.Before (bytes.drop (n₁ + n₂ + n₃ + n₄)) := by
    rw [hbytes₃] at hbytes₂ hfraction
    rw [hbytes₂] at hinteger
    exact ⟨hinteger, hfraction, hexponent⟩
  have hscan := scanNumber_text hbefore
  rw [← hsplit, h] at hscan
  cases hscan
  exact ⟨text, _, hsplit, hbefore, rfl, rfl⟩

end Scomp
