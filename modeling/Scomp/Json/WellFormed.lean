/-
What holds of the tokens that scanning yields: enough to compress them, and
to print them again from what was compressed.
-/
import Scomp.Json.Reprint
import Scomp.Json.Compressor

namespace Scomp

/-- The fields of a number are in the ranges its tables are made for, but for
the fraction; the integer part is zero when the flags say so. -/
structure NumberWellFormed (number : JsonNumberToken) : Prop where
  flags : number.flags.toNat < 128
  zero : hasFlag number.flags JSON_NUMBER_INTEGER_PART_IS_ZERO = true → number.integerPart = 0
  fractionZeroes : number.fractionLeadingZeroes.toNat < 80
  exponentZeroes : number.exponentLeadingZeroes.toNat < 80

theorem scanUint_zeroes {leadingZeroes : Byte} {value : UInt64} {bytes : List Byte} (h : leadingZeroes.toNat < 80) :
    (scanUint leadingZeroes value bytes).1.leadingZeroes.toNat < 80 := by
  induction bytes generalizing leadingZeroes value with
  | nil => exact h
  | cons b bytes ih =>
    rw [scanUint]
    split
    · exact h
    · split
      · split
        · decide
        · next hfew =>
          rw [ge_iff_le, UInt8.le_iff_toNat_le, show JSON_MAX_NUMBER_LEADING_ZEROES.toNat = 80 from rfl] at hfew
          exact ih (by omega)
      · split
        · decide
        · exact ih h

/-- Flags but the one of the integer part. -/
theorem NumberWellFormed.withFlag {number : JsonNumberToken} (h : NumberWellFormed number) {flag : Byte}
    (hlt : flag.toNat < 128) (hmask : flag &&& JSON_NUMBER_INTEGER_PART_IS_ZERO = 0) :
    NumberWellFormed { number with flags := number.flags ||| flag } := by
  refine ⟨?_, fun hzero => ?_, h.fractionZeroes, h.exponentZeroes⟩
  · show (number.flags ||| flag).toNat < 2 ^ 7
    rw [UInt8.toNat_or]
    exact Nat.or_lt_two_pow h.flags hlt
  · dsimp only at hzero
    rw [hasFlag_or hmask] at hzero
    exact h.zero hzero

theorem scanNumberSign_wellFormed {bytes : List Byte} {number : JsonNumberToken} {n : Nat}
    (h : scanNumberSign bytes = some (number, n)) : NumberWellFormed number ∧ number.integerPart = 0 := by
  obtain ⟨-, -, hzero, hflags⟩ := scanNumberSign_prints h
  have hparts : number.fractionLeadingZeroes = 0 ∧ number.exponentLeadingZeroes = 0 := by
    match bytes with
    | [] => cases h
    | b :: bytes =>
      rw [scanNumberSign] at h
      split at h
      · split at h <;> cases h
        exact ⟨rfl, rfl⟩
      · cases h
        exact ⟨rfl, rfl⟩
  refine ⟨⟨?_, fun _ => hzero, ?_, ?_⟩, hzero⟩
  · simp only [List.mem_cons, List.not_mem_nil, or_false] at hflags
    obtain hf | hf := hflags <;> rw [hf] <;> decide
  · rw [hparts.1]; decide
  · rw [hparts.2]; decide

theorem scanNumberInteger_wellFormed {number number' : JsonNumberToken} {bytes : List Byte} {n : Nat}
    (hw : NumberWellFormed number) (hzero : number.integerPart = 0)
    (hflag : hasFlag number.flags JSON_NUMBER_INTEGER_PART_IS_ZERO = false)
    (h : scanNumberInteger number bytes = some (number', n)) : NumberWellFormed number' := by
  simp only [scanNumberInteger] at h
  split at h
  · cases h
  · split at h
    · cases h
      refine ⟨?_, fun _ => hzero, hw.fractionZeroes, hw.exponentZeroes⟩
      show (number.flags ||| JSON_NUMBER_INTEGER_PART_IS_ZERO).toNat < 2 ^ 7
      rw [UInt8.toNat_or]
      exact Nat.or_lt_two_pow hw.flags (by decide)
    · cases h
      refine ⟨hw.flags, fun hset => ?_, hw.fractionZeroes, hw.exponentZeroes⟩
      dsimp only at hset
      rw [hflag] at hset
      cases hset

theorem scanNumberFraction_wellFormed {number number' : JsonNumberToken} {bytes : List Byte} {n : Nat}
    (hw : NumberWellFormed number) (h : scanNumberFraction number bytes = some (number', n)) :
    NumberWellFormed number' := by
  match bytes with
  | [] => cases h; exact hw
  | b :: bytes =>
    rw [scanNumberFraction] at h
    split at h
    · split at h
      · cases h
      · obtain ⟨⟨number₁, n₁⟩, hdigits, he⟩ := Option.map_eq_some_iff.mp h
        cases he
        simp only [scanFractionDigits] at hdigits
        split at hdigits
        · cases hdigits
        · cases hdigits
          obtain ⟨hflags, hzero, -, hexponent⟩ := @NumberWellFormed.withFlag _ hw JSON_NUMBER_HAS_FRACTION
            (by decide) (by decide)
          exact ⟨hflags, hzero, scanUint_zeroes (by decide), hexponent⟩
    · cases h
      exact hw

theorem scanNumberExponent_wellFormed {number number' : JsonNumberToken} {bytes : List Byte} {n : Nat}
    (hw : NumberWellFormed number) (h : scanNumberExponent number bytes = some (number', n)) :
    NumberWellFormed number' := by
  match bytes with
  | [] => cases h; exact hw
  | b :: bytes =>
    rw [scanNumberExponent] at h
    split at h
    · split at h
      · cases h
      · obtain ⟨⟨number₁, n₁⟩, hparts, he⟩ := Option.map_eq_some_iff.mp h
        cases he
        obtain ⟨number₂, m, k, hsign, hdigits, -⟩ := Scanner.andThen_eq_some hparts
        obtain ⟨sign, hmem, rfl, -, -⟩ := scanExponentSign_prints hsign
        have hexponent : NumberWellFormed (withExponent number b) := by
          have hw' := @NumberWellFormed.withFlag _ hw JSON_NUMBER_HAS_EXPONENT (by decide) (by decide)
          refine @NumberWellFormed.withFlag _ hw' (if b = 0x45 then JSON_NUMBER_EXPONENT_UPPERCASE else 0) ?_ ?_ <;>
            split <;> decide
        have hsigns : ∀ sign ∈ ([0, JSON_NUMBER_EXPONENT_IS_NEGATIVE, JSON_NUMBER_EXPONENT_HAS_PLUS] : List Byte),
            sign.toNat < 128 ∧ sign &&& JSON_NUMBER_INTEGER_PART_IS_ZERO = 0 :=
          List.all_iff_forall_prop.mp (by decide)
        obtain ⟨hlt, hmask⟩ := hsigns sign hmem
        have hsigned := hexponent.withFlag hlt hmask
        simp only [scanExponentDigits] at hdigits
        split at hdigits
        · cases hdigits
        · cases hdigits
          exact ⟨hsigned.flags, hsigned.zero, hsigned.fractionZeroes, scanUint_zeroes (by decide)⟩
    · cases h
      exact hw

theorem scanNumber_wellFormed {bytes : List Byte} {token : JsonToken} {n : Nat} (h : scanNumber bytes = some (token, n)) :
    NumberWellFormed token.number := by
  obtain ⟨⟨number₄, n⟩, hall, he⟩ := Option.map_eq_some_iff.mp h
  cases he
  obtain ⟨number₃, m₃, n₄, hall₃, hexponent, -⟩ := Scanner.andThen_eq_some hall
  obtain ⟨number₂, m₂, n₃, hall₂, hfraction, -⟩ := Scanner.andThen_eq_some hall₃
  obtain ⟨number₁, n₁, n₂, hsign, hinteger, -⟩ := Scanner.andThen_eq_some hall₂
  obtain ⟨hw₁, hzero⟩ := scanNumberSign_wellFormed hsign
  obtain ⟨-, -, -, hflags⟩ := scanNumberSign_prints hsign
  have hflag : hasFlag number₁.flags JSON_NUMBER_INTEGER_PART_IS_ZERO = false := by
    simp only [List.mem_cons, List.not_mem_nil, or_false] at hflags
    obtain hf | hf := hflags <;> rw [hf] <;> decide
  have hw₂ := scanNumberInteger_wellFormed hw₁ hzero hflag hinteger
  exact scanNumberExponent_wellFormed (scanNumberFraction_wellFormed hw₂ hfraction) hexponent

/-! ## Tokens -/

/-- A token scanned inside or outside a string. -/
def TokenWellFormed : Bool → JsonToken → Prop
  | true, token =>
    token.kind = .stringDelimiter ∨
      isStringCharacterKind token.kind = true ∧ jsonStringTokenBytes token = printToken token
  | false, token =>
    isStringCharacterKind token.kind = false ∧
      (token.kind = .whitespace → token.character ∈ JTOK_WHITESPACE_CHARS) ∧
      (token.kind = .number → NumberWellFormed token.number)

theorem scanStringToken_wellFormed {bytes : List Byte} {token : JsonToken} {n : Nat}
    (h : scanStringToken bytes = some (token, n)) : TokenWellFormed true token := by
  cases bytes with
  | nil => cases h
  | cons b bytes =>
    simp only [scanStringToken] at h
    split at h
    · cases h
      exact .inl rfl
    · right
      split at h
      · split at h
        · cases h
        · cases bytes with
          | nil => cases h
          | cons nextChar bytes =>
            rw [scanEscape] at h
            split at h
            · cases h
              exact ⟨rfl, rfl⟩
            · split at h
              · split at h
                · cases h
                · obtain ⟨value, -, he⟩ := Option.map_eq_some_iff.mp h
                  cases he
                  exact ⟨rfl, rfl⟩
              · cases h
      · split at h
        · cases h
        · split at h
          · cases h
          · obtain ⟨value, -, he⟩ := Option.map_eq_some_iff.mp h
            cases he
            exact ⟨rfl, rfl⟩

/-- What the first byte of a token says about a kind outside strings. -/
def StartsNonstring (b : Byte) (kind : JsonTokenKind) : Prop :=
  isStringCharacterKind kind = false ∧ (kind = .whitespace → b ∈ JTOK_WHITESPACE_CHARS)

theorem jtokDetectNonstringTokenStart_kind (b : Byte) : StartsNonstring b (jtokDetectNonstringTokenStart b) := by
  unfold jtokDetectNonstringTokenStart
  repeat' refine iteInduction (fun hb => ?_) (fun _ => ?_)
  all_goals first | (refine ⟨rfl, fun h => ?_⟩; cases h; done) | skip
  simp only [Bool.or_eq_true, decide_eq_true_eq] at hb
  refine ⟨rfl, fun _ => ?_⟩
  obtain ((rfl | rfl) | rfl) | rfl := hb <;> decide

theorem scanFixed_kind {kind : JsonTokenKind} {expectedBytes bytes : List Byte} {token : JsonToken} {n : Nat}
    (h : scanFixed kind expectedBytes bytes = some (token, n)) : token = { kind := kind } := by
  rw [scanFixed] at h
  split at h <;> cases h
  rfl

theorem scanNonstringToken_wellFormed {bytes : List Byte} {token : JsonToken} {n : Nat}
    (h : scanNonstringToken bytes = some (token, n)) : TokenWellFormed false token := by
  match bytes with
  | [] => cases h
  | b :: bytes =>
    obtain ⟨hkind, hwhitespace⟩ := jtokDetectNonstringTokenStart_kind b
    simp only [scanNonstringToken] at h
    generalize jtokDetectNonstringTokenStart b = detected at h hkind hwhitespace
    cases detected with
    | invalid => cases h
    | number =>
      obtain ⟨hnumber, -⟩ := scanNumber_prints h
      have hw := scanNumber_wellFormed h
      exact ⟨by rw [hnumber]; rfl, fun he => (by rw [hnumber] at he; cases he), fun _ => hw⟩
    | true | false | null | bom =>
      dsimp only at h
      split at h
      · cases h
      · rw [scanFixed_kind h]
        exact ⟨rfl, fun he => (by cases he), fun he => (by cases he)⟩
    | whitespace =>
      cases h
      exact ⟨rfl, fun _ => hwhitespace rfl, fun he => (by cases he)⟩
    | escapeSequence | unicodeCharacter | escapedUnicodeCharcode => cases hkind
    | _ =>
      cases h
      exact ⟨rfl, fun he => (by cases he), fun he => (by cases he)⟩

/-- **Scanned tokens are well formed.** -/
theorem scanToken_wellFormed {isString : Bool} {bytes : List Byte} {token : JsonToken} {n : Nat}
    (h : scanToken isString bytes = some (token, n)) : TokenWellFormed isString token := by
  cases isString with
  | true => exact scanStringToken_wellFormed h
  | false => exact scanNonstringToken_wellFormed h

end Scomp
