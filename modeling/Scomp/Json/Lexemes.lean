/-
The texts of the tokens, byte by byte, and the scanner against them.

A number text must not be continued by what follows it; any other text is
scanned whatever follows.
-/
import Scomp.Json.Retokenize

namespace Scomp

/-! ## The lexical grammar -/

def IsContinuation (b : Byte) : Prop := 0x80 ≤ b ∧ b ≤ 0xbf

/-- The UTF-8 sequences of a character that is not escaped. The first byte
decides the length; no more is asked of the others than that they are
continuations. -/
inductive IsCharacter : List Byte → Prop
  | one {b} : 0x20 ≤ b → b ≤ 0x7f → b ≠ 0x22 → b ≠ 0x5c → IsCharacter [b]
  | two {a b} : 0xc2 ≤ a → a ≤ 0xdf → IsContinuation b → IsCharacter [a, b]
  | three {a b c} : 0xe0 ≤ a → a ≤ 0xef → IsContinuation b → IsContinuation c → IsCharacter [a, b, c]
  | four {a b c d} : 0xf0 ≤ a → a ≤ 0xf4 → IsContinuation b → IsContinuation c → IsContinuation d →
      IsCharacter [a, b, c, d]

def IsHexDigit (b : Byte) : Prop := 0x30 ≤ b ∧ b ≤ 0x39 ∨ 0x61 ≤ b ∧ b ≤ 0x66 ∨ 0x41 ≤ b ∧ b ≤ 0x46

/-- What stands for a token. -/
inductive Lexeme : JsonTokenKind → List Byte → Prop
  | objectOpen : Lexeme .objectOpen [0x7b]
  | objectClose : Lexeme .objectClose [0x7d]
  | arrayOpen : Lexeme .arrayOpen [0x5b]
  | arrayClose : Lexeme .arrayClose [0x5d]
  | valueSeparator : Lexeme .valueSeparator [0x2c]
  | kvSeparator : Lexeme .kvSeparator [0x3a]
  | stringDelimiter : Lexeme .stringDelimiter [0x22]
  | whitespace {b} : b = 0x20 ∨ b = 0x0a ∨ b = 0x0d ∨ b = 0x09 → Lexeme .whitespace [b]
  | true : Lexeme .true [0x74, 0x72, 0x75, 0x65]
  | false : Lexeme .false [0x66, 0x61, 0x6c, 0x73, 0x65]
  | null : Lexeme .null [0x6e, 0x75, 0x6c, 0x6c]
  | bom : Lexeme .bom [0xef, 0xbb, 0xbf]
  | number {text : NumberText} : text.Before [] → Lexeme .number text.bytes
  | escapeSequence {b} : b ∈ ([0x5c, 0x22, 0x2f, 0x62, 0x66, 0x6e, 0x72, 0x74] : List Byte) →
      Lexeme .escapeSequence [0x5c, b]
  | escapedUnicodeCharcode {a b c d} : IsHexDigit a → IsHexDigit b → IsHexDigit c → IsHexDigit d →
      Lexeme .escapedUnicodeCharcode [0x5c, 0x75, a, b, c, d]
  | unicodeCharacter {bytes} : IsCharacter bytes → Lexeme .unicodeCharacter bytes

/-! ## Bytes by their ranges -/

theorem utf8IsValidContinuationByte_iff (b : Byte) : utf8IsValidContinuationByte b = true ↔ IsContinuation b := by
  have hall : ∀ n : Fin 256, (UInt8.ofNat n &&& 0xc0 = 0x80) ↔ (0x80 ≤ UInt8.ofNat n ∧ UInt8.ofNat n ≤ 0xbf) := by
    decide +kernel
  have hb := hall ⟨b.toNat, b.toNat_lt⟩
  rw [UInt8.ofNat_toNat] at hb
  simpa [utf8IsValidContinuationByte, IsContinuation] using hb

theorem jtokIsHex_iff (b : Byte) : jtokIsHex b = true ↔ IsHexDigit b := by
  simp only [jtokIsHex, IsHexDigit, Bool.or_eq_true, Bool.and_eq_true, decide_eq_true_eq, or_assoc]

/-- The range of the first byte of a sequence of each length. -/
def StartsSequence (b : Byte) : Nat → Prop
  | 1 => b ≤ 0x7f
  | 2 => 0xc2 ≤ b ∧ b ≤ 0xdf
  | 3 => 0xe0 ≤ b ∧ b ≤ 0xef
  | 4 => 0xf0 ≤ b ∧ b ≤ 0xf4
  | _ => False

theorem utf8GetSequenceLengthByFirstByte_iff {b : Byte} {length : Nat} (hpos : length ≠ 0) :
    utf8GetSequenceLengthByFirstByte b = length ↔ StartsSequence b length := by
  have hb := b.toNat_lt
  unfold utf8GetSequenceLengthByFirstByte
  simp only [UInt8.le_iff_toNat_le, UInt8.reduceToNat]
  match length, hpos with
  | 1, _ | 2, _ | 3, _ | 4, _ =>
    simp only [StartsSequence, UInt8.le_iff_toNat_le, UInt8.reduceToNat]
    split_ifs <;> simp only [Nat.reduceEqDiff, true_iff, false_iff] <;> omega
  | n + 5, _ =>
    simp only [StartsSequence, iff_false]
    split_ifs <;> simp

/-! ## Merged bytes -/

theorem scanMerged_some {isValid : Byte → Bool} {i count : Nat} {value merged : UInt64} {bytes : List Byte}
    (h : scanMerged isValid i count value bytes = some merged) :
    ∃ taken rest, bytes = taken ++ rest ∧ taken.length = count ∧ ∀ b ∈ taken, isValid b = true := by
  induction count generalizing i value bytes with
  | zero => exact ⟨[], bytes, rfl, rfl, by simp⟩
  | succ count ih =>
    cases bytes with
    | nil => cases h
    | cons b bytes =>
      rw [scanMerged] at h
      by_cases hb : isValid b = true
      · rw [if_pos hb] at h
        obtain ⟨taken, rest, rfl, hlen, hall⟩ := ih h
        refine ⟨b :: taken, rest, rfl, by rw [List.length_cons, hlen], fun c hc => ?_⟩
        rcases List.mem_cons.mp hc with rfl | hc
        · exact hb
        · exact hall c hc
      · rw [if_neg hb] at h
        cases h

theorem scanMerged_taken {isValid : Byte → Bool} {taken : List Byte} (h : ∀ b ∈ taken, isValid b = true) (i : Nat)
    (value : UInt64) (rest : List Byte) :
    ∃ merged, scanMerged isValid i taken.length value (taken ++ rest) = some merged := by
  induction taken generalizing i value with
  | nil => exact ⟨value, rfl⟩
  | cons b taken ih =>
    obtain ⟨hb, htaken⟩ := List.forall_mem_cons.mp h
    rw [List.length_cons, List.cons_append, scanMerged, if_pos hb]
    exact ih htaken ..

/-! ## What is scanned is a lexeme -/

theorem isCharacter_of_starts {b : Byte} {taken : List Byte} (h : StartsSequence b (taken.length + 1))
    (hcontrol : taken = [] → 0x20 ≤ b) (hquote : b ≠ 0x22) (hslash : b ≠ 0x5c) (hall : ∀ c ∈ taken, IsContinuation c) :
    IsCharacter (b :: taken) := by
  match taken, h with
  | [], h => exact .one (hcontrol rfl) h hquote hslash
  | [c], h => exact .two h.1 h.2 (hall c (by simp))
  | [c, d], h => exact .three h.1 h.2 (hall c (by simp)) (hall d (by simp))
  | [c, d, e], h => exact .four h.1 h.2 (hall c (by simp)) (hall d (by simp)) (hall e (by simp))

theorem IsCharacter.starts {text : List Byte} (h : IsCharacter text) :
    ∃ b taken, text = b :: taken ∧ StartsSequence b (taken.length + 1) ∧ (taken = [] → 0x20 ≤ b) ∧ b ≠ 0x22 ∧
      b ≠ 0x5c ∧ ∀ c ∈ taken, IsContinuation c := by
  have hne : ∀ {b c : Byte}, c < 0xc2 → 0xc2 ≤ b → b ≠ c := by
    intro b c hc hb he
    rw [he] at hb
    exact UInt8.lt_irrefl _ (UInt8.lt_of_lt_of_le hc hb)
  cases h with
  | @one b hfrom hto hquote hslash => exact ⟨b, [], rfl, hto, fun _ => hfrom, hquote, hslash, by simp⟩
  | @two a b hfrom hto hb =>
    exact ⟨a, [b], rfl, ⟨hfrom, hto⟩, by simp, hne (by decide) hfrom, hne (by decide) hfrom, by simpa using hb⟩
  | @three a b c hfrom hto hb hc =>
    have hfrom' : 0xc2 ≤ a := UInt8.le_trans (by decide) hfrom
    exact ⟨a, [b, c], rfl, ⟨hfrom, hto⟩, by simp, hne (by decide) hfrom', hne (by decide) hfrom', by simpa using ⟨hb, hc⟩⟩
  | @four a b c d hfrom hto hb hc hd =>
    have hfrom' : 0xc2 ≤ a := UInt8.le_trans (by decide) hfrom
    exact ⟨a, [b, c, d], rfl, ⟨hfrom, hto⟩, by simp, hne (by decide) hfrom', hne (by decide) hfrom',
      by simpa using ⟨hb, hc, hd⟩⟩

theorem scanEscape_lexeme {bytes : List Byte} {token : JsonToken} {n : Nat}
    (h : scanEscape (0x5c :: bytes) = some (token, n)) : Lexeme token.kind ((0x5c :: bytes).take n) := by
  cases bytes with
  | nil => cases h
  | cons nextChar bytes =>
    rw [scanEscape] at h
    by_cases hescape : nextChar ∈ JTOK_ESCAPE_SEQ_CHARS
    · rw [if_pos hescape] at h
      cases h
      exact .escapeSequence hescape
    · rw [if_neg hescape] at h
      by_cases hu : nextChar = 0x75
      · rw [if_pos hu] at h
        split at h
        · cases h
        · obtain ⟨value, hmerged, he⟩ := Option.map_eq_some_iff.mp h
          cases he
          obtain ⟨taken, rest, rfl, hlen, hall⟩ := scanMerged_some hmerged
          obtain ⟨a, b, c, d, rfl⟩ := List.length_eq_four.mp hlen
          simp only [List.forall_mem_cons, jtokIsHex_iff] at hall
          rw [hu]
          exact .escapedUnicodeCharcode hall.1 hall.2.1 hall.2.2.1 hall.2.2.2.1
      · rw [if_neg hu] at h
        cases h

theorem scanUnicodeCharacter_lexeme {b : Byte} {bytes : List Byte} {token : JsonToken} {n : Nat} (hquote : b ≠ 0x22)
    (hslash : b ≠ 0x5c) (hpos : utf8GetSequenceLengthByFirstByte b ≠ 0)
    (hcontrol : ¬ (utf8GetSequenceLengthByFirstByte b = 1 ∧ b ≤ 0x1f))
    (h : scanUnicodeCharacter b (utf8GetSequenceLengthByFirstByte b) (b :: bytes) = some (token, n)) :
    Lexeme token.kind ((b :: bytes).take n) := by
  obtain ⟨value, hmerged, he⟩ := Option.map_eq_some_iff.mp h
  cases he
  obtain ⟨taken, rest, hbytes, hlen, hall⟩ := scanMerged_some hmerged
  have hlength : taken.length + 1 = utf8GetSequenceLengthByFirstByte b := by omega
  obtain rfl : bytes = taken ++ rest := hbytes
  rw [← hlength, List.take_succ_cons, List.take_left]
  refine .unicodeCharacter (isCharacter_of_starts ?_ (fun hnil => ?_) hquote hslash fun c hc => ?_)
  · exact (utf8GetSequenceLengthByFirstByte_iff (by omega)).mp hlength.symm
  · rw [hnil] at hlength
    have hle : ¬ b ≤ 0x1f := fun hle => hcontrol ⟨hlength.symm, hle⟩
    simp only [UInt8.le_iff_toNat_le, UInt8.reduceToNat] at hle ⊢
    omega
  · exact (utf8IsValidContinuationByte_iff c).mp (hall c hc)

theorem scanStringToken_lexeme {bytes : List Byte} {token : JsonToken} {n : Nat}
    (h : scanStringToken bytes = some (token, n)) : Lexeme token.kind (bytes.take n) := by
  cases bytes with
  | nil => cases h
  | cons b bytes =>
    simp only [scanStringToken] at h
    by_cases hquote : b = 0x22
    · rw [if_pos hquote] at h
      cases h
      rw [hquote]
      exact .stringDelimiter
    · rw [if_neg hquote] at h
      by_cases hslash : b = 0x5c
      · subst hslash
        rw [if_pos rfl] at h
        split at h
        · cases h
        · exact scanEscape_lexeme h
      · rw [if_neg hslash] at h
        split at h
        · cases h
        · next hlen =>
          split at h
          · cases h
          · next hcontrol =>
            simp only [Bool.or_eq_true, decide_eq_true_eq, not_or] at hlen
            simp only [Bool.and_eq_true, decide_eq_true_eq] at hcontrol
            exact scanUnicodeCharacter_lexeme hquote hslash hlen.1 hcontrol h

theorem scanFixed_lexeme {kind : JsonTokenKind} {expectedBytes bytes : List Byte} {b : Byte} {token : JsonToken} {n : Nat}
    (h : (if bytes.length + 1 < expectedBytes.length then none else scanFixed kind expectedBytes (b :: bytes)) =
      some (token, n)) (hhead : expectedBytes.head? = some b) :
    token.kind = kind ∧ (b :: bytes).take n = expectedBytes := by
  obtain ⟨expectedTail, rfl⟩ := List.head?_eq_some_iff.mp hhead
  split at h
  · cases h
  · simp only [scanFixed, List.tail_cons, List.length_cons, Nat.add_sub_cancel] at h
    by_cases htake : bytes.take expectedTail.length = expectedTail
    · rw [if_pos htake] at h
      cases h
      exact ⟨rfl, by rw [List.take_succ_cons, htake]⟩
    · rw [if_neg htake] at h
      cases h

/-- The first byte of a token outside strings. -/
def StartsKind (b : Byte) : JsonTokenKind → Prop
  | .objectOpen => b = 0x7b
  | .objectClose => b = 0x7d
  | .arrayOpen => b = 0x5b
  | .arrayClose => b = 0x5d
  | .true => b = 0x74
  | .false => b = 0x66
  | .null => b = 0x6e
  | .valueSeparator => b = 0x2c
  | .kvSeparator => b = 0x3a
  | .whitespace => b = 0x20 ∨ b = 0x0a ∨ b = 0x0d ∨ b = 0x09
  | .stringDelimiter => b = 0x22
  | .bom => b = 0xef
  | .number | .invalid => True
  | _ => False

theorem jtokDetectNonstringTokenStart_startsKind (b : Byte) : StartsKind b (jtokDetectNonstringTokenStart b) := by
  unfold jtokDetectNonstringTokenStart
  repeat' refine iteInduction (fun hb => ?_) (fun _ => ?_)
  all_goals first | exact hb | trivial | skip
  simpa only [StartsKind, Bool.or_eq_true, decide_eq_true_eq, or_assoc] using hb

theorem scanNonstringToken_lexeme {bytes : List Byte} {token : JsonToken} {n : Nat}
    (h : scanNonstringToken bytes = some (token, n)) : Lexeme token.kind (bytes.take n) := by
  cases bytes with
  | nil => cases h
  | cons b bytes =>
    simp only [scanNonstringToken] at h
    have hstarts := jtokDetectNonstringTokenStart_startsKind b
    cases hk : jtokDetectNonstringTokenStart b with
    | invalid =>
      rw [hk] at h
      cases h
    | number =>
      rw [hk] at h
      obtain ⟨text, rest, hbytes, hbefore, rfl, rfl⟩ := scanNumber_isText h
      rw [hbytes, List.take_left]
      exact .number (hbefore.follow (by simp [EndsNumber]))
    | true | false | null | bom =>
      simp only [hk] at h hstarts
      obtain ⟨htoken, htake⟩ := scanFixed_lexeme h (congrArg some hstarts.symm)
      rw [htoken, htake]
      constructor
    | escapeSequence | escapedUnicodeCharcode | unicodeCharacter =>
      rw [hk] at hstarts
      exact hstarts.elim
    | whitespace =>
      simp only [hk] at h hstarts
      cases h
      exact .whitespace hstarts
    | _ =>
      simp only [hk, StartsKind] at h hstarts
      cases h
      rw [hstarts]
      constructor

/-- **What is scanned is a lexeme.** -/
theorem scanToken_lexeme {isString : Bool} {bytes : List Byte} {token : JsonToken} {n : Nat}
    (h : scanToken isString bytes = some (token, n)) : Lexeme token.kind (bytes.take n) := by
  cases isString with
  | true => exact scanStringToken_lexeme h
  | false => exact scanNonstringToken_lexeme h

/-! ## A lexeme is scanned -/

theorem scanUnicodeCharacter_scans {text : List Byte} (h : IsCharacter text) (rest : List Byte) :
    ∃ token, token.kind = .unicodeCharacter ∧ scanStringToken (text ++ rest) = some (token, text.length) := by
  obtain ⟨b, taken, rfl, hstarts, hcontrol, hquote, hslash, hall⟩ := h.starts
  have hlength : utf8GetSequenceLengthByFirstByte b = taken.length + 1 :=
    (utf8GetSequenceLengthByFirstByte_iff (Nat.succ_ne_zero _)).mpr hstarts
  obtain ⟨merged, hmerged⟩ := scanMerged_taken (fun c hc => (utf8IsValidContinuationByte_iff c).mpr (hall c hc)) 1
    b.toUInt64 rest
  have hshort : ¬ (decide (taken.length + 1 = 0) || decide ((taken ++ rest).length + 1 < taken.length + 1)) = true := by
    simp
  have hplain : ¬ (decide (taken.length + 1 = 1) && decide (b ≤ 0x1f)) = true := by
    simp only [Bool.and_eq_true, decide_eq_true_eq, UInt8.le_iff_toNat_le, UInt8.reduceToNat, not_and]
    intro hone
    have hle := UInt8.le_iff_toNat_le.mp (hcontrol (List.length_eq_zero_iff.mp (Nat.succ_inj.mp hone)))
    simp only [UInt8.reduceToNat] at hle
    omega
  refine ⟨{ kind := .unicodeCharacter, payload := .unicodeCharacter merged (UInt8.ofNat (taken.length + 1)) }, rfl, ?_⟩
  rw [List.cons_append]
  simp only [scanStringToken, if_neg hquote, if_neg hslash, hlength, if_neg hshort, if_neg hplain, scanUnicodeCharacter,
    List.tail_cons, Nat.add_sub_cancel, hmerged]
  rfl

theorem scanEscape_scans {b : Byte} (h : b ∈ JTOK_ESCAPE_SEQ_CHARS) (rest : List Byte) :
    ∃ token, token.kind = .escapeSequence ∧ scanStringToken (0x5c :: b :: rest) = some (token, 2) := by
  refine ⟨{ kind := .escapeSequence, payload := .character b }, rfl, ?_⟩
  simp [scanStringToken, scanEscape, h]

theorem scanEscapedCharcode_scans {a b c d : Byte} (ha : IsHexDigit a) (hb : IsHexDigit b) (hc : IsHexDigit c)
    (hd : IsHexDigit d) (rest : List Byte) :
    ∃ token, token.kind = .escapedUnicodeCharcode ∧
      scanStringToken (0x5c :: 0x75 :: a :: b :: c :: d :: rest) = some (token, 6) := by
  have hall : ∀ e ∈ [a, b, c, d], jtokIsHex e = true := by
    simp only [List.forall_mem_cons, jtokIsHex_iff]
    exact ⟨ha, hb, hc, hd, by simp⟩
  obtain ⟨merged, hmerged⟩ := scanMerged_taken hall 0 0 rest
  refine ⟨{ kind := .escapedUnicodeCharcode, payload := .unicodeCharacter merged 4 }, rfl, ?_⟩
  have hu : (0x75 : Byte) ∉ JTOK_ESCAPE_SEQ_CHARS := by decide
  have hmerged' : scanMerged jtokIsHex 0 4 0 (a :: b :: c :: d :: rest) = some merged := hmerged
  simp [scanStringToken, scanEscape, hu, hmerged']

theorem scanStringToken_scans {kind : JsonTokenKind} {text : List Byte} (h : Lexeme kind text)
    (hkind : isStringCharacterKind kind = true) (rest : List Byte) :
    ∃ token, token.kind = kind ∧ scanStringToken (text ++ rest) = some (token, text.length) := by
  cases h with
  | escapeSequence hb => exact scanEscape_scans hb rest
  | escapedUnicodeCharcode ha hb hc hd => exact scanEscapedCharcode_scans ha hb hc hd rest
  | unicodeCharacter hcharacter => exact scanUnicodeCharacter_scans hcharacter rest
  | _ => cases hkind

theorem scanNonstringToken_scans {kind : JsonTokenKind} {text rest : List Byte} (h : Lexeme kind text)
    (hkind : isStringCharacterKind kind = false) (hends : kind = .number → EndsNumber rest) :
    ∃ token, token.kind = kind ∧ scanNonstringToken (text ++ rest) = some (token, text.length) := by
  cases h with
  | number hbefore => exact ⟨_, rfl, scanNonstringToken_text (hbefore.follow (hends rfl))⟩
  | escapeSequence | escapedUnicodeCharcode | unicodeCharacter => cases hkind
  | true | false | null | bom =>
    refine ⟨{ kind := _ }, rfl, ?_⟩
    simp [scanNonstringToken, jtokDetectNonstringTokenStart, scanFixed, JTOK_TRUE_BYTES, JTOK_FALSE_BYTES, JTOK_NULL_BYTES,
      UTF8_BOM]
  | @whitespace b hb =>
    refine ⟨{ kind := .whitespace, payload := .character b }, rfl, ?_⟩
    rcases hb with rfl | rfl | rfl | rfl <;> rfl
  | _ => exact ⟨{ kind := _, payload := .character _ }, rfl, rfl⟩

/-- **A lexeme is scanned**, in the mode of its kind; a quote in both. -/
theorem scanToken_scans {isString : Bool} {kind : JsonTokenKind} {text rest : List Byte} (h : Lexeme kind text)
    (hkind : kind ≠ .stringDelimiter → isStringCharacterKind kind = isString) (hends : kind = .number → EndsNumber rest) :
    ∃ token, token.kind = kind ∧ scanToken isString (text ++ rest) = some (token, text.length) := by
  by_cases hdelimiter : kind = .stringDelimiter
  · subst hdelimiter
    cases h
    cases isString with
    | true => exact ⟨{ kind := .stringDelimiter }, rfl, rfl⟩
    | false => exact ⟨{ kind := .stringDelimiter, payload := .character 0x22 }, rfl, rfl⟩
  · have hmode := hkind hdelimiter
    cases isString with
    | true => exact scanStringToken_scans h hmode rest
    | false => exact scanNonstringToken_scans h hmode hends

end Scomp
