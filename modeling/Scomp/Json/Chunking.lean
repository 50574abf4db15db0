/-
Token boundaries do not depend on the chunks the input comes in.

No token looks further than the reader's safe amount of data (`Within`), so
what is scanned with that much data at hand is what is scanned from the
whole input.
-/
import Scomp.Json.Reprint

namespace Scomp

/-! ## Bounded lookahead -/

/-- On inputs of at least `bound` bytes, what follows those makes no
difference, and no more than those are taken. -/
def Scanner.Within {α : Type} (scan : Scanner α) (bound : Nat) : Prop :=
  ∀ p s : List Byte, bound ≤ p.length → scan (p ++ s) = scan p ∧ ∀ a n, scan p = some (a, n) → n ≤ bound

theorem Scanner.Within.mono {α : Type} {scan : Scanner α} {bound bound' : Nat} (h : scan.Within bound)
    (hle : bound ≤ bound') : scan.Within bound' := by
  intro p s hp
  obtain ⟨heq, hn⟩ := h p s (Nat.le_trans hle hp)
  exact ⟨heq, fun a n hs => Nat.le_trans (hn a n hs) hle⟩

theorem Scanner.Within.andThen {α β : Type} {first : Scanner α} {next : α → Scanner β} {bound bound' : Nat}
    (h : first.Within bound) (hnext : ∀ a, (next a).Within bound') :
    (first.andThen next).Within (bound + bound') := by
  intro p s hp
  obtain ⟨heq, hn⟩ := h p s (by omega)
  simp only [Scanner.andThen, heq, Option.bind_eq_bind]
  cases hf : first p with
  | none => simp
  | some an =>
    obtain ⟨a, n⟩ := an
    have hle := hn a n hf
    obtain ⟨heq', hn'⟩ := hnext a (p.drop n) s (by rw [List.length_drop]; omega)
    rw [← List.drop_append_of_le_length (by omega)] at heq'
    simp only [Option.bind_some, heq']
    refine ⟨trivial, ?_⟩
    intro b k hk
    obtain ⟨⟨b', m⟩, hm, he⟩ := Option.bind_eq_some_iff.mp hk
    cases he
    exact Nat.add_le_add hle (hn' b' m hm)

theorem Scanner.Within.map {α β : Type} {scan : Scanner α} {bound} (h : scan.Within bound) (f : α → β) :
    Scanner.Within (fun bytes => (scan bytes).map fun (a, n) => (f a, n)) bound := by
  intro p s hp
  obtain ⟨heq, hn⟩ := h p s hp
  refine ⟨by dsimp only; rw [heq], ?_⟩
  intro b m hm
  obtain ⟨⟨a, n'⟩, hs, he⟩ := Option.map_eq_some_iff.mp hm
  cases he
  exact hn a _ hs

/-- A scan after one byte that was looked at. -/
theorem Scanner.Within.tail {α : Type} {scan : Scanner α} {bound} (h : scan.Within bound) :
    Scanner.Within (fun bytes => (scan bytes.tail).map fun (a, n) => (a, 1 + n)) (bound + 1) := by
  intro p s hp
  match p with
  | [] => simp at hp
  | b :: p =>
    obtain ⟨heq, hn⟩ := h p s (by simpa using hp)
    refine ⟨by simp only [List.cons_append, List.tail_cons, heq], ?_⟩
    intro a m hm
    obtain ⟨⟨a', n⟩, hs, he⟩ := Option.map_eq_some_iff.mp hm
    cases he
    have hle := hn _ n hs
    omega

/-! ## Digits -/

/-- A value of many digits takes few more: the next ones overflow. -/
theorem scanUint_digits_within {leadingZeroes : Byte} {value : UInt64} {j : Nat} {p : List Byte} (s : List Byte)
    (hv : 10 ^ 19 ≤ value.toNat * 10 ^ j) (hp : j < p.length) :
    scanUint leadingZeroes value (p ++ s) = scanUint leadingZeroes value p ∧
      (scanUint leadingZeroes value p).2 ≤ j := by
  induction j generalizing value p with
  | zero =>
    cases p with
    | nil => simp at hp
    | cons b p =>
      have hne : ¬ (b = 0x30 && value = 0) = true := by
        intro h
        simp only [Bool.and_eq_true, decide_eq_true_eq] at h
        rw [h.2] at hv
        exact absurd hv (by decide)
      have hover : ¬ (b < 0x30 || b > 0x39) = true → jtokUint64WillOverflow value (b - 0x30) = true := by
        intro hb
        by_contra hno
        have hnext := jtokUint64WillOverflow_false (digit_spec hb).1 (Bool.eq_false_iff.mpr hno)
        have hlt := (value * 10 + (b - 0x30).toUInt64).toNat_lt
        omega
      rw [List.cons_append, scanUint, scanUint]
      split
      · exact ⟨rfl, Nat.le_refl _⟩
      · next hb =>
        simp only [if_pos (hover hb)]
        exact ⟨trivial, Nat.le_refl _⟩
  | succ j ih =>
    cases p with
    | nil => simp at hp
    | cons b p =>
      have hne : ¬ (b = 0x30 && value = 0) = true := by
        intro h
        simp only [Bool.and_eq_true, decide_eq_true_eq] at h
        rw [h.2] at hv
        simp at hv
      rw [List.cons_append, scanUint, scanUint]
      split
      · exact ⟨rfl, Nat.zero_le _⟩
      · next hb =>
        split
        · exact ⟨rfl, Nat.zero_le _⟩
        · next ho =>
          have hnext := jtokUint64WillOverflow_false (digit_spec hb).1 (Bool.eq_false_iff.mpr ho)
          have hv' : 10 ^ 19 ≤ (value * 10 + (b - 0x30).toUInt64).toNat * 10 ^ j := by
            calc 10 ^ 19 ≤ value.toNat * 10 ^ (j + 1) := hv
              _ = value.toNat * 10 * 10 ^ j := by ring
              _ ≤ _ := Nat.mul_le_mul_right _ (by omega)
          obtain ⟨heq, hle⟩ := ih hv' (by simpa using hp)
          rw [heq]
          exact ⟨rfl, Nat.succ_le_succ hle⟩

/-- At most 79 leading zeroes and then 20 digits are taken, and one byte more
is looked at. -/
theorem scanUint_zeroes_within {leadingZeroes : Byte} {k : Nat} {p : List Byte} (s : List Byte)
    (hk : leadingZeroes.toNat + k = 80) (hpos : 0 < k) (hp : k + 20 ≤ p.length) :
    scanUint leadingZeroes 0 (p ++ s) = scanUint leadingZeroes 0 p ∧ (scanUint leadingZeroes 0 p).2 ≤ k + 20 := by
  induction k generalizing leadingZeroes p with
  | zero => omega
  | succ k ih =>
    match p with
    | [] => simp at hp
    | b :: p =>
      rw [List.length_cons] at hp
      rw [List.cons_append, scanUint, scanUint]
      split
      · exact ⟨rfl, Nat.zero_le _⟩
      · next hb =>
        split
        · split
          · exact ⟨rfl, Nat.zero_le _⟩
          · next hmax =>
            have hsucc : (leadingZeroes + 1).toNat = leadingZeroes.toNat + 1 := by
              rw [UInt8.toNat_add, show UInt8.toNat 1 = 1 from rfl]
              omega
            have hlt : (leadingZeroes + 1).toNat < 80 := by
              rw [ge_iff_le, UInt8.not_le] at hmax
              exact UInt8.lt_iff_toNat_lt.mp hmax
            obtain ⟨heq, hle⟩ := @ih (leadingZeroes + 1) p (by omega) (by omega) (by omega)
            rw [heq]
            exact ⟨rfl, by simp only; omega⟩
        · next hz =>
          split
          · exact ⟨rfl, Nat.zero_le _⟩
          · next ho =>
            have hnext := jtokUint64WillOverflow_false (digit_spec hb).1 (Bool.eq_false_iff.mpr ho)
            have hfirst := digit_pos hb fun hb0 => by simp [hb0] at hz
            have hv : 10 ^ 19 ≤ ((0 : UInt64) * 10 + (b - 0x30).toUInt64).toNat * 10 ^ 19 :=
              Nat.le_mul_of_pos_left _ (by omega)
            obtain ⟨heq, hle⟩ := @scanUint_digits_within leadingZeroes _ 19 p s hv (by omega)
            rw [heq]
            exact ⟨rfl, by simp only; omega⟩

theorem scanUint_within {p : List Byte} (s : List Byte) (hp : 100 ≤ p.length) :
    scanUint 0 0 (p ++ s) = scanUint 0 0 p ∧ (scanUint 0 0 p).2 ≤ 100 :=
  scanUint_zeroes_within s rfl (by decide) hp

/-! ## Tokens -/

theorem scanMerged_within {isValid i count value p} (s : List Byte) (hp : count ≤ p.length) :
    scanMerged isValid i count value (p ++ s) = scanMerged isValid i count value p := by
  induction count generalizing i value p with
  | zero => rw [scanMerged, scanMerged]
  | succ count ih =>
    cases p with
    | nil => simp at hp
    | cons b p =>
      rw [List.cons_append, scanMerged, scanMerged]
      split
      · exact ih (by simpa using hp)
      · rfl

theorem scanEscape_within : Scanner.Within scanEscape 6 := by
  intro p s hp
  match p with
  | [] | [_] => simp at hp
  | b :: c :: p =>
    have hlong : ∀ q : List Byte, 4 ≤ q.length → ¬ q.length < 4 := fun q hq => by omega
    simp only [List.length_cons] at hp
    have hp4 : 4 ≤ p.length := by omega
    simp only [List.cons_append, scanEscape, if_neg (hlong p hp4), scanMerged_within s hp4,
      if_neg (hlong (p ++ s) (by rw [List.length_append]; omega))]
    refine ⟨trivial, ?_⟩
    intro a n hs
    split at hs
    · cases hs; decide
    · split at hs
      · obtain ⟨_, _, he⟩ := Option.map_eq_some_iff.mp hs
        cases he
        decide
      · cases hs

theorem scanUnicodeCharacter_within (b : Byte) {utf8Length : Nat} (hle : utf8Length ≤ 4) :
    (scanUnicodeCharacter b utf8Length).Within 4 := by
  intro p s hp
  have htail : (p ++ s).tail = p.tail ++ s := List.tail_append_of_ne_nil (by rintro rfl; simp at hp)
  have hmerged : scanMerged utf8IsValidContinuationByte 1 (utf8Length - 1) b.toUInt64 (p ++ s).tail =
      scanMerged utf8IsValidContinuationByte 1 (utf8Length - 1) b.toUInt64 p.tail := by
    rw [htail]
    exact scanMerged_within s (by rw [List.length_tail]; omega)
  rw [scanUnicodeCharacter, scanUnicodeCharacter, hmerged]
  refine ⟨rfl, ?_⟩
  intro a n hs
  obtain ⟨_, _, he⟩ := Option.map_eq_some_iff.mp hs
  cases he
  exact hle

theorem scanStringToken_within : Scanner.Within scanStringToken 6 := by
  intro p s hp
  match p with
  | [] => simp at hp
  | b :: p =>
    have hlen := utf8GetSequenceLengthByFirstByte_le b
    have hp' := hp
    rw [List.length_cons] at hp'
    obtain ⟨hescape, hescapeN⟩ := scanEscape_within (b :: p) s hp
    obtain ⟨hunicode, hunicodeN⟩ := scanUnicodeCharacter_within b hlen (b :: p) s (by omega)
    have hshort : ∀ k ≤ 6, ¬ p.length + 1 < k ∧ ¬ (p ++ s).length + 1 < k := by
      intro k hk
      rw [List.length_append]
      omega
    rw [List.cons_append] at hescape hunicode
    have hgo := hshort _ (Nat.le_trans hlen (by decide))
    simp only [List.cons_append, scanStringToken, if_neg (hshort 2 (by decide)).1, if_neg (hshort 2 (by decide)).2,
      hgo.1, hgo.2, hescape, hunicode]
    refine ⟨trivial, ?_⟩
    intro a n hs
    split at hs
    · cases hs; decide
    · split at hs
      · exact hescapeN a n hs
      · split at hs
        · cases hs
        · split at hs
          · cases hs
          · exact Nat.le_trans (hunicodeN a n hs) (by decide)

theorem scanFixed_within (kind : JsonTokenKind) (expectedBytes : List Byte) :
    (scanFixed kind expectedBytes).Within expectedBytes.length := by
  intro p s hp
  have htake : (p ++ s).tail.take (expectedBytes.length - 1) = p.tail.take (expectedBytes.length - 1) := by
    match p with
    | [] =>
      have hz : expectedBytes.length = 0 := by simpa using hp
      simp [hz]
    | b :: p =>
      rw [List.cons_append, List.tail_cons, List.tail_cons, List.take_append_of_le_length]
      simp only [List.length_cons] at hp
      omega
  rw [scanFixed, scanFixed, htake]
  refine ⟨rfl, ?_⟩
  intro a n hs
  split at hs
  · cases hs; exact Nat.le_refl _
  · cases hs

theorem scanNumberSign_within : Scanner.Within scanNumberSign 2 := by
  intro p s hp
  match p with
  | [] | [_] => simp at hp
  | b :: c :: p =>
    have hlong : ∀ q : List Byte, ¬ (c :: q).length + 1 < 2 := fun q => by simp
    simp only [List.cons_append, scanNumberSign, if_neg (hlong _)]
    refine ⟨trivial, ?_⟩
    intro a n hs
    split at hs <;> cases hs <;> decide

theorem scanNumberInteger_within (number : JsonNumberToken) : (scanNumberInteger number).Within 100 := by
  intro p s hp
  obtain ⟨heq, hle⟩ := scanUint_within s hp
  simp only [scanNumberInteger, heq]
  refine ⟨trivial, ?_⟩
  intro a n hs
  split at hs
  · cases hs
  · split at hs <;> cases hs <;> exact hle

theorem scanFractionDigits_within (number : JsonNumberToken) : (scanFractionDigits number).Within 100 := by
  intro p s hp
  obtain ⟨heq, hle⟩ := scanUint_within s hp
  simp only [scanFractionDigits, heq]
  refine ⟨trivial, ?_⟩
  intro a n hs
  split at hs
  · cases hs
  · cases hs; exact hle

theorem scanExponentDigits_within (number : JsonNumberToken) : (scanExponentDigits number).Within 100 := by
  intro p s hp
  obtain ⟨heq, hle⟩ := scanUint_within s hp
  simp only [scanExponentDigits, heq]
  refine ⟨trivial, ?_⟩
  intro a n hs
  split at hs
  · cases hs
  · cases hs; exact hle

theorem scanExponentSign_within (number : JsonNumberToken) : (scanExponentSign number).Within 2 := by
  intro p s hp
  match p with
  | [] | [_] => simp at hp
  | b :: c :: p =>
    have hlong : ∀ q : List Byte, ¬ (c :: q).length + 1 < 2 := fun q => by simp
    simp only [List.cons_append, scanExponentSign, if_neg (hlong _)]
    refine ⟨trivial, ?_⟩
    intro a n hs
    split at hs <;> cases hs <;> decide

theorem scanNumberFraction_within (number : JsonNumberToken) : (scanNumberFraction number).Within 101 := by
  intro p s hp
  match p with
  | [] | [_] => simp at hp
  | b :: c :: p =>
    have hlong : ∀ q : List Byte, ¬ (c :: q).length + 1 < 2 := fun q => by simp
    obtain ⟨heq, hle⟩ := (scanFractionDigits_within number).tail (b :: c :: p) s hp
    simp only [List.cons_append, List.tail_cons] at heq hle
    simp only [List.cons_append, scanNumberFraction, if_neg (hlong _), heq]
    refine ⟨trivial, ?_⟩
    intro a n hs
    split at hs
    · exact hle a n hs
    · cases hs; decide

theorem scanNumberExponent_within (number : JsonNumberToken) : (scanNumberExponent number).Within 103 := by
  intro p s hp
  match p with
  | [] | [_] => simp at hp
  | b :: c :: p =>
    have hlong : ∀ q : List Byte, ¬ (c :: q).length + 1 < 2 := fun q => by simp
    obtain ⟨heq, hle⟩ := ((scanExponentSign_within (withExponent number b)).andThen
      scanExponentDigits_within).tail (b :: c :: p) s hp
    simp only [List.cons_append, List.tail_cons] at heq hle
    simp only [List.cons_append, scanNumberExponent, if_neg (hlong _), heq]
    refine ⟨trivial, ?_⟩
    intro a n hs
    split at hs
    · exact hle a n hs
    · cases hs; decide

theorem scanNumber_within : Scanner.Within scanNumber 306 :=
  (((scanNumberSign_within.andThen scanNumberInteger_within).andThen scanNumberFraction_within).andThen
    scanNumberExponent_within).map fun number => ({ kind := .number, payload := .number number } : JsonToken)

theorem scanNonstringToken_within : Scanner.Within scanNonstringToken 306 := by
  intro p s hp
  match p with
  | [] => simp at hp
  | b :: p =>
    obtain ⟨hnumber, hnumberN⟩ := scanNumber_within (b :: p) s hp
    rw [List.cons_append] at hnumber
    have hfixed : ∀ kind (expectedBytes : List Byte), expectedBytes.length ≤ 306 →
        (if (p ++ s).length + 1 < expectedBytes.length then none
          else scanFixed kind expectedBytes (b :: (p ++ s))) =
        (if p.length + 1 < expectedBytes.length then none else scanFixed kind expectedBytes (b :: p)) ∧
        ∀ a n, (if p.length + 1 < expectedBytes.length then none
          else scanFixed kind expectedBytes (b :: p)) = some (a, n) → n ≤ 306 := by
      intro kind expectedBytes hlen
      have hle : expectedBytes.length ≤ (b :: p).length := Nat.le_trans hlen hp
      obtain ⟨heq, hn⟩ := scanFixed_within kind expectedBytes (b :: p) s hle
      rw [List.length_cons] at hle
      rw [if_neg (by rw [List.length_append]; omega), if_neg (by omega)]
      exact ⟨heq, fun a n hs => Nat.le_trans (hn a n hs) hlen⟩
    simp only [List.cons_append, scanNonstringToken]
    cases jtokDetectNonstringTokenStart b with
    | invalid => exact ⟨rfl, fun a n hs => by cases hs⟩
    | true => exact hfixed .true JTOK_TRUE_BYTES (by decide)
    | false => exact hfixed .false JTOK_FALSE_BYTES (by decide)
    | null => exact hfixed .null JTOK_NULL_BYTES (by decide)
    | bom => exact hfixed .bom UTF8_BOM (by decide)
    | number => exact ⟨hnumber, hnumberN⟩
    | _ => exact ⟨rfl, fun a n hs => by cases hs; decide⟩

/-- **A token needs at most 306 bytes**, well below the safe amount of
data. -/
theorem scanToken_within (isStringState : Bool) : (scanToken isStringState).Within 306 := by
  cases isStringState with
  | true => exact scanStringToken_within.mono (by decide)
  | false => exact scanNonstringToken_within

/-! ## One call -/

/-- A state a tokenizer's state machine can be in. -/
inductive JsmReachable : JsonStateMachine → Prop
  | init : JsmReachable jsmInit
  | process {jsm kind isAccepted jsm'} : JsmReachable jsm →
      jsmProcessToken jsm kind = some (isAccepted, jsm') → JsmReachable jsm'

theorem JsmReachable.ok {jsm} (h : JsmReachable jsm) : JsmOK jsm := by
  induction h with
  | init => exact .init
  | @process jsm kind _ _ _ hp ih =>
    obtain ⟨_, _, hp', hok⟩ := ih.process kind
    rw [hp] at hp'
    cases hp'
    exact hok

/-- The token at the start of the bytes that the state machine accepts. -/
def lexStep (jsm : JsonStateMachine) (bytes : List Byte) : Option (JsonToken × Nat × JsonStateMachine) := do
  let state ← jsmGetCurrentState jsm
  let (token, n) ← scanToken (jsonIsStringState state) bytes
  match ← jsmProcessToken jsm token.kind with
  | (true, jsm') => return (token, n, jsm')
  | (false, _) => none

theorem lexStep_eq_some {jsm bytes token n jsm'} (h : lexStep jsm bytes = some (token, n, jsm')) :
    ∃ state, jsmGetCurrentState jsm = some state ∧ scanToken (jsonIsStringState state) bytes = some (token, n) ∧
      jsmProcessToken jsm token.kind = some (true, jsm') := by
  obtain ⟨state, hs, h⟩ := Option.bind_eq_some_iff.mp h
  obtain ⟨⟨token', n'⟩, hscan, h⟩ := Option.bind_eq_some_iff.mp h
  obtain ⟨⟨isAccepted, jsm₁⟩, hp, h⟩ := Option.bind_eq_some_iff.mp h
  cases isAccepted with
  | true => cases h; exact ⟨state, hs, hscan, hp⟩
  | false => cases h

theorem lexStep_valid {jsm bytes token n jsm'} (h : lexStep jsm bytes = some (token, n, jsm')) :
    Reprints bytes token n ∧ ∃ isString, scanToken isString bytes = some (token, n) := by
  obtain ⟨state, -, hscan, -⟩ := lexStep_eq_some h
  exact ⟨scanToken_reprints hscan, _, hscan⟩

/-- What the safe amount of data holds decides the step. -/
theorem lexStep_append {jsm p} (s : List Byte) (hp : 306 ≤ p.length) : lexStep jsm (p ++ s) = lexStep jsm p := by
  unfold lexStep
  congr 1
  funext state
  rw [(scanToken_within (jsonIsStringState state) p s hp).1]

/-- Giving up leaves the context alone. -/
theorem GivenUp.context {r r' : Reader} (h : GivenUp r r') : r'.context = r.context := by
  obtain ha | ⟨r₀, r₁, n, h₀, h₁, hrestore⟩ := h
  · exact ha.context
  · obtain ⟨r₂, hr₂, hcontext⟩ := h₁.restore_some h₀.atByte
    rw [hr₂] at hrestore
    cases hrestore
    rw [hcontext, h₀.context]

/-- **A call of the tokenizer is one lexing step** on the unread bytes,
without an error. -/
theorem jsonTokenizerParseNext_lexes {t : JsonTokenizer} (hjsm : JsmOK t.jsm) (h : t.reader.AtByte)
    (hne : t.reader.unreadBytes ≠ []) :
    match lexStep t.jsm t.reader.unreadBytes with
    | some (token, n, jsm') => JsmOK jsm' ∧ ∃ r', jsonTokenizerParseNext t = some (token, ⟨jsm', r'⟩) ∧
        t.reader.Ahead r' n
    | none => ∃ t', jsonTokenizerParseNext t = some (INVALID_JSON_TOKEN, t') ∧
        t'.reader.context = t.reader.context ∧ JsmOK t'.jsm ∧
        ∀ b, t.reader.buffers = [b] → t'.reader.unreadBytes = t.reader.unreadBytes := by
  have hunread : ∀ r', GivenUp t.reader r' → ∀ b, t.reader.buffers = [b] → r'.unreadBytes = t.reader.unreadBytes :=
    fun r' hg b hb => (hg.unread hb).unread.trans List.drop_zero
  obtain ⟨state, hs⟩ := hjsm.currentState
  have hparsed := jsonTokenizerParseNext_parsed hjsm h hs hne
  unfold Parsed at hparsed
  simp only [lexStep, hs, Option.bind_eq_bind, Option.bind_some]
  cases hscan : scanToken (jsonIsStringState state) t.reader.unreadBytes with
  | none =>
    rw [hscan] at hparsed
    obtain ⟨r', hr, hg⟩ := hparsed
    exact ⟨_, hr, hg.context, hjsm, hunread r' hg⟩
  | some tokenAndLength =>
    obtain ⟨token, n⟩ := tokenAndLength
    rw [hscan] at hparsed
    obtain ⟨isAccepted, jsm', hp, hresult⟩ := hparsed
    obtain ⟨_, _, hp', hjsm'⟩ := hjsm.process token.kind
    rw [hp] at hp'
    cases hp'
    simp only [Option.bind_some, hp]
    cases isAccepted with
    | true =>
      obtain ⟨r', hr, ha⟩ := hresult
      exact ⟨hjsm', r', hr, ha⟩
    | false =>
      obtain ⟨r', hr, hg⟩ := hresult
      exact ⟨_, hr, hg.context, hjsm', hunread r' hg⟩

/-- Two readers give the same token, without an error, and move over the same
bytes for a valid one. -/
def ParsesAlike (jsm : JsonStateMachine) (r₁ r₂ : Reader) : Prop :=
  ∃ token t₁ t₂, jsonTokenizerParseNext ⟨jsm, r₁⟩ = some (token, t₁) ∧
    jsonTokenizerParseNext ⟨jsm, r₂⟩ = some (token, t₂) ∧
    t₁.reader.context = r₁.context ∧ t₂.reader.context = r₂.context ∧
    (token.kind ≠ .invalid → t₁.jsm = t₂.jsm ∧
      ∃ n : Nat, n < READER_SAFE_SIZE ∧ r₁.Ahead t₁.reader n ∧ r₂.Ahead t₂.reader n)

theorem jsonTokenizerParseNext_alike {jsm r₁ r₂} (hjsm : JsmOK jsm) (h₁ : r₁.AtByte) (h₂ : r₂.AtByte)
    (hlen₁ : READER_SAFE_SIZE ≤ r₁.unreadBytes.length) (hlen₂ : READER_SAFE_SIZE ≤ r₂.unreadBytes.length)
    (hsame : r₁.unreadBytes.take READER_SAFE_SIZE.toNat = r₂.unreadBytes.take READER_SAFE_SIZE.toNat) :
    ParsesAlike jsm r₁ r₂ := by
  rw [show READER_SAFE_SIZE.toNat = 512 from rfl] at hsame
  rw [show READER_SAFE_SIZE = 512 from rfl] at hlen₁ hlen₂
  have hwindow : ∀ {r : Reader}, (512 : Int) ≤ r.unreadBytes.length →
      lexStep jsm r.unreadBytes = lexStep jsm (r.unreadBytes.take 512) := by
    intro r hr
    conv_lhs => rw [← List.take_append_drop 512 r.unreadBytes]
    exact lexStep_append _ (by rw [List.length_take]; omega)
  have hne : ∀ {r : Reader}, (512 : Int) ≤ r.unreadBytes.length → r.unreadBytes ≠ [] := by
    intro r hr hnil
    rw [hnil] at hr
    exact absurd hr (by decide)
  have hp₁ := @jsonTokenizerParseNext_lexes ⟨jsm, r₁⟩ hjsm h₁ (hne hlen₁)
  have hp₂ := @jsonTokenizerParseNext_lexes ⟨jsm, r₂⟩ hjsm h₂ (hne hlen₂)
  simp only [hwindow hlen₁, hwindow hlen₂, hsame] at hp₁ hp₂
  cases hstep : lexStep jsm (r₂.unreadBytes.take 512) with
  | none =>
    rw [hstep] at hp₁ hp₂
    obtain ⟨t₁, hr₁, hc₁, -⟩ := hp₁
    obtain ⟨t₂, hr₂, hc₂, -⟩ := hp₂
    exact ⟨_, t₁, t₂, hr₁, hr₂, hc₁, hc₂, fun hk => absurd rfl hk⟩
  | some step =>
    obtain ⟨token, n, jsm'⟩ := step
    rw [hstep] at hp₁ hp₂
    obtain ⟨-, r₁', hr₁, ha₁⟩ := hp₁
    obtain ⟨-, r₂', hr₂, ha₂⟩ := hp₂
    obtain ⟨-, isString, hscan⟩ := lexStep_valid hstep
    have hn : n ≤ 306 := by
      refine (scanToken_within isString _ [] ?_).2 _ _ hscan
      rw [List.length_take]
      omega
    refine ⟨token, _, _, hr₁, hr₂, ha₁.context, ha₂.context, fun _ => ⟨rfl, n, ?_, ha₁, ha₂⟩⟩
    rw [show READER_SAFE_SIZE = 512 from rfl]
    omega

/-! ## A driver -/

/-- What a driver does with the reader before the end of input: parsing is
only tried with a safe amount of data. -/
inductive DriverOp
  | recover
  | push (b : Buffer)
  | parse

def driverApply (t : JsonTokenizer) : DriverOp → Option (Option JsonToken × JsonTokenizer)
  | .recover =>
    if readerHasExhaustedBuffer t.reader then do
      let (_, reader) ← readerRecoverExhaustedBuffer t.reader
      return (none, { t with reader := reader })
    else some (none, t)
  | .push b => do return (none, { t with reader := ← readerPushBuffer t.reader b })
  | .parse => do
    if ← readerHasSafeAmountOfData t.reader then
      let (token, t) ← jsonTokenizerParseNext t
      return (some token, t)
    else return (none, t)

/-- The rest at the end of input, to its end or the first invalid token. -/
def driverFinish : Nat → JsonTokenizer → Option (List JsonToken)
  | 0, _ => none
  | fuel + 1, t => do
    if (← readerGetBytesAvailable t.reader) > 0 then
      let (token, t) ← jsonTokenizerParseNext t
      if token.kind = .invalid then return [token] else return token :: (← driverFinish fuel t)
    else return []

/-- The tokens up to the first invalid one, which is the last. -/
def driverRun : List DriverOp → JsonTokenizer → Option (List JsonToken)
  | [], t => do driverFinish ((← readerGetBytesAvailable t.reader).toNat + 1) t
  | op :: ops, t => do
    match ← driverApply t op with
    | (some token, t) =>
      if token.kind = .invalid then return [token] else return token :: (← driverRun ops t)
    | (none, t) => driverRun ops t

/-- The bytes a driver still pushes. -/
def driverInput : List DriverOp → List Byte
  | [] => []
  | .push b :: ops => b.bytes ++ driverInput ops
  | _ :: ops => driverInput ops

/-- The tokens of an input, whatever chunks it comes in. -/
inductive Lexes : JsonStateMachine → List Byte → List JsonToken → Prop
  | done {jsm} : Lexes jsm [] []
  | invalid {jsm bytes} : bytes ≠ [] → lexStep jsm bytes = none → Lexes jsm bytes [INVALID_JSON_TOKEN]
  | token {jsm bytes token n jsm' tokens} : bytes ≠ [] → lexStep jsm bytes = some (token, n, jsm') →
      Lexes jsm' (bytes.drop n) tokens → Lexes jsm bytes (token :: tokens)

theorem Lexes.unique {jsm bytes tokens tokens'} (h : Lexes jsm bytes tokens) (h' : Lexes jsm bytes tokens') :
    tokens = tokens' := by
  induction h generalizing tokens' with
  | done =>
    cases h' with
    | done => rfl
    | invalid hne _ => exact absurd rfl hne
    | token hne _ _ => exact absurd rfl hne
  | invalid hne hstep =>
    cases h' with
    | done => exact absurd rfl hne
    | invalid _ _ => rfl
    | token _ hstep' _ => rw [hstep] at hstep'; cases hstep'
  | token hne hstep _ ih =>
    cases h' with
    | done => exact absurd rfl hne
    | invalid _ hstep' => rw [hstep] at hstep'; cases hstep'
    | token _ hstep' hrest =>
      rw [hstep] at hstep'
      cases hstep'
      rw [ih hrest]

/-- One token of a driver, and the `rest` that it goes on with: the token is
that of the whole input as soon as what is still to come does not change it. -/
theorem driverParse_lexes {t : JsonTokenizer} {more : List Byte} {rest : JsonTokenizer → Option (List JsonToken)}
    (hjsm : JsmOK t.jsm) (h : t.reader.AtByte) (hne : t.reader.unreadBytes ≠ [])
    (hmore : lexStep t.jsm (t.reader.unreadBytes ++ more) = lexStep t.jsm t.reader.unreadBytes)
    (hrest : ∀ t', JsmOK t'.jsm → t'.reader.AtByte → t'.reader.unreadBytes.length < t.reader.unreadBytes.length →
      ∃ tokens, rest t' = some tokens ∧ Lexes t'.jsm (t'.reader.unreadBytes ++ more) tokens) :
    ∃ token t' tokens, jsonTokenizerParseNext t = some (token, t') ∧
      (if token.kind = .invalid then some [token] else (rest t').bind fun tokens => some (token :: tokens)) = some tokens ∧
      Lexes t.jsm (t.reader.unreadBytes ++ more) tokens := by
  have hne' : t.reader.unreadBytes ++ more ≠ [] := fun hnil => hne (List.append_eq_nil_iff.mp hnil).1
  have hparse := jsonTokenizerParseNext_lexes hjsm h hne
  cases hstep : lexStep t.jsm t.reader.unreadBytes with
  | none =>
    rw [hstep] at hparse hmore
    obtain ⟨t', hr, -⟩ := hparse
    exact ⟨INVALID_JSON_TOKEN, t', [INVALID_JSON_TOKEN], hr, rfl, .invalid hne' hmore⟩
  | some step =>
    obtain ⟨token, n, jsm'⟩ := step
    rw [hstep] at hparse hmore
    obtain ⟨hjsm', r', hr, ha⟩ := hparse
    obtain ⟨hreprints, -⟩ := lexStep_valid hstep
    have hn := hreprints.pos
    have hpos := List.length_pos_iff.mpr hne
    obtain ⟨tokens, htokens, hlexes⟩ := hrest ⟨jsm', r'⟩ hjsm' ha.atByte (by
      rw [ha.unread, List.length_drop]
      omega)
    rw [ha.unread, ← List.drop_append_of_le_length ha.le] at hlexes
    refine ⟨token, ⟨jsm', r'⟩, token :: tokens, hr, ?_, .token hne' hmore hlexes⟩
    rw [if_neg hreprints.valid, htokens]
    rfl

theorem driverFinish_lexes {fuel t} (hjsm : JsmOK t.jsm) (h : t.reader.AtByte)
    (hfuel : t.reader.unreadBytes.length < fuel) :
    ∃ tokens, driverFinish fuel t = some tokens ∧ Lexes t.jsm t.reader.unreadBytes tokens := by
  induction fuel generalizing t with
  | zero => omega
  | succ fuel ih =>
    simp only [driverFinish, h.bytesAvailable, Option.bind_eq_bind, Option.bind_some]
    by_cases hne : t.reader.unreadBytes = []
    · rw [if_neg (by simp [hne]), hne]
      exact ⟨[], rfl, .done⟩
    · have hpos := List.length_pos_iff.mpr hne
      obtain ⟨token, t', tokens, hr, htokens, hlexes⟩ := @driverParse_lexes t [] (driverFinish fuel) hjsm h hne
        (by rw [List.append_nil]) (by
          intro t' hjsm' h' hless
          rw [List.append_nil]
          exact ih hjsm' h' (by omega))
      rw [List.append_nil] at hlexes
      refine ⟨tokens, ?_, hlexes⟩
      rw [if_pos (by omega), hr]
      exact htokens

/-- The operations of a driver that do not parse keep the input. -/
theorem driverRun_lexes {ops t} (hjsm : JsmOK t.jsm) (h : t.reader.AtByte)
    (hpush : ∀ b, DriverOp.push b ∈ ops → 0 < b.length) :
    ∃ tokens, driverRun ops t = some tokens ∧
      Lexes t.jsm (t.reader.unreadBytes ++ driverInput ops) tokens := by
  induction ops generalizing t with
  | nil =>
    obtain ⟨tokens, hfinish, hlexes⟩ := @driverFinish_lexes (t.reader.unreadBytes.length + 1) t hjsm h
      (Nat.lt_succ_self _)
    refine ⟨tokens, ?_, by rw [driverInput, List.append_nil]; exact hlexes⟩
    simp only [driverRun, h.bytesAvailable, Option.bind_eq_bind, Option.bind_some]
    exact hfinish
  | cons op ops ih =>
    have hpush' : ∀ b, DriverOp.push b ∈ ops → 0 < b.length := fun b hb => hpush b (List.mem_cons_of_mem _ hb)
    cases op with
    | recover =>
      simp only [driverRun, driverApply, driverInput, Option.bind_eq_bind]
      split
      · next hex =>
        obtain ⟨b, r', hr, hat, hbytes⟩ := h.recover hex
        obtain ⟨tokens, hrun, hlexes⟩ := @ih ⟨t.jsm, r'⟩ hjsm hat hpush'
        rw [hbytes] at hlexes
        exact ⟨tokens, by simpa [hr] using hrun, hlexes⟩
      · exact ih hjsm h hpush'
    | push b =>
      obtain ⟨r', hr, hat, hbytes, -⟩ := h.push (hpush b (List.mem_cons_self ..))
      obtain ⟨tokens, hrun, hlexes⟩ := @ih ⟨t.jsm, r'⟩ hjsm hat hpush'
      rw [hbytes, List.append_assoc] at hlexes
      refine ⟨tokens, ?_, hlexes⟩
      simp only [driverRun, driverApply, hr, Option.bind_eq_bind, Option.bind_some]
      exact hrun
    | parse =>
      simp only [driverRun, driverApply, driverInput, readerHasSafeAmountOfData, h.bytesAvailable,
        Option.bind_eq_bind, Option.bind_some, show READER_SAFE_SIZE = 512 from rfl]
      by_cases hsafe : (512 : Int) ≤ t.reader.unreadBytes.length
      · have hne : t.reader.unreadBytes ≠ [] := by
          intro hnil
          rw [hnil] at hsafe
          exact absurd hsafe (by decide)
        obtain ⟨token, t', tokens, hr, htokens, hlexes⟩ := driverParse_lexes hjsm h hne
          (@lexStep_append t.jsm _ (driverInput ops) (show 306 ≤ t.reader.unreadBytes.length by omega))
          fun t' hjsm' h' _ => @ih t' hjsm' h' hpush'
        refine ⟨tokens, ?_, hlexes⟩
        simp only [hsafe, decide_true, hr]
        exact htokens
      · simp only [hsafe, decide_false, Option.pure_def, Option.bind_some, Bool.false_eq_true, if_false]
        exact ih hjsm h hpush'

/-- **Token boundaries do not depend on the chunks.** With a safe amount of
data at hand two readers parse alike, and two drivers that push the same
input get the same tokens. -/
theorem json_tokens_chunking_independent :
    (∀ jsm r₁ r₂, JsmReachable jsm → r₁.AtByte → r₂.AtByte →
      READER_SAFE_SIZE ≤ r₁.unreadBytes.length → READER_SAFE_SIZE ≤ r₂.unreadBytes.length →
      r₁.unreadBytes.take READER_SAFE_SIZE.toNat = r₂.unreadBytes.take READER_SAFE_SIZE.toNat →
      ParsesAlike jsm r₁ r₂) ∧
    ∀ context₁ context₂ ops₁ ops₂, (∀ b, DriverOp.push b ∈ ops₁ ++ ops₂ → 0 < b.length) →
      driverInput ops₁ = driverInput ops₂ →
      ∃ tokens, driverRun ops₁ (jsonTokenizerInit (readerInit context₁)) = some tokens ∧
        driverRun ops₂ (jsonTokenizerInit (readerInit context₂)) = some tokens := by
  refine ⟨fun jsm r₁ r₂ hjsm h₁ h₂ hlen₁ hlen₂ hsame => jsonTokenizerParseNext_alike hjsm.ok h₁ h₂ hlen₁ hlen₂ hsame,
    ?_⟩
  intro context₁ context₂ ops₁ ops₂ hpush hinput
  obtain ⟨tokens₁, hrun₁, hlexes₁⟩ := @driverRun_lexes ops₁ (jsonTokenizerInit (readerInit context₁)) .init
    (.init context₁) (fun b hb => hpush b (List.mem_append_left _ hb))
  obtain ⟨tokens₂, hrun₂, hlexes₂⟩ := @driverRun_lexes ops₂ (jsonTokenizerInit (readerInit context₂)) .init
    (.init context₂) (fun b hb => hpush b (List.mem_append_right _ hb))
  rw [← hinput] at hlexes₂
  have hsame : tokens₁ = tokens₂ := hlexes₁.unique hlexes₂
  exact ⟨tokens₁, hrun₁, by rw [hsame]; exact hrun₂⟩

/-- 512 spaces in one buffer and in two, and `1 2` in one chunk and in two. -/
theorem json_tokens_chunking_independent_spaces :
    (∃ r₁ r₂ r₃, readerPushBuffer (readerInit contextInit) (bufferMake (List.replicate 512 0x20)) = some r₁ ∧
      readerPushBuffer (readerInit contextInit) (bufferMake (List.replicate 200 0x20)) = some r₂ ∧
      readerPushBuffer r₂ (bufferMake (List.replicate 312 0x20)) = some r₃ ∧ ParsesAlike jsmInit r₁ r₃) ∧
    ∃ tokens, driverRun [.push (bufferMake [0x31, 0x20, 0x32])]
        (jsonTokenizerInit (readerInit contextInit)) = some tokens ∧
      driverRun [.push (bufferMake [0x31]), .parse, .push (bufferMake [0x20, 0x32]), .recover]
        (jsonTokenizerInit (readerInit contextInit)) = some tokens := by
  have hpos : ∀ n, 0 < n → 0 < (bufferMake (List.replicate n 0x20)).length := by
    intro n hn
    simpa [bufferMake] using hn
  obtain ⟨r₁, hr₁, h₁, hb₁, -⟩ := (Reader.AtByte.init contextInit).push (hpos 512 (by decide))
  obtain ⟨r₂, hr₂, h₂, hb₂, -⟩ := (Reader.AtByte.init contextInit).push (hpos 200 (by decide))
  obtain ⟨r₃, hr₃, h₃, hb₃, -⟩ := h₂.push (hpos 312 (by decide))
  rw [hb₂] at hb₃
  simp only [readerInit_unreadBytes, bufferMake_bytes, List.nil_append, List.replicate_append_replicate] at hb₁ hb₃
  refine ⟨⟨r₁, r₂, r₃, hr₁, hr₂, hr₃, ?_⟩, ?_⟩
  · refine json_tokens_chunking_independent.1 jsmInit r₁ r₃ .init h₁ h₃ ?_ ?_ ?_
    · rw [hb₁, List.length_replicate]; decide
    · rw [hb₃, List.length_replicate]; decide
    · rw [hb₁, hb₃]
  · refine json_tokens_chunking_independent.2 contextInit contextInit _ _ ?_ rfl
    intro b hb
    simp only [List.cons_append, List.nil_append, List.mem_cons, DriverOp.push.injEq, List.not_mem_nil, or_false,
      reduceCtorEq, false_or] at hb
    obtain rfl | rfl | rfl := hb <;> decide

end Scomp
