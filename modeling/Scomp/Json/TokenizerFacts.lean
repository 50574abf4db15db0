/-
The tokenizer scans: a call of `json_tokenizer_parse_next` is the scanned
token put to the state machine.
-/
import Scomp.Json.Scanner
import Scomp.Json.StateMachineSafety

namespace Scomp

theorem jtokReadUintLoop_scans {fuel leadingZeroes value} {r : Reader} (h : r.AtByte)
    (hf : r.unreadBytes.length < fuel) :
    ∃ r', jtokReadUintLoop fuel leadingZeroes value r =
        some ((scanUint leadingZeroes value r.unreadBytes).1, r') ∧
      r.Ahead r' (scanUint leadingZeroes value r.unreadBytes).2 := by
  induction fuel generalizing leadingZeroes value r with
  | zero => omega
  | succ fuel ih =>
    match hu : r.unreadBytes with
    | [] =>
      refine ⟨r, ?_, .refl h⟩
      simp [jtokReadUintLoop, h.bytesAvailable, hu, scanUint]
    | b :: bytes =>
      rw [hu, List.length_cons] at hf
      have havail : ((b :: bytes).length : Int) > 0 := by simp only [List.length_cons]; omega
      obtain ⟨r₁, hp, ha₁⟩ := h.peek hu
      have hu₁ : r₁.unreadBytes = b :: bytes := by rw [ha₁.unread, hu]; rfl
      obtain ⟨r₂, hr, ha₂⟩ := ha₁.atByte.read hu₁
      have hu₂ : r₂.unreadBytes = bytes := by rw [ha₂.unread, hu₁]; rfl
      have ha : r.Ahead r₂ 1 := by simpa using ha₁.trans ha₂
      -- a turn that consumes the byte goes on with the next ones
      have hnext : ∀ leadingZeroes value, ∃ r', jtokReadUintLoop fuel leadingZeroes value r₂ =
          some ((scanUint leadingZeroes value bytes).1, r') ∧
            r.Ahead r' ((scanUint leadingZeroes value bytes).2 + 1) := by
        intro leadingZeroes value
        obtain ⟨r', hloop, ha'⟩ := @ih leadingZeroes value r₂ ha₂.atByte (by rw [hu₂]; omega)
        rw [hu₂] at hloop ha'
        exact ⟨r', hloop, by rw [Nat.add_comm]; exact ha.trans ha'⟩
      simp only [jtokReadUintLoop, h.bytesAvailable, hu, Option.bind_eq_bind, Option.bind_some, if_pos havail,
        hp, scanUint]
      split
      · exact ⟨r₁, rfl, ha₁⟩
      · split
        · split
          · exact ⟨r₁, rfl, ha₁⟩
          · rw [hr]
            exact hnext _ _
        · split
          · exact ⟨r₁, rfl, ha₁⟩
          · rw [hr]
            exact hnext _ _

theorem jtokReadUint_scans {r : Reader} (h : r.AtByte) :
    ∃ r', jtokReadUint r = some ((scanUint 0 0 r.unreadBytes).1, r') ∧
      r.Ahead r' (scanUint 0 0 r.unreadBytes).2 := by
  simp only [jtokReadUint, h.bytesAvailable, Option.bind_eq_bind, Option.bind_some, Int.toNat_natCast]
  exact jtokReadUintLoop_scans h (Nat.lt_succ_self _)

theorem jtokMergeBytes_scans {isValid i count value} {r : Reader} (h : r.AtByte)
    (hc : count ≤ r.unreadBytes.length) :
    ∃ r' n, jtokMergeBytes isValid i count value r = some (scanMerged isValid i count value r.unreadBytes, r') ∧
      r.Ahead r' n ∧ (scanMerged isValid i count value r.unreadBytes ≠ none → n = count) := by
  induction count generalizing i value r with
  | zero => exact ⟨r, 0, rfl, .refl h, fun _ => rfl⟩
  | succ count ih =>
    match hu : r.unreadBytes with
    | [] => rw [hu] at hc; simp at hc
    | b :: bytes =>
      rw [hu, List.length_cons] at hc
      obtain ⟨r₁, hr, ha₁⟩ := h.read hu
      have hu₁ : r₁.unreadBytes = bytes := by rw [ha₁.unread, hu]; rfl
      simp only [jtokMergeBytes, hr, Option.bind_eq_bind, Option.bind_some, scanMerged]
      split
      · obtain ⟨r', n, hm, ha', hn⟩ := @ih (i + 1) (value ||| (b.toUInt64 <<< UInt64.ofNat (8 * i))) r₁
          ha₁.atByte (by rw [hu₁]; omega)
        rw [hu₁] at hm hn
        exact ⟨r', 1 + n, hm, ha₁.trans ha', fun hne => by rw [hn hne, Nat.add_comm]⟩
      · exact ⟨r₁, 1, rfl, ha₁, fun hne => absurd rfl hne⟩

theorem jtokReadEscape_scans : Scans (2 ≤ ·.length) jtokReadEscape scanEscape := by
  intro r h hP
  match hu : r.unreadBytes with
  | [] | [_] => rw [hu] at hP; simp at hP
  | b :: nextChar :: bytes =>
    obtain ⟨r₁, hr₁, ha₁⟩ := h.read hu
    have hu₁ : r₁.unreadBytes = nextChar :: bytes := by rw [ha₁.unread, hu]; rfl
    obtain ⟨r₂, hr₂, ha₂⟩ := ha₁.atByte.read hu₁
    have hu₂ : r₂.unreadBytes = bytes := by rw [ha₂.unread, hu₁]; rfl
    have ha : r.Ahead r₂ 2 := ha₁.trans ha₂
    simp only [jtokReadEscape, hr₁, hr₂, Option.bind_eq_bind, Option.bind_some, scanEscape]
    split
    · exact ⟨r₂, 2, rfl, ha, fun a m he => by cases he; rfl⟩
    · split
      · simp only [ha₂.atByte.bytesAvailable, Option.bind_some, hu₂]
        by_cases hlen : bytes.length < 4
        · have hlt : (bytes.length : Int) < (JSON_HEX_CHARACTERS_IN_ESCAPED_UNICODE_CODEPOINT : Nat) := by
            exact_mod_cast hlen
          rw [if_pos hlt, if_pos hlen]
          exact ⟨r₂, 2, rfl, ha, fun a m he => by cases he⟩
        · have hge : ¬ (bytes.length : Int) < (JSON_HEX_CHARACTERS_IN_ESCAPED_UNICODE_CODEPOINT : Nat) := by
            exact_mod_cast hlen
          rw [if_neg hge, if_neg hlen]
          obtain ⟨r₃, n, hm, ha₃, hn⟩ := @jtokMergeBytes_scans jtokIsHex 0 4 0 r₂ ha₂.atByte
            (by rw [hu₂]; omega)
          rw [hu₂] at hm hn
          refine ⟨r₃, 2 + n, ?_, ha.trans ha₃, ?_⟩
          · rw [show JSON_HEX_CHARACTERS_IN_ESCAPED_UNICODE_CODEPOINT = 4 from rfl, hm]
            cases scanMerged jtokIsHex 0 4 0 bytes <;> rfl
          · intro a m he
            cases hs : scanMerged jtokIsHex 0 4 0 bytes with
            | none => rw [hs] at he; cases he
            | some value =>
              rw [hs] at he
              cases he
              rw [hn (by rw [hs]; simp)]
      · exact ⟨r₂, 2, rfl, ha, fun a m he => by cases he⟩

theorem jtokReadUnicodeCharacter_scans {firstByte utf8Length} (hpos : 0 < utf8Length) :
    Scans (utf8Length ≤ ·.length) (jtokReadUnicodeCharacter firstByte utf8Length)
      (scanUnicodeCharacter firstByte utf8Length) := by
  intro r h hP
  match hu : r.unreadBytes with
  | [] => rw [hu] at hP; simp only [List.length_nil] at hP; omega
  | b :: bytes =>
    rw [hu, List.length_cons] at hP
    obtain ⟨r₁, hr₁, ha₁⟩ := h.read hu
    have hu₁ : r₁.unreadBytes = bytes := by rw [ha₁.unread, hu]; rfl
    obtain ⟨r₂, n, hm, ha₂, hn⟩ := @jtokMergeBytes_scans utf8IsValidContinuationByte 1 (utf8Length - 1)
      firstByte.toUInt64 r₁ ha₁.atByte (by rw [hu₁]; omega)
    rw [hu₁] at hm hn
    refine ⟨r₂, 1 + n, ?_, ha₁.trans ha₂, ?_⟩
    · simp only [jtokReadUnicodeCharacter, hr₁, Option.bind_eq_bind, Option.bind_some, hm,
        scanUnicodeCharacter, List.tail_cons, Option.map_map]
      rfl
    · intro a m he
      obtain ⟨value, hs, he⟩ := Option.map_eq_some_iff.mp he
      cases he
      rw [hn (by rw [List.tail_cons] at hs; rw [hs]; simp)]
      omega

theorem jtokReadExpected_scans {kind expected} {r : Reader} (h : r.AtByte)
    (hlen : expected.length ≤ r.unreadBytes.length) :
    ∃ r' n, jtokReadExpected kind expected r =
        some (if r.unreadBytes.take expected.length = expected then some { kind := kind } else none, r') ∧
      r.Ahead r' n ∧ (r.unreadBytes.take expected.length = expected → n = expected.length) := by
  induction expected generalizing r with
  | nil => exact ⟨r, 0, rfl, .refl h, fun _ => rfl⟩
  | cons e expected ih =>
    match hu : r.unreadBytes with
    | [] => rw [hu] at hlen; simp at hlen
    | b :: bytes =>
      rw [hu] at hlen
      simp only [List.length_cons] at hlen
      obtain ⟨r₁, hr₁, ha₁⟩ := h.read hu
      have hu₁ : r₁.unreadBytes = bytes := by rw [ha₁.unread, hu]; rfl
      simp only [jtokReadExpected, hr₁, Option.bind_eq_bind, Option.bind_some, List.length_cons,
        List.take_succ_cons, List.cons.injEq]
      by_cases hb : b = e
      · obtain ⟨r', n, hr', ha', hn⟩ := ih ha₁.atByte (by rw [hu₁]; omega)
        rw [hu₁] at hr' hn
        refine ⟨r', 1 + n, ?_, ha₁.trans ha', fun he => by rw [hn he.2, Nat.add_comm]⟩
        simp only [hb, if_true, true_and]
        exact hr'
      · exact ⟨r₁, 1, by simp [hb], ha₁, fun he => absurd he.1 hb⟩

theorem jtokReadFixed_scans {kind expectedBytes} (hpos : 0 < expectedBytes.length) :
    Scans (expectedBytes.length ≤ ·.length) (jtokReadFixed kind expectedBytes) (scanFixed kind expectedBytes) := by
  intro r h hP
  match hu : r.unreadBytes with
  | [] => rw [hu] at hP; simp only [List.length_nil] at hP; omega
  | b :: bytes =>
    rw [hu, List.length_cons] at hP
    obtain ⟨r₁, hr₁, ha₁⟩ := h.read hu
    have hu₁ : r₁.unreadBytes = bytes := by rw [ha₁.unread, hu]; rfl
    obtain ⟨r₂, n, hr₂, ha₂, hn⟩ := @jtokReadExpected_scans kind expectedBytes.tail r₁ ha₁.atByte
      (by rw [hu₁, List.length_tail]; omega)
    rw [hu₁, List.length_tail] at hr₂ hn
    have hread : jtokReadFixed kind expectedBytes r = jtokReadExpected kind expectedBytes.tail r₁ := by
      simp only [jtokReadFixed, hr₁, Option.bind_eq_bind, Option.bind_some]
    by_cases heq : bytes.take (expectedBytes.length - 1) = expectedBytes.tail
    · have hscan : scanFixed kind expectedBytes (b :: bytes) = some ({ kind := kind }, expectedBytes.length) :=
        if_pos heq
      rw [if_pos heq] at hr₂
      rw [hread, hr₂, hscan]
      refine ⟨r₂, 1 + n, rfl, ha₁.trans ha₂, fun a m he => ?_⟩
      cases he
      rw [hn heq]
      omega
    · have hscan : scanFixed kind expectedBytes (b :: bytes) = none := if_neg heq
      rw [if_neg heq] at hr₂
      rw [hread, hr₂, hscan]
      exact ⟨r₂, 1 + n, rfl, ha₁.trans ha₂, fun a m he => by cases he⟩

/-! ## Numbers -/

theorem jtokReadNumberSign_scans : Scans (· ≠ []) jtokReadNumberSign scanNumberSign := by
  intro r h hP
  match hu : r.unreadBytes with
  | [] => exact absurd hu hP
  | b :: bytes =>
    obtain ⟨r₁, hp, ha₁⟩ := h.peek hu
    have hu₁ : r₁.unreadBytes = b :: bytes := by rw [ha₁.unread, hu]; rfl
    obtain ⟨r₂, hr, ha₂⟩ := ha₁.atByte.read hu₁
    simp only [jtokReadNumberSign, hp, Option.bind_eq_bind, Option.bind_some, ha₁.atByte.bytesAvailable, hu₁,
      hr, scanNumberSign]
    have hlen : ((b :: bytes).length : Int) < 2 ↔ bytes.length + 1 < 2 := by
      simp only [List.length_cons]; omega
    split
    · simp only [hlen]
      split
      · exact ⟨r₁, 0, rfl, ha₁, fun a m he => by cases he⟩
      · exact ⟨r₂, 1, rfl, by simpa using ha₁.trans ha₂, fun a m he => by cases he; rfl⟩
    · exact ⟨r₁, 0, rfl, ha₁, fun a m he => by cases he; rfl⟩

theorem jtokReadNumberInteger_scans (number : JsonNumberToken) :
    Scans (fun _ => True) (jtokReadNumberInteger number) (scanNumberInteger number) := by
  intro r h _
  obtain ⟨r₁, hr, ha⟩ := jtokReadUint_scans h
  simp only [jtokReadNumberInteger, hr, Option.bind_eq_bind, Option.bind_some, scanNumberInteger]
  split
  · exact ⟨r₁, _, rfl, ha, fun a m he => by cases he⟩
  · split
    · exact ⟨r₁, _, rfl, ha, fun a m he => by cases he; rfl⟩
    · exact ⟨r₁, _, rfl, ha, fun a m he => by cases he; rfl⟩

theorem jtokReadNumberFraction_scans (number : JsonNumberToken) :
    Scans (fun _ => True) (jtokReadNumberFraction number) (scanNumberFraction number) := by
  intro r h _
  match hu : r.unreadBytes with
  | [] =>
    refine ⟨r, 0, ?_, .refl h, fun a m he => by cases he; rfl⟩
    simp [jtokReadNumberFraction, h.bytesAvailable, hu, scanNumberFraction]
  | b :: bytes =>
    obtain ⟨r₁, hp, ha₁⟩ := h.peek hu
    have hu₁ : r₁.unreadBytes = b :: bytes := by rw [ha₁.unread, hu]; rfl
    obtain ⟨r₂, hr, ha₂⟩ := ha₁.atByte.read hu₁
    have hu₂ : r₂.unreadBytes = bytes := by rw [ha₂.unread, hu₁]; rfl
    obtain ⟨r₃, hd, ha₃⟩ := jtokReadUint_scans ha₂.atByte
    rw [hu₂] at hd ha₃
    have ha : r.Ahead r₃ (1 + (scanUint 0 0 bytes).2) := by simpa using (ha₁.trans ha₂).trans ha₃
    have hge : ((b :: bytes).length : Int) ≥ 1 := by simp only [List.length_cons]; omega
    have hlen : ((b :: bytes).length : Int) < 2 ↔ bytes.length + 1 < 2 := by
      simp only [List.length_cons]; omega
    simp only [jtokReadNumberFraction, h.bytesAvailable, hu, Option.bind_eq_bind, Option.bind_some, if_pos hge,
      hp, ha₁.atByte.bytesAvailable, hu₁, hr, hd, scanNumberFraction, scanFractionDigits]
    split
    · simp only [hlen]
      split
      · exact ⟨r₁, 0, rfl, ha₁, fun a m he => by cases he⟩
      · split
        · exact ⟨r₃, _, rfl, ha, fun a m he => by cases he⟩
        · exact ⟨r₃, _, rfl, ha, fun a m he => by cases he; rfl⟩
    · exact ⟨r₁, 0, rfl, ha₁, fun a m he => by cases he; rfl⟩

theorem jtokReadExponentSign_scans (number : JsonNumberToken) :
    Scans (· ≠ []) (jtokReadExponentSign number) (scanExponentSign number) := by
  intro r h hP
  match hu : r.unreadBytes with
  | [] => exact absurd hu hP
  | b :: bytes =>
    obtain ⟨r₁, hp, ha₁⟩ := h.peek hu
    have hu₁ : r₁.unreadBytes = b :: bytes := by rw [ha₁.unread, hu]; rfl
    obtain ⟨r₂, hr, ha₂⟩ := ha₁.atByte.read hu₁
    have hlen : ((b :: bytes).length : Int) < 2 ↔ bytes.length + 1 < 2 := by
      simp only [List.length_cons]; omega
    simp only [jtokReadExponentSign, hp, Option.bind_eq_bind, Option.bind_some, ha₁.atByte.bytesAvailable, hu₁,
      hr, scanExponentSign]
    split
    · simp only [hlen]
      split
      · exact ⟨r₁, 0, rfl, ha₁, fun a m he => by cases he⟩
      · exact ⟨r₂, 1, rfl, by simpa using ha₁.trans ha₂, fun a m he => by cases he; rfl⟩
    · exact ⟨r₁, 0, rfl, ha₁, fun a m he => by cases he; rfl⟩

theorem jtokReadExponentDigits_scans (number : JsonNumberToken) :
    Scans (fun _ => True) (jtokReadExponentDigits number) (scanExponentDigits number) := by
  intro r h _
  obtain ⟨r₁, hr, ha⟩ := jtokReadUint_scans h
  simp only [jtokReadExponentDigits, hr, Option.bind_eq_bind, Option.bind_some, scanExponentDigits]
  split
  · exact ⟨r₁, _, rfl, ha, fun a m he => by cases he⟩
  · exact ⟨r₁, _, rfl, ha, fun a m he => by cases he; rfl⟩

theorem jtokReadNumberExponent_scans (number : JsonNumberToken) :
    Scans (fun _ => True) (jtokReadNumberExponent number) (scanNumberExponent number) := by
  intro r h _
  match hu : r.unreadBytes with
  | [] =>
    refine ⟨r, 0, ?_, .refl h, fun a m he => by cases he; rfl⟩
    simp [jtokReadNumberExponent, h.bytesAvailable, hu, scanNumberExponent]
  | b :: bytes =>
    obtain ⟨r₁, hp, ha₁⟩ := h.peek hu
    have hu₁ : r₁.unreadBytes = b :: bytes := by rw [ha₁.unread, hu]; rfl
    obtain ⟨r₂, hr, ha₂⟩ := ha₁.atByte.read hu₁
    have hu₂ : r₂.unreadBytes = bytes := by rw [ha₂.unread, hu₁]; rfl
    have hge : ((b :: bytes).length : Int) ≥ 1 := by simp only [List.length_cons]; omega
    have hlen : ((b :: bytes).length : Int) < 2 ↔ bytes.length + 1 < 2 := by
      simp only [List.length_cons]; omega
    simp only [jtokReadNumberExponent, h.bytesAvailable, hu, Option.bind_eq_bind, Option.bind_some, if_pos hge,
      hp, ha₁.atByte.bytesAvailable, hu₁, hr, scanNumberExponent]
    split
    · simp only [hlen]
      split
      · exact ⟨r₁, 0, rfl, ha₁, fun a m he => by cases he⟩
      · next hmore =>
        have hne : bytes ≠ [] := by
          rintro rfl
          exact hmore (by decide)
        have hscans := (jtokReadExponentSign_scans (withExponent number b)).andThen
          jtokReadExponentDigits_scans (fun _ _ _ _ _ => trivial)
        obtain ⟨r₃, n, hd, ha₃, hn⟩ := hscans r₂ ha₂.atByte (by rw [hu₂]; exact hne)
        rw [hu₂] at hd hn
        refine ⟨r₃, 1 + n, ?_, by simpa using (ha₁.trans ha₂).trans ha₃, ?_⟩
        · rw [Option.map_map]
          exact hd
        · intro a m he
          obtain ⟨⟨a', m'⟩, hs, he⟩ := Option.map_eq_some_iff.mp he
          cases he
          rw [hn _ _ hs]
    · exact ⟨r₁, 0, rfl, ha₁, fun a m he => by cases he; rfl⟩

theorem jtokReadNumber_scans : Scans (· ≠ []) jtokReadNumber scanNumber := by
  intro r h hP
  have hscans := ((jtokReadNumberSign_scans.andThen jtokReadNumberInteger_scans (fun _ _ _ _ _ => trivial)).andThen
    jtokReadNumberFraction_scans (fun _ _ _ _ _ => trivial)).andThen jtokReadNumberExponent_scans
    (fun _ _ _ _ _ => trivial)
  obtain ⟨r₁, n, hr, ha, hn⟩ := hscans r h hP
  refine ⟨r₁, n, ?_, ha, ?_⟩
  · simp only [jtokReadNumber, hr, Option.bind_eq_bind, Option.bind_some, scanNumber, Option.map_map]
    rfl
  · intro a m he
    obtain ⟨⟨a', m'⟩, hs, he⟩ := Option.map_eq_some_iff.mp he
    cases he
    exact hn _ _ hs

/-! ## One call of the tokenizer -/

/-- The reader after a parse that gave up: nothing was read, or a snapshot
of it was restored. -/
def GivenUp (r r' : Reader) : Prop :=
  r.Ahead r' 0 ∨ ∃ r₀ r₁ n, r.Ahead r₀ 0 ∧ r₀.Ahead r₁ n ∧
    readerRestoreSnapshot r₁ (readerTakeSnapshot r₀) = some r'

/-- The result of a parse: the scanned token if there is one and the state
machine accepts it, and the reader ahead by its bytes. -/
def Parsed (t : JsonTokenizer) (scanned : Option (JsonToken × Nat)) (result : Option (JsonToken × JsonTokenizer)) :
    Prop :=
  match scanned with
  | none => ∃ r', result = some (INVALID_JSON_TOKEN, { t with reader := r' }) ∧ GivenUp t.reader r'
  | some (token, n) => ∃ isAccepted jsm', jsmProcessToken t.jsm token.kind = some (isAccepted, jsm') ∧
    match isAccepted with
    | true => ∃ r', result = some (token, { jsm := jsm', reader := r' }) ∧ t.reader.Ahead r' n
    | false => ∃ r', result = some (INVALID_JSON_TOKEN, { jsm := jsm', reader := r' }) ∧ GivenUp t.reader r'

/-- Peeking first makes no difference to the result. -/
theorem Parsed.of_peek {t : JsonTokenizer} {r scanned result} (h : Parsed { t with reader := r } scanned result)
    (ha : t.reader.Ahead r 0) : Parsed t scanned result := by
  have hgiven : ∀ {r'}, GivenUp r r' → GivenUp t.reader r' := by
    rintro r' (hr | ⟨r₀, r₁, n, h₀, h₁, hr⟩)
    · exact .inl (ha.trans hr)
    · exact .inr ⟨r₀, r₁, n, ha.trans h₀, h₁, hr⟩
  unfold Parsed at h ⊢
  split at h
  · obtain ⟨r', hr, hg⟩ := h
    exact ⟨r', hr, hgiven hg⟩
  · next token n =>
    obtain ⟨isAccepted, jsm', hp, h⟩ := h
    refine ⟨isAccepted, jsm', hp, ?_⟩
    cases isAccepted with
    | true =>
      obtain ⟨r', hr, hahead⟩ := h
      exact ⟨r', hr, by simpa using ha.trans hahead⟩
    | false =>
      obtain ⟨r', hr, hg⟩ := h
      exact ⟨r', hr, hgiven hg⟩

section
variable {t : JsonTokenizer} (hjsm : JsmOK t.jsm) (h : t.reader.AtByte)
include hjsm h

theorem jtokYieldSinglebyteToken_parsed {token b bytes} (hu : t.reader.unreadBytes = b :: bytes) :
    Parsed t (some (token, 1)) (jtokYieldSinglebyteToken t token) := by
  obtain ⟨isAccepted, jsm', hp, -⟩ := hjsm.process token.kind
  obtain ⟨r', hr, ha⟩ := h.read hu
  refine ⟨isAccepted, jsm', hp, ?_⟩
  simp only [jtokYieldSinglebyteToken, hp, Option.bind_eq_bind, Option.bind_some]
  cases isAccepted with
  | true => exact ⟨r', by simp only [if_true, hr, Option.bind_some]; rfl, ha⟩
  | false => exact ⟨t.reader, rfl, .inl (.refl h)⟩

theorem jtokTryMultibyte_parsed {P read scan} (hscans : Scans P read scan) (hP : P t.reader.unreadBytes) :
    Parsed t (scan t.reader.unreadBytes) (jtokTryMultibyte t read) := by
  obtain ⟨r₁, n, hread, ha, hn⟩ := hscans t.reader h hP
  obtain ⟨r₂, hrestore, -⟩ := ha.restore_some h
  cases hs : scan t.reader.unreadBytes with
  | none =>
    rw [hs] at hread
    refine ⟨r₂, ?_, .inr ⟨t.reader, r₁, n, .refl h, ha, hrestore⟩⟩
    simp only [jtokTryMultibyte, hread, Option.map_none, Option.bind_eq_bind, Option.bind_some, hrestore]
    rfl
  | some tokenAndLength =>
    obtain ⟨token, m⟩ := tokenAndLength
    rw [hs] at hread
    rw [hn token m hs] at ha
    obtain ⟨isAccepted, jsm', hp, -⟩ := hjsm.process token.kind
    refine ⟨isAccepted, jsm', hp, ?_⟩
    simp only [jtokTryMultibyte, hread, Option.map_some, jtokYieldMultibyteToken, hp, Option.bind_eq_bind,
      Option.bind_some]
    cases isAccepted with
    | true => exact ⟨r₁, rfl, ha⟩
    | false =>
      refine ⟨r₂, ?_, .inr ⟨t.reader, r₁, m, .refl h, ha, hrestore⟩⟩
      simp only [Bool.false_eq_true, if_false, hrestore, Option.bind_some]
      rfl

theorem jtokParseStringToken_parsed (hne : t.reader.unreadBytes ≠ []) :
    Parsed t (scanStringToken t.reader.unreadBytes) (jtokParseStringToken t) := by
  match hu : t.reader.unreadBytes with
  | [] => exact absurd hu hne
  | b :: bytes =>
    obtain ⟨r, hp, ha⟩ := h.peek hu
    have hur : r.unreadBytes = b :: bytes := by rw [ha.unread, hu]; rfl
    refine @Parsed.of_peek t r _ _ ?_ ha
    have hnone : Parsed { t with reader := r } none (some (INVALID_JSON_TOKEN, { t with reader := r })) :=
      ⟨r, rfl, .inl (.refl ha.atByte)⟩
    have htwo : ((b :: bytes).length : Int) < 2 ↔ bytes.length + 1 < 2 := by
      simp only [List.length_cons]; omega
    have hutf : ((b :: bytes).length : Int) < (utf8GetSequenceLengthByFirstByte b : Int) ↔
        bytes.length + 1 < utf8GetSequenceLengthByFirstByte b := by
      simp only [List.length_cons]; omega
    simp only [jtokParseStringToken, hp, Option.bind_eq_bind, Option.bind_some, ha.atByte.bytesAvailable, hur,
      scanStringToken, htwo, hutf]
    split
    · exact @jtokYieldSinglebyteToken_parsed { t with reader := r } hjsm ha.atByte _ _ _ hur
    · split
      · split
        · exact hnone
        · next hmore =>
          have hparsed := @jtokTryMultibyte_parsed { t with reader := r } hjsm ha.atByte _ _ _
            jtokReadEscape_scans (by rw [hur, List.length_cons]; omega)
          rw [hur] at hparsed
          exact hparsed
      · split
        · exact hnone
        · next hlen =>
          split
          · exact hnone
          · simp only [Bool.or_eq_true, decide_eq_true_eq, not_or] at hlen
            have hparsed := @jtokTryMultibyte_parsed { t with reader := r } hjsm ha.atByte _ _ _
              (@jtokReadUnicodeCharacter_scans b _ (Nat.pos_of_ne_zero hlen.1))
              (by rw [hur, List.length_cons]; omega)
            rw [hur] at hparsed
            exact hparsed

theorem jtokParseFixedToken_parsed {kind expectedBytes b bytes} (hu : t.reader.unreadBytes = b :: bytes)
    (hpos : 0 < expectedBytes.length) :
    Parsed t (if bytes.length + 1 < expectedBytes.length then none
      else scanFixed kind expectedBytes (b :: bytes)) (jtokParseFixedToken t kind expectedBytes) := by
  have hlen : ((b :: bytes).length : Int) < (expectedBytes.length : Int) ↔ bytes.length + 1 < expectedBytes.length := by
    simp only [List.length_cons]; omega
  simp only [jtokParseFixedToken, h.bytesAvailable, hu, Option.bind_eq_bind, Option.bind_some, hlen]
  split
  · exact ⟨t.reader, rfl, .inl (.refl h)⟩
  · have hparsed := jtokTryMultibyte_parsed hjsm h (@jtokReadFixed_scans kind expectedBytes hpos)
      (by rw [hu, List.length_cons]; omega)
    rw [hu] at hparsed
    exact hparsed

theorem jtokParseNonstringToken_parsed (hne : t.reader.unreadBytes ≠ []) :
    Parsed t (scanNonstringToken t.reader.unreadBytes) (jtokParseNonstringToken t) := by
  match hu : t.reader.unreadBytes with
  | [] => exact absurd hu hne
  | b :: bytes =>
    obtain ⟨r, hp, ha⟩ := h.peek hu
    have hur : r.unreadBytes = b :: bytes := by rw [ha.unread, hu]; rfl
    refine @Parsed.of_peek t r _ _ ?_ ha
    have hfixed : ∀ kind (expectedBytes : List Byte), 0 < expectedBytes.length →
        Parsed { t with reader := r } _ _ :=
      fun kind expectedBytes => @jtokParseFixedToken_parsed { t with reader := r } hjsm ha.atByte kind expectedBytes
        b bytes hur
    have hsingle : ∀ kind, Parsed { t with reader := r } _ _ := fun kind =>
      @jtokYieldSinglebyteToken_parsed { t with reader := r } hjsm ha.atByte
        { kind := kind, payload := .character b } _ _ hur
    simp only [jtokParseNonstringToken, hp, Option.bind_eq_bind, Option.bind_some, scanNonstringToken]
    cases jtokDetectNonstringTokenStart b with
    | invalid => exact ⟨r, rfl, .inl (.refl ha.atByte)⟩
    | true => exact hfixed .true JTOK_TRUE_BYTES (by decide)
    | false => exact hfixed .false JTOK_FALSE_BYTES (by decide)
    | null => exact hfixed .null JTOK_NULL_BYTES (by decide)
    | bom => exact hfixed .bom UTF8_BOM (by decide)
    | number =>
      have hparsed := @jtokTryMultibyte_parsed { t with reader := r } hjsm ha.atByte _ _ _
        jtokReadNumber_scans (by rw [hur]; simp)
      rw [hur] at hparsed
      exact hparsed
    | _ => exact hsingle _

/-- **A call of the tokenizer** scans one token from the unread bytes and
puts it to the state machine; a rejected or missing token is given up. -/
theorem jsonTokenizerParseNext_parsed {state} (hs : jsonTokenizerGetCurrentState t = some state)
    (hne : t.reader.unreadBytes ≠ []) :
    Parsed t (scanToken (jsonIsStringState state) t.reader.unreadBytes) (jsonTokenizerParseNext t) := by
  have hpos : (t.reader.unreadBytes.length : Int) > 0 := by
    have := List.length_pos_iff.mpr hne
    omega
  simp only [jsonTokenizerParseNext, h.bytesAvailable, Option.bind_eq_bind, Option.bind_some, if_pos hpos, hs,
    scanToken]
  split
  · exact jtokParseStringToken_parsed hjsm h hne
  · exact jtokParseNonstringToken_parsed hjsm h hne

end

end Scomp
