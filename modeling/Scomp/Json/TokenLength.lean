/-
How long a token can be. All but numbers have at most six bytes; nothing
keeps the parts of a number below `JSON_MAX_SINGLE_TOKEN_LENGTH` together.
-/
import Scomp.Json.NumberText
import Scomp.Json.Chunking

namespace Scomp

/-- The states in which a value may start. -/
def startsValue (state : JsonState) : Bool := state = .start || state = .value || state = .arrayStart

/-- A valid token that the next call returns took at most
`JSON_MAX_SINGLE_TOKEN_LENGTH` bytes, and as many are printed for it. -/
def TokenWithinMax (t : JsonTokenizer) : Prop :=
  ∀ token t', jsonTokenizerParseNext t = some (token, t') → token.kind ≠ .invalid →
    t.reader.unreadBytes.length ≤ t'.reader.unreadBytes.length + JSON_MAX_SINGLE_TOKEN_LENGTH ∧
    ∀ w written w', WriterAtByte w → jsonDetokenizerWrite w token = some (written, w') →
      written ≤ JSON_MAX_SINGLE_TOKEN_LENGTH ∧
        w'.bytes.length ≤ w.bytes.length + JSON_MAX_SINGLE_TOKEN_LENGTH

/-! ## Tokens that are not numbers -/

/-- A bound on the bytes looked at bounds the token. -/
theorem Scanner.Within.length_le {scan : Scanner JsonToken} {bound : Nat} (h : scan.Within bound) {bytes : List Byte}
    {token : JsonToken} {n : Nat} (hscan : scan bytes = some (token, n)) (hle : n ≤ bytes.length) : n ≤ bound := by
  rcases Nat.lt_or_ge bytes.length bound with hshort | hlong
  · omega
  · exact (h bytes [] hlong).2 token n hscan

theorem scanFixed_length {kind : JsonTokenKind} {expectedBytes bytes : List Byte} {token : JsonToken} {n : Nat}
    (h : scanFixed kind expectedBytes bytes = some (token, n)) : n = expectedBytes.length := by
  rw [scanFixed] at h
  split at h
  · cases h
    rfl
  · cases h

/-- Outside a string what is longer than five bytes is a number. -/
theorem scanNonstringToken_length {bytes : List Byte} {token : JsonToken} {n : Nat}
    (h : scanNonstringToken bytes = some (token, n)) : n ≤ 5 ∨ scanNumber bytes = some (token, n) := by
  cases bytes with
  | nil => cases h
  | cons b bytes =>
    simp only [scanNonstringToken] at h
    cases hk : jtokDetectNonstringTokenStart b with
    | invalid => rw [hk] at h; cases h
    | number => rw [hk] at h; exact .inr h
    | true | false | null | bom =>
      simp only [hk] at h
      split at h
      · cases h
      · rw [scanFixed_length h]
        exact .inl (by decide)
    | _ =>
      simp only [hk] at h
      cases h
      exact .inl (by decide)

theorem jtokDetectNonstringTokenStart_digit {b : Byte} (h : isDigit b = true) :
    jtokDetectNonstringTokenStart b = .number := by
  have hne : ∀ c, isDigit c = false → b ≠ c := fun c hc => ne_of_isDigit h hc
  have hrange : 0x30 ≤ b ∧ b ≤ 0x39 := by
    have hb := (isDigit_spec h).1
    rw [Bool.or_eq_false_iff, decide_eq_false_iff_not, decide_eq_false_iff_not, UInt8.not_lt, gt_iff_lt, UInt8.not_lt] at hb
    exact hb
  simp [jtokDetectNonstringTokenStart, hne 0x7b rfl, hne 0x7d rfl, hne 0x5b rfl, hne 0x5d rfl, hne 0x74 rfl,
    hne 0x66 rfl, hne 0x6e rfl, hne 0x2c rfl, hne 0x3a rfl, hne 0x20 rfl, hne 0x0a rfl, hne 0x0d rfl, hne 0x09 rfl,
    hne 0x22 rfl, hrange]

/-- A number text is a token outside a string. -/
theorem scanNonstringToken_text {text : NumberText} {rest : List Byte} (h : text.Before rest) :
    scanNonstringToken (text.bytes ++ rest) =
      some ({ kind := .number, payload := .number text.number }, text.bytes.length) := by
  rw [← scanNumber_text h]
  obtain ⟨b, tail, hbytes, hb⟩ : ∃ b tail, text.bytes ++ rest = b :: tail ∧ jtokDetectNonstringTokenStart b = .number := by
    obtain ⟨b, tail, hinteger, hb⟩ := h.integer.toDigitRun.head
    rw [NumberText.bytes, hinteger]
    cases text.negative with
    | true => exact ⟨0x2d, _, rfl, rfl⟩
    | false => exact ⟨b, _, rfl, jtokDetectNonstringTokenStart_digit hb⟩
  rw [hbytes]
  simp only [scanNonstringToken, hb]

/-! ## One call -/

theorem jsmTryStartValue_number {jsm jsm' : JsonStateMachine} {isAccepted : Bool}
    (h : jsmTryStartValue jsm .number = some (isAccepted, jsm')) : isAccepted = true := by
  obtain ⟨state, -, h⟩ := Option.bind_eq_some_iff.mp h
  by_cases hvalue : state = .value
  · simp only [hvalue, if_true] at h
    obtain ⟨jsm₁, -, h⟩ := Option.bind_eq_some_iff.mp h
    obtain ⟨jsm₂, -, h⟩ := Option.bind_eq_some_iff.mp h
    cases h
    rfl
  · simp only [hvalue, if_false, Option.bind_eq_bind, Option.bind_some] at h
    obtain ⟨jsm₂, -, h⟩ := Option.bind_eq_some_iff.mp h
    cases h
    rfl

/-- The state machine takes a number where a value may start. -/
theorem jsmProcessToken_number {jsm jsm' : JsonStateMachine} {state : JsonState} {isAccepted : Bool}
    (hs : jsmGetCurrentState jsm = some state) (hp : jsmProcessToken jsm .number = some (isAccepted, jsm')) :
    isAccepted = startsValue state := by
  simp only [jsmProcessToken, hs, Option.bind_eq_bind, Option.bind_some] at hp
  cases state with
  | start =>
    obtain ⟨jsm₁, -, hp⟩ := Option.bind_eq_some_iff.mp hp
    exact jsmTryStartValue_number hp
  | value | arrayStart => exact jsmTryStartValue_number hp
  | _ =>
    cases hp
    rfl

/-- The scanned token is accepted. -/
theorem lexStep_number {jsm : JsonStateMachine} (hjsm : JsmOK jsm) {state : JsonState}
    (hs : jsmGetCurrentState jsm = some state) (hvalue : startsValue state = true) {text : NumberText} {rest : List Byte}
    (h : text.Before rest) : ∃ jsm', lexStep jsm (text.bytes ++ rest) =
      some ({ kind := .number, payload := .number text.number }, text.bytes.length, jsm') := by
  obtain ⟨isAccepted, jsm', hp, -⟩ := hjsm.process .number
  have haccepted := jsmProcessToken_number hs hp
  rw [hvalue] at haccepted
  subst haccepted
  have hstring : jsonIsStringState state = false := by
    cases state <;> first | rfl | exact absurd hvalue (by decide)
  refine ⟨jsm', ?_⟩
  simp [lexStep, hs, hstring, scanToken, scanNonstringToken_text h, hp]

/-- The next token, for a call that returns one. -/
theorem tokenWithinMax_of_lexStep {t : JsonTokenizer} (hjsm : JsmOK t.jsm) (h : t.reader.AtByte) :
    TokenWithinMax t ↔ ∀ token n jsm', lexStep t.jsm t.reader.unreadBytes = some (token, n, jsm') →
      n ≤ JSON_MAX_SINGLE_TOKEN_LENGTH := by
  by_cases hne : t.reader.unreadBytes = []
  · have hnone : jsonTokenizerParseNext t = none := by
      simp [jsonTokenizerParseNext, h.bytesAvailable, hne]
    constructor
    · intro _ token n jsm' hstep
      have hreprints := (lexStep_valid hstep).1
      have hle := hreprints.le
      rw [hne, List.length_nil] at hle
      omega
    · intro _ token t' hparse
      rw [hnone] at hparse
      cases hparse
  · have hlexes := jsonTokenizerParseNext_lexes hjsm h hne
    cases hstep : lexStep t.jsm t.reader.unreadBytes with
    | none =>
      rw [hstep] at hlexes
      obtain ⟨t₁, hparse, -⟩ := hlexes
      constructor
      · intro _ token n jsm' he
        cases he
      · intro _ token t' hparse' hk
        rw [hparse] at hparse'
        cases hparse'
        exact absurd rfl hk
    | some step =>
      obtain ⟨token, n, jsm'⟩ := step
      rw [hstep] at hlexes
      obtain ⟨-, r', hparse, hahead⟩ := hlexes
      obtain ⟨hreprints, -⟩ := lexStep_valid hstep
      have hle := hreprints.le
      have hunread : r'.unreadBytes.length = t.reader.unreadBytes.length - n := by
        rw [hahead.unread, List.length_drop]
      have hprinted : (printToken token).length = n := by
        rw [hreprints.printed, List.length_take, Nat.min_eq_left hle]
      constructor
      · intro hwithin token' n' jsm'' he
        cases he
        have hread := (hwithin token _ hparse hreprints.valid).1
        rw [hunread] at hread
        omega
      · intro hbound token' t' hparse' hk
        have hn := hbound token n jsm' rfl
        rw [hparse] at hparse'
        cases hparse'
        refine ⟨by rw [hunread]; omega, fun w written w' hw hwrite => ?_⟩
        obtain ⟨w₁, hwrite₁, -, hbytes⟩ := jsonDetokenizerWrite_prints hk w hw
        dsimp only at hwrite₁
        rw [hwrite] at hwrite₁
        cases hwrite₁
        rw [hbytes, List.length_append, hprinted]
        omega

/-- **When a token is within the maximum**: a value may not start here, or no
number text of more than `JSON_MAX_SINGLE_TOKEN_LENGTH` bytes comes next. -/
theorem tokenWithinMax_iff {t : JsonTokenizer} {state : JsonState} (hjsm : JsmOK t.jsm) (h : t.reader.AtByte)
    (hs : jsonTokenizerGetCurrentState t = some state) :
    TokenWithinMax t ↔ startsValue state = true → ∀ (text : NumberText) (rest : List Byte),
      t.reader.unreadBytes = text.bytes ++ rest → text.Before rest → text.bytes.length ≤ JSON_MAX_SINGLE_TOKEN_LENGTH := by
  rw [tokenWithinMax_of_lexStep hjsm h]
  constructor
  · intro hbound hvalue text rest hbytes hbefore
    obtain ⟨jsm', hstep⟩ := lexStep_number hjsm hs hvalue hbefore
    rw [← hbytes] at hstep
    exact hbound _ _ jsm' hstep
  · intro hbound token n jsm' hstep
    obtain ⟨state', hs', hscan, hp⟩ := lexStep_eq_some hstep
    obtain rfl : state = state' := Option.some.inj (hs.symm.trans hs')
    have hle := (lexStep_valid hstep).1.le
    rw [scanToken] at hscan
    split at hscan
    · have hshort := scanStringToken_within.length_le hscan hle
      exact Nat.le_trans hshort (by decide)
    · rcases scanNonstringToken_length hscan with hshort | hnumber
      · exact Nat.le_trans hshort (by decide)
      · obtain ⟨text, rest, hbytes, hbefore, rfl, rfl⟩ := scanNumber_isText hnumber
        have hvalue := jsmProcessToken_number hs hp
        exact hbound hvalue.symm text rest hbytes hbefore

/-- `[1]` -/
theorem tokenWithinMax_iff_array : ∃ r,
    readerPushBuffer (readerInit contextInit) (bufferMake [0x5b, 0x31, 0x5d]) = some r ∧
      TokenWithinMax (jsonTokenizerInit r) := by
  obtain ⟨r, hpush, hat, hu⟩ := exists_reader_digits [0x5b, 0x31, 0x5d] [] (by decide)
  refine ⟨r, hpush, (@tokenWithinMax_iff (jsonTokenizerInit r) .start .init hat rfl).2 fun _ text rest hbytes _ => ?_⟩
  have hlength : text.bytes.length + rest.length = 3 := by
    rw [← List.length_append, ← hbytes]
    exact congrArg List.length hu
  exact Nat.le_trans (Nat.le_of_add_right_le hlength.le) (by decide)

/-- `1.00..01e00..01` with 79 zeroes in each part, of 163 bytes. -/
def longNumberText : NumberText where
  negative := false
  integer := [0x31]
  fraction := some (List.replicate 79 0x30 ++ [0x31])
  exponent := some { mark := 0x65, sign := none, digits := List.replicate 79 0x30 ++ [0x31] }

theorem longNumberText_before : longNumberText.Before [] := by
  have hdigits : ∀ b ∈ List.replicate 79 0x30 ++ [0x31], isDigit b = true :=
    List.all_iff_forall_prop.mp (by decide)
  have hrun : ∀ rest : List Byte, (∀ b ∈ rest.head?, isDigit b = false) →
      ReadableRun (List.replicate 79 0x30 ++ [0x31]) rest := fun rest hends =>
    ⟨⟨by simp, hdigits, hends⟩, by decide +kernel, by decide +kernel⟩
  refine ⟨⟨⟨⟨by simp [longNumberText], ?_, ?_⟩, by decide, by decide⟩, .inl (by decide)⟩, ?_, ?_⟩
  · exact List.all_iff_forall_prop.mp (by decide)
  · intro b hb
    cases hb
    rfl
  · refine hrun _ fun b hb => ?_
    cases hb
    rfl
  · exact ⟨.inl rfl, by simp, hrun [] (by simp), by decide +kernel⟩

/-- A fresh tokenizer returns that number as one token. -/
theorem tokenWithinMax_fails : ∃ r,
    readerPushBuffer (readerInit contextInit) (bufferMake longNumberText.bytes) = some r ∧
      ¬ TokenWithinMax (jsonTokenizerInit r) := by
  obtain ⟨r, hpush, hat, hu⟩ := exists_reader_digits longNumberText.bytes [] (by decide)
  rw [List.append_nil] at hpush hu
  refine ⟨r, hpush, fun hwithin => ?_⟩
  have hbound := (@tokenWithinMax_of_lexStep (jsonTokenizerInit r) .init hat).1 hwithin
  obtain ⟨jsm', hstep⟩ := @lexStep_number jsmInit .init .start rfl rfl _ _ longNumberText_before
  have hlong : ¬ longNumberText.bytes.length ≤ JSON_MAX_SINGLE_TOKEN_LENGTH := by decide +kernel
  rw [List.append_nil] at hstep
  rw [show (jsonTokenizerInit r).reader.unreadBytes = longNumberText.bytes from hu] at hbound
  exact hlong (hbound _ _ jsm' hstep)

end Scomp
