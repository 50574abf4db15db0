/-
Tokenizing undoes printing: printed one after another, tokens that the
tokenizer can return and the state machine accepts are scanned again.

A token's text is scanned the same whatever follows it (`_local`), except
for a number, which must not be continued; and after a number no token that
the state machine accepts does.
-/
import Scomp.Json.TokenLength

namespace Scomp

/-! ## What follows a token -/

/-- Bytes that do not continue a number. -/
def EndsNumber (rest : List Byte) : Prop :=
  ∀ b ∈ rest.head?, isDigit b = false ∧ b ≠ 0x2e ∧ b ≠ 0x65 ∧ b ≠ 0x45

theorem head_append {P : Byte → Prop} {l rest rest' : List Byte} (h : ∀ b ∈ (l ++ rest).head?, P b)
    (h' : ∀ b ∈ rest'.head?, P b) : ∀ b ∈ (l ++ rest').head?, P b := by
  cases l with
  | nil => exact h'
  | cons b l => exact h

theorem ReadableRun.follow {digits l rest rest' : List Byte} (h : ReadableRun digits (l ++ rest))
    (hends : EndsNumber rest') : ReadableRun digits (l ++ rest') :=
  { h with ends := head_append h.ends fun b hb => (hends b hb).1 }

/-- A number text may stand before any bytes that do not continue it. -/
theorem NumberText.Before.follow {text : NumberText} {rest rest' : List Byte} (h : text.Before rest)
    (hends : EndsNumber rest') : text.Before rest' := by
  obtain ⟨hinteger, hfraction, hexponent⟩ := h
  refine ⟨⟨?_, hinteger.noZeroes⟩, ?_, ?_⟩
  · have hread := hinteger.toReadableRun
    rw [← List.append_assoc] at hread ⊢
    exact hread.follow hends
  · cases hf : text.fraction with
    | none =>
      rw [hf] at hfraction
      exact head_append hfraction fun b hb => (hends b hb).2.1
    | some digits =>
      rw [hf] at hfraction
      exact ReadableRun.follow hfraction hends
  · cases he : text.exponent with
    | none => exact fun b hb => (hends b hb).2.2
    | some exponent =>
      rw [he] at hexponent
      have hdigits := @ReadableRun.follow _ [] _ _ hexponent.digits hends
      exact ⟨hexponent.mark, hexponent.sign, hdigits, hexponent.small⟩

/-! ## Scanning a token's own bytes -/

theorem scanMerged_local {isValid : Byte → Bool} {i count : Nat} {value merged : UInt64} {bytes : List Byte}
    (h : scanMerged isValid i count value bytes = some merged) (rest : List Byte) :
    scanMerged isValid i count value (bytes.take count ++ rest) = some merged := by
  induction count generalizing i value bytes with
  | zero => exact h
  | succ count ih =>
    cases bytes with
    | nil => cases h
    | cons b bytes =>
      rw [scanMerged] at h
      rw [List.take_succ_cons, List.cons_append, scanMerged]
      split at h
      · next hb =>
        rw [if_pos hb]
        exact ih h
      · cases h

theorem scanEscape_local {bytes : List Byte} {token : JsonToken} {n : Nat}
    (h : scanEscape (0x5c :: bytes) = some (token, n)) (rest : List Byte) :
    ∃ m, n = m + 2 ∧ m + 1 ≤ bytes.length ∧
      scanEscape (0x5c :: (bytes.take (m + 1) ++ rest)) = some (token, n) := by
  cases bytes with
  | nil => cases h
  | cons nextChar bytes =>
    rw [scanEscape] at h
    by_cases hescape : nextChar ∈ JTOK_ESCAPE_SEQ_CHARS
    · rw [if_pos hescape] at h
      cases h
      exact ⟨0, rfl, by simp, by simp [scanEscape, hescape]⟩
    · rw [if_neg hescape] at h
      by_cases hu : nextChar = 0x75
      · rw [if_pos hu] at h
        by_cases hshort : bytes.length < 4
        · rw [if_pos hshort] at h
          cases h
        · rw [if_neg hshort] at h
          obtain ⟨value, hmerged, he⟩ := Option.map_eq_some_iff.mp h
          cases he
          have hlen : ¬ (bytes.take 4 ++ rest).length < 4 := by
            rw [List.length_append, List.length_take]
            omega
          refine ⟨4, rfl, by rw [List.length_cons]; omega, ?_⟩
          rw [List.take_succ_cons, List.cons_append, scanEscape, if_neg hescape, if_pos hu, if_neg hlen,
            scanMerged_local hmerged]
          rfl
      · rw [if_neg hu] at h
        cases h

theorem scanStringToken_local {bytes : List Byte} {token : JsonToken} {n : Nat}
    (h : scanStringToken bytes = some (token, n)) (rest : List Byte) :
    scanStringToken (bytes.take n ++ rest) = some (token, n) := by
  cases bytes with
  | nil => cases h
  | cons b bytes =>
    simp only [scanStringToken] at h
    by_cases hquote : b = 0x22
    · rw [if_pos hquote] at h
      cases h
      simp [scanStringToken, hquote]
    · rw [if_neg hquote] at h
      by_cases hslash : b = 0x5c
      · subst hslash
        rw [if_pos rfl] at h
        split at h
        · cases h
        · obtain ⟨m, rfl, hlen, hscan⟩ := scanEscape_local h rest
          rw [List.take_succ_cons, List.cons_append, scanStringToken, if_neg hquote, if_pos rfl, hscan, if_neg]
          rw [List.length_append, List.length_take]
          omega
      · rw [if_neg hslash] at h
        split at h
        · cases h
        · next hlen =>
          split at h
          · cases h
          · next hcontrol =>
            obtain ⟨value, hmerged, he⟩ := Option.map_eq_some_iff.mp h
            cases he
            simp only [Bool.or_eq_true, decide_eq_true_eq, not_or, Nat.not_lt] at hlen
            obtain ⟨m, hm⟩ : ∃ m, utf8GetSequenceLengthByFirstByte b = m + 1 :=
              Nat.exists_eq_succ_of_ne_zero hlen.1
            rw [hm] at hlen hcontrol hmerged ⊢
            have hlen' : ¬ (decide (m + 1 = 0) || decide ((bytes.take m ++ rest).length + 1 < m + 1)) = true := by
              simp only [Bool.or_eq_true, decide_eq_true_eq, List.length_append, List.length_take]
              omega
            rw [List.take_succ_cons, List.cons_append]
            simp only [scanStringToken, if_neg hquote, if_neg hslash, hm, if_neg hlen', if_neg hcontrol,
              scanUnicodeCharacter, List.tail_cons, Nat.add_sub_cancel]
            rw [List.tail_cons, Nat.add_sub_cancel] at hmerged
            rw [scanMerged_local hmerged]
            rfl

theorem scanFixed_local {kind : JsonTokenKind} {expectedBytes bytes : List Byte} {b : Byte} {token : JsonToken} {n : Nat}
    (h : (if bytes.length + 1 < expectedBytes.length then none else scanFixed kind expectedBytes (b :: bytes)) =
      some (token, n)) (hpos : 0 < expectedBytes.length) (rest : List Byte) :
    ∃ m, n = m + 1 ∧ (if (bytes.take m ++ rest).length + 1 < expectedBytes.length then none
      else scanFixed kind expectedBytes (b :: (bytes.take m ++ rest))) = some (token, n) := by
  by_cases hshort : bytes.length + 1 < expectedBytes.length
  · rw [if_pos hshort] at h
    cases h
  · rw [if_neg hshort, scanFixed] at h
    by_cases htake : (b :: bytes).tail.take (expectedBytes.length - 1) = expectedBytes.tail
    · rw [if_pos htake] at h
      cases h
      have hlen : (bytes.take (expectedBytes.length - 1)).length = expectedBytes.length - 1 := by
        rw [List.length_take]
        omega
      refine ⟨expectedBytes.length - 1, by omega, ?_⟩
      rw [if_neg (by rw [List.length_append, hlen]; omega), scanFixed, if_pos]
      rw [List.tail_cons, ← htake, List.take_append_of_le_length hlen.ge, List.take_of_length_le hlen.le]
      rfl
    · rw [if_neg htake] at h
      cases h

theorem scanNonstringToken_local {bytes : List Byte} {token : JsonToken} {n : Nat}
    (h : scanNonstringToken bytes = some (token, n)) {rest : List Byte}
    (hends : token.kind = .number → EndsNumber rest) :
    scanNonstringToken (bytes.take n ++ rest) = some (token, n) := by
  cases bytes with
  | nil => cases h
  | cons b bytes =>
    have hscan := h
    simp only [scanNonstringToken] at hscan
    cases hk : jtokDetectNonstringTokenStart b with
    | invalid => rw [hk] at hscan; cases hscan
    | number =>
      rw [hk] at hscan
      obtain ⟨text, rest', hbytes, hbefore, rfl, rfl⟩ := scanNumber_isText hscan
      rw [hbytes, List.take_left]
      exact scanNonstringToken_text (hbefore.follow (hends rfl))
    | true | false | null | bom =>
      simp only [hk] at hscan
      obtain ⟨m, rfl, hlocal⟩ := scanFixed_local hscan (by decide) rest
      rw [List.take_succ_cons, List.cons_append, scanNonstringToken]
      simp only [hk]
      exact hlocal
    | _ =>
      simp only [hk] at hscan
      cases hscan
      simp [scanNonstringToken, hk]

/-! ## Kinds inside and outside strings -/

/-- Inside a string come the delimiter and characters. -/
theorem scanStringToken_kind {bytes : List Byte} {token : JsonToken} {n : Nat}
    (h : scanStringToken bytes = some (token, n)) :
    token.kind = .stringDelimiter ∨ isStringCharacterKind token.kind = true := by
  cases bytes with
  | nil => cases h
  | cons b bytes =>
    simp only [scanStringToken] at h
    split at h
    · cases h
      exact .inl rfl
    · split at h
      · split at h
        · cases h
        · cases bytes with
          | nil => cases h
          | cons nextChar bytes =>
            rw [scanEscape] at h
            split at h
            · cases h
              exact .inr rfl
            · split at h
              · split at h
                · cases h
                · obtain ⟨value, -, he⟩ := Option.map_eq_some_iff.mp h
                  cases he
                  exact .inr rfl
              · cases h
      · split at h
        · cases h
        · split at h
          · cases h
          · obtain ⟨value, -, he⟩ := Option.map_eq_some_iff.mp h
            cases he
            exact .inr rfl

/-- Outside a string the first byte decides. -/
theorem scanNonstringToken_kind {bytes : List Byte} {token : JsonToken} {n : Nat}
    (h : scanNonstringToken bytes = some (token, n)) :
    ∃ b tail, bytes = b :: tail ∧ jtokDetectNonstringTokenStart b = token.kind := by
  have hfixed : ∀ {kind expectedBytes bytes}, scanFixed kind expectedBytes bytes = some (token, n) →
      kind = token.kind := by
    intro kind expectedBytes bytes hscan
    rw [scanFixed] at hscan
    split at hscan
    · cases hscan
      rfl
    · cases hscan
  cases bytes with
  | nil => cases h
  | cons b bytes =>
    refine ⟨b, bytes, rfl, ?_⟩
    simp only [scanNonstringToken] at h
    cases hk : jtokDetectNonstringTokenStart b with
    | invalid => rw [hk] at h; cases h
    | number =>
      rw [hk] at h
      exact (scanNumber_prints h).1.symm
    | true | false | null | bom =>
      simp only [hk] at h
      split at h
      · cases h
      · exact hfixed h
    | _ =>
      simp only [hk] at h
      cases h
      rfl

theorem jtokDetectNonstringTokenStart_character (b : Byte) :
    isStringCharacterKind (jtokDetectNonstringTokenStart b) = false := by
  unfold jtokDetectNonstringTokenStart
  repeat'
    refine iteInduction (motive := fun kind => isStringCharacterKind kind = false) (fun _ => rfl) (fun _ => ?_)
  rfl

/-- An accepted token's step on the stack. -/
theorem JsmOK.step {jsm jsm' : JsonStateMachine} {kind : JsonTokenKind} (h : JsmOK jsm)
    (hp : jsmProcessToken jsm kind = some (true, jsm')) :
    ∃ stack stack', jsm = jsmOf stack JSON_MAX_STATE_STACK_LENGTH ∧ StackOK stack ∧
      jsmStep stack kind = some stack' ∧ jsm' = jsmOf stack' JSON_MAX_STATE_STACK_LENGTH := by
  obtain ⟨stack, rfl, hs⟩ := h
  cases hr : jsmPushRefused (jsmOf stack JSON_MAX_STATE_STACK_LENGTH) kind with
  | true =>
    rw [jsmProcessToken_refused hs hr] at hp
    cases hp
  | false =>
    rw [jsmProcessToken_eq hs.ok hs.fits hr, jsmStepResult] at hp
    cases hstep : jsmStep stack kind with
    | none =>
      rw [hstep] at hp
      cases hp
    | some stack' =>
      rw [hstep] at hp
      cases hp
      exact ⟨stack, stack', rfl, hs.ok, hstep, rfl⟩

/-- Characters are accepted inside strings and nowhere else. -/
theorem jsmStep_character {state : JsonState} {rest stack' : List JsonState} {kind : JsonTokenKind}
    (h : jsmStep (state :: rest) kind = some stack') (hkind : kind ≠ .stringDelimiter) :
    isStringCharacterKind kind = jsonIsStringState state := by
  cases state with
  | root => cases rest <;> cases kind <;> first | rfl | cases h
  | _ => cases kind <;> first | rfl | exact absurd rfl hkind | cases h

/-- After a value come whitespace, a separator or the end of a container. -/
theorem jsmStep_afterValue {rest stack' : List JsonState} {kind : JsonTokenKind} (hok : ContextOK rest)
    (h : jsmStep (afterValue rest) kind = some stack') :
    kind = .whitespace ∨ kind = .valueSeparator ∨ kind = .arrayClose ∨ kind = .objectClose := by
  rcases hok.cases with rfl | ⟨state, rest, rfl, hcontainer, -⟩
  · cases kind <;> first | exact .inl rfl | cases h
  · cases state with
    | arrayStart | arrayContinue | objectStart | objectContinue =>
      cases kind <;>
        first
        | exact .inl rfl
        | exact .inr (.inl rfl)
        | exact .inr (.inr (.inl rfl))
        | exact .inr (.inr (.inr rfl))
        | cases h
    | _ => exact absurd hcontainer (by decide)

theorem jsmStep_afterNumber {stack stack₁ stack₂ : List JsonState} {kind : JsonTokenKind} (hok : StackOK stack)
    (hnumber : jsmStep stack .number = some stack₁) (hnext : jsmStep stack₁ kind = some stack₂) :
    kind = .whitespace ∨ kind = .valueSeparator ∨ kind = .arrayClose ∨ kind = .objectClose := by
  cases stack with
  | nil => cases hnumber
  | cons state rest =>
    cases state with
    | start =>
      obtain rfl : rest = [.root] := hok
      cases hnumber
      exact @jsmStep_afterValue [.root] _ _ rfl hnext
    | value =>
      cases hnumber
      exact jsmStep_afterValue hok hnext
    | arrayStart =>
      cases hnumber
      exact @jsmStep_afterValue (.arrayStart :: rest) _ _ hok hnext
    | root => cases rest <;> cases hnumber
    | _ => cases hnumber

/-! ## Scanning the printed tokens -/

/-- A valid token that the tokenizer returns for some input. -/
def Returnable (token : JsonToken) : Prop :=
  ∃ t t', JsmReachable t.jsm ∧ t.reader.AtByte ∧ jsonTokenizerParseNext t = some (token, t') ∧ token.kind ≠ .invalid

/-- The same kind and, but for the delimiter of a string, the same payload. -/
def SameToken (token token' : JsonToken) : Prop :=
  token'.kind = token.kind ∧ (token.kind ≠ .stringDelimiter → token' = token)

theorem Returnable.scanned {token : JsonToken} (h : Returnable token) :
    ∃ isString bytes n, scanToken isString bytes = some (token, n) := by
  obtain ⟨t, t', hjsm, hat, hparse, hvalid⟩ := h
  by_cases hne : t.reader.unreadBytes = []
  · simp [jsonTokenizerParseNext, hat.bytesAvailable, hne] at hparse
  · have hlexes := jsonTokenizerParseNext_lexes hjsm.ok hat hne
    cases hstep : lexStep t.jsm t.reader.unreadBytes with
    | none =>
      rw [hstep] at hlexes
      obtain ⟨t₁, hparse₁, -⟩ := hlexes
      rw [hparse] at hparse₁
      cases hparse₁
      exact absurd rfl hvalid
    | some step =>
      obtain ⟨token₁, n, jsm'⟩ := step
      rw [hstep] at hlexes
      obtain ⟨-, r', hparse₁, -⟩ := hlexes
      rw [hparse] at hparse₁
      cases hparse₁
      obtain ⟨-, isString, hscan⟩ := lexStep_valid hstep
      exact ⟨isString, _, n, hscan⟩

/-- An accepted token is scanned from its printed bytes. -/
theorem lexStep_printed {jsm jsm' : JsonStateMachine} {token : JsonToken} {rest : List Byte} (hjsm : JsmOK jsm)
    (hreturnable : Returnable token) (hp : jsmProcessToken jsm token.kind = some (true, jsm'))
    (hends : token.kind = .number → EndsNumber rest) :
    ∃ token', SameToken token token' ∧ lexStep jsm (printToken token ++ rest) =
      some (token', (printToken token).length, jsm') := by
  obtain ⟨isString, bytes, n, hscan⟩ := hreturnable.scanned
  obtain ⟨stack, stack', rfl, hok, hstep, rfl⟩ := hjsm.step hp
  obtain ⟨state, below, rfl⟩ : ∃ state below, stack = state :: below := by
    cases stack with
    | nil => cases hstep
    | cons state below => exact ⟨state, below, rfl⟩
  have hs : jsmGetCurrentState (jsmOf (state :: below) JSON_MAX_STATE_STACK_LENGTH) = some state := rfl
  by_cases hdelimiter : token.kind = .stringDelimiter
  · -- a quote is the delimiter in either mode
    have hprinted : printToken token = [0x22] := by
      rw [printToken, hdelimiter]
    obtain ⟨token', htoken', hscan'⟩ : ∃ token', token'.kind = .stringDelimiter ∧
        scanToken (jsonIsStringState state) (0x22 :: rest) = some (token', 1) := by
      cases jsonIsStringState state with
      | true => exact ⟨{ kind := .stringDelimiter }, rfl, rfl⟩
      | false => exact ⟨{ kind := .stringDelimiter, payload := .character 0x22 }, rfl, rfl⟩
    refine ⟨token', ⟨htoken'.trans hdelimiter.symm, fun hne => absurd hdelimiter hne⟩, ?_⟩
    rw [hdelimiter] at hp
    simp [lexStep, hs, hprinted, hscan', htoken', hp]
  · have hreprints := scanToken_reprints hscan
    have hlength : (printToken token).length = n := by
      rw [hreprints.printed, List.length_take, Nat.min_eq_left hreprints.le]
    have hmode := jsmStep_character hstep hdelimiter
    have hlocal : scanToken (jsonIsStringState state) (printToken token ++ rest) = some (token, n) := by
      rw [hreprints.printed, ← hmode]
      cases isString with
      | true =>
        rcases scanStringToken_kind hscan with hk | hk
        · exact absurd hk hdelimiter
        · rw [hk]
          exact scanStringToken_local hscan rest
      | false =>
        obtain ⟨b, tail, -, hb⟩ := scanNonstringToken_kind hscan
        have hk := jtokDetectNonstringTokenStart_character b
        rw [hb] at hk
        rw [hk]
        exact scanNonstringToken_local hscan hends
    refine ⟨token, ⟨rfl, fun _ => rfl⟩, ?_⟩
    simp [lexStep, hs, hlocal, hp, hlength]

/-- What the state machine accepts after a number does not continue it. -/
theorem endsNumber_printed {jsm jsm₁ jsm₂ : JsonStateMachine} {next : JsonToken} (rest : List Byte) (hjsm : JsmOK jsm)
    (hp : jsmProcessToken jsm .number = some (true, jsm₁)) (hreturnable : Returnable next)
    (hnext : jsmProcessToken jsm₁ next.kind = some (true, jsm₂)) : EndsNumber (printToken next ++ rest) := by
  obtain ⟨stack, stack₁, rfl, hok, hstep, rfl⟩ := hjsm.step hp
  obtain ⟨_, _, hp', hjsm₁⟩ := hjsm.process .number
  rw [hp] at hp'
  cases hp'
  obtain ⟨stack₁', stack₂, he, -, hstep', -⟩ := hjsm₁.step hnext
  obtain rfl : stack₁ = stack₁' := congrArg (fun jsm => jsm.stateStack.values) he
  have hkind := jsmStep_afterNumber hok hstep hstep'
  obtain ⟨isString, bytes, n, hscan⟩ := hreturnable.scanned
  have hreprints := scanToken_reprints hscan
  have hdetect : ∃ b tail, bytes = b :: tail ∧ jtokDetectNonstringTokenStart b = next.kind := by
    cases isString with
    | true =>
      rcases scanStringToken_kind hscan with hk | hk
      · rcases hkind with h | h | h | h <;> rw [h] at hk <;> cases hk
      · rcases hkind with h | h | h | h <;> rw [h] at hk <;> cases hk
    | false => exact scanNonstringToken_kind hscan
  obtain ⟨b, tail, rfl, hb⟩ := hdetect
  obtain ⟨m, rfl⟩ : ∃ m, n = m + 1 := Nat.exists_eq_succ_of_ne_zero (Nat.pos_iff_ne_zero.1 hreprints.pos)
  rw [hreprints.printed, List.take_succ_cons, List.cons_append]
  -- a byte that continues a number starts one, or no token
  have hne : ∀ c, jtokDetectNonstringTokenStart c = .number ∨ jtokDetectNonstringTokenStart c = .invalid → b ≠ c := by
    rintro c hc rfl
    rw [hb] at hc
    rcases hkind with h | h | h | h <;> rw [h] at hc <;> rcases hc with hc | hc <;> cases hc
  intro c hc
  cases hc
  refine ⟨?_, hne 0x2e (.inr rfl), hne 0x65 (.inr rfl), hne 0x45 (.inr rfl)⟩
  by_contra hdigit
  rw [Bool.not_eq_false] at hdigit
  exact hne b (.inl (jtokDetectNonstringTokenStart_digit hdigit)) rfl

/-! ## The loops -/

/-- The tokens printed one after another. -/
def jsonDetokenizerWriteAll (w : Writer) : List JsonToken → Option Writer
  | [] => some w
  | token :: tokens => do
    let (_, w) ← jsonDetokenizerWrite w token
    jsonDetokenizerWriteAll w tokens

/-- Parses while bytes are available, up to an invalid token. `none` also
when the turns run out. -/
def jsonTokenizerParseAll : Nat → JsonTokenizer → Option (List JsonToken × JsonTokenizer)
  | 0, _ => none
  | fuel + 1, t => do
    if (← readerGetBytesAvailable t.reader) > 0 then
      let (token, t) ← jsonTokenizerParseNext t
      if token.kind = .invalid then return ([], t)
      else
        let (tokens, t) ← jsonTokenizerParseAll fuel t
        return (token :: tokens, t)
    else return ([], t)

theorem jsonDetokenizerWriteAll_spec {w : Writer} (h : WriterAtByte w) (tokens : List JsonToken)
    (hvalid : ∀ token ∈ tokens, token.kind ≠ .invalid) :
    ∃ w', jsonDetokenizerWriteAll w tokens = some w' ∧ WriterAtByte w' ∧
      w'.bytes = w.bytes ++ tokens.flatMap printToken := by
  induction tokens generalizing w with
  | nil => exact ⟨w, rfl, h, by simp⟩
  | cons token tokens ih =>
    obtain ⟨w₁, hwrite, h₁, hbytes₁⟩ := jsonDetokenizerWrite_prints (hvalid token (by simp)) w h
    obtain ⟨w', hall, h', hbytes⟩ := ih h₁ fun token htoken => hvalid token (by simp [htoken])
    dsimp only at hwrite
    refine ⟨w', ?_, h', ?_⟩
    · simp only [jsonDetokenizerWriteAll, hwrite, Option.bind_eq_bind, Option.bind_some, hall]
    · rw [hbytes, hbytes₁, List.append_assoc]
      rfl

/-- All tokens are accepted, one after another. -/
def AcceptedFrom : JsonStateMachine → List JsonToken → Prop
  | _, [] => True
  | jsm, token :: tokens => ∃ jsm', jsmProcessToken jsm token.kind = some (true, jsm') ∧ AcceptedFrom jsm' tokens

theorem jsonTokenizerParseAll_printed {fuel : Nat} {t : JsonTokenizer} {tokens : List JsonToken} (hjsm : JsmOK t.jsm)
    (h : t.reader.AtByte) (hreturnable : ∀ token ∈ tokens, Returnable token) (haccepted : AcceptedFrom t.jsm tokens)
    (hbytes : t.reader.unreadBytes = tokens.flatMap printToken) (hfuel : t.reader.unreadBytes.length < fuel) :
    ∃ tokens' t', jsonTokenizerParseAll fuel t = some (tokens', t') ∧ t'.reader.unreadBytes = [] ∧
      List.Forall₂ SameToken tokens tokens' := by
  induction tokens generalizing fuel t with
  | nil =>
    obtain ⟨fuel, rfl⟩ : ∃ m, fuel = m + 1 := Nat.exists_eq_succ_of_ne_zero (by omega)
    refine ⟨[], t, ?_, hbytes, .nil⟩
    simp only [jsonTokenizerParseAll, h.bytesAvailable, hbytes, Option.bind_eq_bind, Option.bind_some]
    rfl
  | cons token tokens ih =>
    obtain ⟨fuel, rfl⟩ : ∃ m, fuel = m + 1 := Nat.exists_eq_succ_of_ne_zero (by omega)
    obtain ⟨jsm', hp, haccepted'⟩ := haccepted
    have htoken := hreturnable token (by simp)
    have hreturnable' : ∀ token ∈ tokens, Returnable token := fun token hmem => hreturnable token (by simp [hmem])
    have hends : token.kind = .number → EndsNumber (tokens.flatMap printToken) := by
      intro hnumber
      cases tokens with
      | nil => simp [EndsNumber]
      | cons next tokens =>
        obtain ⟨jsm₂, hnext, -⟩ := haccepted'
        rw [hnumber] at hp
        exact endsNumber_printed _ hjsm hp (hreturnable' next (by simp)) hnext
    obtain ⟨token', hsame, hstep⟩ := lexStep_printed hjsm htoken hp hends
    have hcons : t.reader.unreadBytes = printToken token ++ tokens.flatMap printToken := hbytes
    obtain ⟨hreprints, -⟩ := lexStep_valid hstep
    have hne : t.reader.unreadBytes ≠ [] := by
      rw [hcons]
      exact List.ne_nil_of_length_pos (Nat.lt_of_lt_of_le hreprints.pos hreprints.le)
    have hlexes := jsonTokenizerParseNext_lexes hjsm h hne
    rw [hcons, hstep] at hlexes
    obtain ⟨hjsm', r', hparse, hahead⟩ := hlexes
    have hrest : r'.unreadBytes = tokens.flatMap printToken := by
      rw [hahead.unread, hcons, List.drop_left]
    have hpos := List.length_pos_iff.2 hne
    obtain ⟨tokens', t', hall, hend, hforall⟩ := @ih fuel ⟨jsm', r'⟩ hjsm' hahead.atByte hreturnable' haccepted' hrest (by
      rw [hahead.unread, List.length_drop]
      have := hreprints.pos
      omega)
    refine ⟨token' :: tokens', t', ?_, hend, .cons hsame hforall⟩
    simp only [jsonTokenizerParseAll, h.bytesAvailable, Option.bind_eq_bind, Option.bind_some]
    rw [if_pos (by omega)]
    simp only [hparse, Option.bind_some, if_neg hreprints.valid, hall]
    rfl

theorem acceptedFrom_of_processTokens {jsm jsm' : JsonStateMachine} {tokens : List JsonToken}
    (h : jsmProcessTokens jsm (tokens.map JsonToken.kind) = some (List.replicate tokens.length true, jsm')) :
    AcceptedFrom jsm tokens := by
  induction tokens generalizing jsm with
  | nil => trivial
  | cons token tokens ih =>
    obtain ⟨⟨isAccepted, jsm₁⟩, hp, h⟩ := Option.bind_eq_some_iff.mp h
    obtain ⟨⟨areAccepted, jsm₂⟩, hrest, h⟩ := Option.bind_eq_some_iff.mp h
    cases h
    exact ⟨jsm₁, hp, ih hrest⟩

/-- **Tokenizing undoes printing.** Tokens that the tokenizer can return and
a fresh state machine accepts one after another are printed, and from the
printed bytes in one buffer a fresh tokenizer returns the same tokens and
leaves no byte. -/
theorem json_tokenize_printed (context : Context) (he : contextIsErrored context = false) (staleBytes : List Byte)
    (hsize : 0 < staleBytes.length) (tokens : List JsonToken) (hreturnable : ∀ token ∈ tokens, Returnable token)
    (haccepted : ∃ jsm, jsmProcessTokens jsmInit (tokens.map JsonToken.kind) =
      some (List.replicate tokens.length true, jsm)) :
    ∃ w printed, jsonDetokenizerWriteAll (writerInit staleBytes) tokens = some w ∧
      (writerConsumeAllBuffers context w).1 = { isError := false, buffer := bufferMake printed } ∧
      (tokens = [] → printed = []) ∧
      (tokens ≠ [] → ∃ r tokens' t, readerPushBuffer (readerInit context) (bufferMake printed) = some r ∧
        jsonTokenizerParseAll (printed.length + 1) (jsonTokenizerInit r) = some (tokens', t) ∧
        t.reader.unreadBytes = [] ∧ List.Forall₂ SameToken tokens tokens') := by
  obtain ⟨jsm, hprocess⟩ := haccepted
  have hvalid : ∀ token ∈ tokens, token.kind ≠ .invalid := by
    intro token htoken
    obtain ⟨t, t', -, -, -, hvalid⟩ := hreturnable token htoken
    exact hvalid
  obtain ⟨w, hwrite, hw, hbytes⟩ := jsonDetokenizerWriteAll_spec (.init hsize) tokens hvalid
  rw [writerInit_bytes, List.nil_append] at hbytes
  refine ⟨w, w.bytes, hwrite, hw.consume he, fun hnil => by rw [hbytes, hnil]; rfl, fun hne => ?_⟩
  have hpos : 0 < (bufferMake w.bytes).length := by
    obtain ⟨token, rest, rfl⟩ := List.exists_cons_of_ne_nil hne
    obtain ⟨isString, bytes, n, hscan⟩ := (hreturnable token (by simp)).scanned
    have hreprints := scanToken_reprints hscan
    have hn := hreprints.pos
    have hle := hreprints.le
    show 0 < w.bytes.length
    rw [hbytes, List.flatMap_cons, List.length_append, hreprints.printed, List.length_take]
    omega
  obtain ⟨r, hpush, hat, hunread, -⟩ := (Reader.AtByte.init context).push hpos
  rw [readerInit_unreadBytes, bufferMake_bytes, List.nil_append] at hunread
  obtain ⟨tokens', t, hall, hend, hsame⟩ := @jsonTokenizerParseAll_printed (w.bytes.length + 1) (jsonTokenizerInit r)
    tokens .init hat hreturnable (acceptedFrom_of_processTokens hprocess) (hunread.trans hbytes) (by
      show r.unreadBytes.length < w.bytes.length + 1
      rw [hunread]
      exact Nat.lt_succ_self _)
  exact ⟨r, tokens', t, hpush, hall, hend, hsame⟩

/-- `1` and a space, with the writer's first buffer of two bytes. -/
theorem json_tokenize_printed_number :
    ∃ w printed r tokens' t,
      jsonDetokenizerWriteAll (writerInit [0xaa, 0xaa])
        [{ kind := .number, payload := .number { JsonNumberToken.zero with integerPart := 1 } },
          { kind := .whitespace, payload := .character 0x20 }] = some w ∧
      (writerConsumeAllBuffers contextInit w).1 = { isError := false, buffer := bufferMake printed } ∧
      readerPushBuffer (readerInit contextInit) (bufferMake printed) = some r ∧
      jsonTokenizerParseAll (printed.length + 1) (jsonTokenizerInit r) = some (tokens', t) ∧
      t.reader.unreadBytes = [] ∧
      List.Forall₂ SameToken
        [{ kind := .number, payload := .number { JsonNumberToken.zero with integerPart := 1 } },
          { kind := .whitespace, payload := .character 0x20 }] tokens' := by
  have hreturnable : ∀ token ∈ [({ kind := .number, payload := .number { JsonNumberToken.zero with integerPart := 1 } } :
      JsonToken), { kind := .whitespace, payload := .character 0x20 }], Returnable token := by
    intro token htoken
    obtain ⟨r₁, hpush₁, hat₁, -⟩ := @Reader.AtByte.push _ (bufferMake [0x31]) (.init contextInit) (by decide)
    obtain ⟨r₂, hpush₂, hat₂, -⟩ := @Reader.AtByte.push _ (bufferMake [0x20]) (.init contextInit) (by decide)
    cases hpush₁
    cases hpush₂
    rcases List.mem_pair.1 htoken with rfl | rfl
    · exact ⟨jsonTokenizerInit _, _, .init, hat₁, rfl, by decide⟩
    · exact ⟨jsonTokenizerInit _, _, .init, hat₂, rfl, by decide⟩
  obtain ⟨w, printed, hwrite, hconsume, -, hparse⟩ :=
    json_tokenize_printed contextInit rfl [0xaa, 0xaa] (by decide) _ hreturnable ⟨_, rfl⟩
  obtain ⟨r, tokens', t, hpush, hall, hend, hsame⟩ := hparse (by simp)
  exact ⟨w, printed, r, tokens', t, hwrite, hconsume, hpush, hall, hend, hsame⟩

end Scomp
