/-
The JSON decompressor on any bits: it prints tokens that a state machine of
its own accepts, and nothing it decodes takes it out of bounds.

The state that picks the table is set from accepted tokens only, so it is the
state of a machine that sees just the printed tokens. The decompressor's own
machine differs from that one in one case: a rejected first token has turned
START into VALUE.
-/
import Scomp.Json.Decompressor
import Scomp.Json.StateMachineSafety
import Scomp.StringCompression.DecompressorSafety

namespace Scomp

/-! ## Printed tokens -/

section Definitions

variable {δ : Type} [SymbolDecoder δ]

/-- `jsonDecompressorReadString` up to the token it prints, if there is
one. -/
def jsonDecompressorDecodeString (decomp : JsonDecompressor δ) :
    Option (Bool × Option JsonToken × JsonDecompressor δ) := do
  let (isMore, strdecomp) ← strdecompRead decomp.strdecomp
  let decomp := { decomp with strdecomp := strdecomp }
  if isMore then return (true, none, decomp)
  else
    let table := jsonCompressionBaseGetCurrentFtable decomp.base
    let (s, decomp) ← jsonDecompressorReadKind decomp
    let decomp := jsonDecompressorCount decomp s
    if s = ftableGetEofSymbol table then return (false, none, decomp)
    else
      let kind := JsonTokenKind.ofSymbol s
      if kind ≠ .stringDelimiter then
        return (false, none, { decomp with
          context := contextSetError decomp.context
            s!"Illegal sequence of JSON tokens discovered when decompressing: expected string delimiter, but got {s} instead" })
      else
        let (isDelimiterAccepted, decomp) ← jsonDecompressorUpdateJsm decomp .stringDelimiter
        if isDelimiterAccepted then return (true, some { kind := kind }, decomp) else none

/-- `jsonDecompressorReadNonstring` up to the token it prints. -/
def jsonDecompressorDecodeNonstring (decomp : JsonDecompressor δ) :
    Option (Bool × Option JsonToken × JsonDecompressor δ) := do
  let table := jsonCompressionBaseGetCurrentFtable decomp.base
  let (s, decomp) ← jsonDecompressorReadKind decomp
  if s = ftableGetEofSymbol table then return (false, none, decomp)
  else
    let kind := JsonTokenKind.ofSymbol s
    let (isAccepted, decomp) ← jsonDecompressorUpdateJsm (jsonDecompressorCount decomp s) kind
    if !isAccepted then return (false, none, decomp)
    else
      let (token, decomp) ← jsonDecompressorReadPayload decomp kind
      return (true, some token, decomp)

/-- A call up to the token it prints. -/
def jsonDecompressorDecode (decomp : JsonDecompressor δ) : Option (Bool × Option JsonToken × JsonDecompressor δ) :=
  if jsonIsStringState decomp.base.currentState then jsonDecompressorDecodeString decomp
  else jsonDecompressorDecodeNonstring decomp

def jsonDecompressorPrintAny (decomp : JsonDecompressor δ) : Option JsonToken → Option (JsonDecompressor δ)
  | none => some decomp
  | some token => jsonDecompressorPrint decomp token

/-- **A call prints last**, if it prints at all. -/
theorem jsonDecompressorProcessNextToken_eq (decomp : JsonDecompressor δ) :
    jsonDecompressorProcessNextToken decomp = (do
      let (isMore, token, decomp) ← jsonDecompressorDecode decomp
      return (isMore, ← jsonDecompressorPrintAny decomp token)) := by
  have hprint : ∀ (decomp : JsonDecompressor δ) (token : JsonToken),
      (do return (true, ← jsonDecompressorPrint decomp token) : Option (Bool × JsonDecompressor δ)) =
        (do return (true, ← jsonDecompressorPrintAny decomp (some token))) := fun _ _ => rfl
  unfold jsonDecompressorProcessNextToken jsonDecompressorDecode
  split
  · unfold jsonDecompressorReadString jsonDecompressorDecodeString
    rcases strdecompRead decomp.strdecomp with _ | ⟨isMore, strdecomp⟩
    · rfl
    · simp only [Option.bind_eq_bind, Option.bind_some]
      cases isMore with
      | true => rfl
      | false =>
        rcases jsonDecompressorReadKind { decomp with strdecomp := strdecomp } with _ | ⟨s, decomp₁⟩
        · rfl
        · simp only [Option.bind_some, Bool.false_eq_true, if_false]
          by_cases heof : s = ftableGetEofSymbol (jsonCompressionBaseGetCurrentFtable decomp.base)
          · simp only [if_pos heof]
            rfl
          · simp only [if_neg heof]
            by_cases hkind : JsonTokenKind.ofSymbol s ≠ .stringDelimiter
            · simp only [if_pos hkind]
              rfl
            · simp only [if_neg hkind]
              rcases jsonDecompressorUpdateJsm (jsonDecompressorCount decomp₁ s) .stringDelimiter with
                _ | ⟨_ | _, decomp₂⟩
              · rfl
              · rfl
              · exact hprint _ _
  · unfold jsonDecompressorReadNonstring jsonDecompressorDecodeNonstring
    rcases jsonDecompressorReadKind decomp with _ | ⟨s, decomp₁⟩
    · rfl
    · simp only [Option.bind_eq_bind, Option.bind_some]
      by_cases heof : s = ftableGetEofSymbol (jsonCompressionBaseGetCurrentFtable decomp.base)
      · simp only [if_pos heof]
        rfl
      · simp only [if_neg heof]
        rcases jsonDecompressorUpdateJsm (jsonDecompressorCount decomp₁ s) (JsonTokenKind.ofSymbol s) with
          _ | ⟨_ | _, decomp₂⟩
        · rfl
        · rfl
        · simp only [Option.bind_some, Bool.not_true, Bool.false_eq_true, if_false]
          rcases jsonDecompressorReadPayload decomp₂ (JsonTokenKind.ofSymbol s) with _ | ⟨token, decomp₃⟩
          · rfl
          · exact hprint _ _

/-- Some calls, and the tokens they pass to the detokenizer. -/
def jsonDecompressorCalls : Nat → JsonDecompressor δ → Option (List JsonToken × JsonDecompressor δ)
  | 0, decomp => some ([], decomp)
  | count + 1, decomp => do
    let (_, token, _) ← jsonDecompressorDecode decomp
    let (_, decomp) ← jsonDecompressorProcessNextToken decomp
    let (tokens, decomp) ← jsonDecompressorCalls count decomp
    return (token.toList ++ tokens, decomp)

end Definitions

/-! ## The two state machines -/

/-- One token: what happens to the stack, accepted or not. -/
theorem jsmProcessToken_cases {stack : List JsonState} {kind : JsonTokenKind} {capacity : Nat}
    (h : StackSafe stack capacity) :
    (∃ stack', jsmStep stack kind = some stack' ∧
        jsmProcessToken (jsmOf stack capacity) kind = some (true, jsmOf stack' capacity) ∧ StackSafe stack' capacity) ∨
      ∃ stack', jsmProcessToken (jsmOf stack capacity) kind = some (false, jsmOf stack' capacity) ∧
        StackSafe stack' capacity ∧ (stack' = stack ∨ stack = [.start, .root] ∧ stack' = [.value, .root]) := by
  cases hr : jsmPushRefused (jsmOf stack capacity) kind with
  | true => exact .inr ⟨stack, jsmProcessToken_refused h hr, h, .inl rfl⟩
  | false =>
    have heq := jsmProcessToken_eq h.ok h.fits hr
    rw [jsmStepResult] at heq
    cases hs : jsmStep stack kind with
    | some stack' =>
      rw [hs] at heq
      exact .inl ⟨stack', rfl, heq, jsmStep_stackOK h.ok hs, jsmStep_length_le h.fits hr hs, jsmStep_room h.room h.fits hs⟩
    | none =>
      rw [hs] at heq
      by_cases hstart : stack = [.start, .root]
      · have hfits := h.fits
        simp only [if_pos hstart] at heq
        rw [hstart] at hfits
        exact .inr ⟨_, heq, ⟨rfl, hfits, by simp [RoomOK]⟩, .inr ⟨hstart, rfl⟩⟩
      · simp only [if_neg hstart] at heq
        exact .inr ⟨stack, heq, h, .inl rfl⟩

/-- What is accepted outside of strings is no part of a string. -/
theorem jsmStep_kind {state : JsonState} {rest stack' : List JsonState} {kind : JsonTokenKind}
    (h : jsmStep (state :: rest) kind = some stack') :
    kind ≠ .invalid ∧ (isStringCharacterKind kind = true → jsonIsStringState state = true) := by
  cases kind <;> cases state <;> first
    | exact ⟨by decide, fun _ => by first | rfl | contradiction⟩
    | (exfalso; revert h; cases rest <;> simp [jsmStep, startValue, isStringCharacterKind])

theorem jsmProcessTokens_snoc {jsm jsm₁ jsm' : JsonStateMachine} {kinds : List JsonTokenKind} {kind : JsonTokenKind}
    {areAccepted : List Bool} (h : jsmProcessTokens jsm kinds = some (areAccepted, jsm₁))
    (hkind : jsmProcessToken jsm₁ kind = some (true, jsm')) :
    jsmProcessTokens jsm (kinds ++ [kind]) = some (areAccepted ++ [true], jsm') := by
  induction kinds generalizing jsm areAccepted with
  | nil =>
    cases h
    simp [jsmProcessTokens, hkind]
  | cons first kinds ih =>
    simp only [jsmProcessTokens, Option.bind_eq_bind, Option.bind_eq_some_iff, Prod.exists] at h
    obtain ⟨isAccepted, jsm₂, hfirst, rest, jsm₃, hrest, he⟩ := h
    cases he
    simp [jsmProcessTokens, hfirst, ih hrest]

/-- A fresh machine accepts the kinds printed so far and is now in `state`;
`jsm` is that machine, but for START and VALUE. -/
def JsonMachineOK (kinds : List JsonTokenKind) (state : JsonState) (jsm : JsonStateMachine) : Prop :=
  ∃ fresh stack, jsm = jsmOf stack JSON_MAX_STATE_STACK_LENGTH ∧ StackSafe stack JSON_MAX_STATE_STACK_LENGTH ∧
    jsmProcessTokens jsmInit kinds =
      some (List.replicate kinds.length true, jsmOf fresh JSON_MAX_STATE_STACK_LENGTH) ∧
    fresh.head? = some state ∧ (fresh = stack ∨ fresh = [.start, .root] ∧ stack = [.value, .root])

theorem JsonMachineOK.init : JsonMachineOK [] .start jsmInit :=
  ⟨[.start, .root], [.start, .root], rfl, ⟨rfl, by decide, by simp [RoomOK]⟩, rfl, rfl, .inl rfl⟩

/-- **A token at the decompressor's machine**: accepted, the fresh machine
accepts it as well; rejected, nothing changes but START. -/
theorem JsonMachineOK.process {kinds : List JsonTokenKind} {state : JsonState} {jsm : JsonStateMachine}
    (h : JsonMachineOK kinds state jsm) (kind : JsonTokenKind) :
    (∃ jsm' state', jsmProcessToken jsm kind = some (true, jsm') ∧ jsmGetCurrentState jsm' = some state' ∧
        JsonMachineOK (kinds ++ [kind]) state' jsm' ∧ kind ≠ .invalid ∧
        (isStringCharacterKind kind = true → jsonIsStringState state = true)) ∨
      ∃ jsm', jsmProcessToken jsm kind = some (false, jsm') ∧ JsonMachineOK kinds state jsm' ∧
        (jsonIsStringState state = true → kind ≠ .stringDelimiter) := by
  obtain ⟨fresh, stack, rfl, hsafe, hkinds, hstate, hsame⟩ := h
  rcases @jsmProcessToken_cases stack kind _ hsafe with ⟨stack', hstep, hprocess, hsafe'⟩ | ⟨stack', hprocess, hsafe', hkeep⟩
  · left
    obtain ⟨state', rest', rfl⟩ := List.exists_cons_of_ne_nil (show stack' ≠ [] by rintro rfl; exact hsafe'.ok)
    refine ⟨_, state', hprocess, rfl, ⟨state' :: rest', state' :: rest', rfl, hsafe', ?_, rfl, .inl rfl⟩, ?_⟩
    · rw [List.length_append, List.length_singleton, List.replicate_succ']
      rcases hsame with rfl | ⟨rfl, rfl⟩
      · exact jsmProcessTokens_snoc hkinds hprocess
      · have hbom : kind ≠ .bom := by
          rintro rfl
          cases hstep
        have hstart := @jsmProcessToken_eq [.start, .root] kind JSON_MAX_STATE_STACK_LENGTH rfl (by decide) rfl
        rw [jsmStepResult, show jsmStep [.start, .root] kind = some (state' :: rest') by
          rw [jsmStep, if_neg hbom]; exact hstep] at hstart
        exact jsmProcessTokens_snoc hkinds hstart
    · rcases hsame with rfl | ⟨rfl, rfl⟩
      · obtain ⟨rest, rfl⟩ := List.head?_eq_some_iff.mp hstate
        exact jsmStep_kind hstep
      · obtain ⟨hinvalid, hcharacter⟩ := jsmStep_kind hstep
        exact ⟨hinvalid, fun hk => absurd (hcharacter hk) (by decide)⟩
  · right
    refine ⟨_, hprocess, ⟨fresh, stack', rfl, hsafe', hkinds, hstate, ?_⟩, fun hstring => ?_⟩
    · rcases hkeep with rfl | ⟨rfl, rfl⟩
      · exact hsame
      · rcases hsame with rfl | ⟨rfl, hne⟩
        · exact .inr ⟨rfl, rfl⟩
        · cases hne
    · rintro rfl
      rcases hsame with rfl | ⟨rfl, -⟩
      · obtain ⟨rest, rfl⟩ := List.head?_eq_some_iff.mp hstate
        cases state <;> first | (cases hstring; done) | skip
        all_goals
          have haccepted := @jsmProcessToken_eq _ .stringDelimiter _ hsafe.ok hsafe.fits rfl
          rw [hprocess] at haccepted
          simp [jsmStepResult, jsmStep] at haccepted
      · cases hstate
        cases hstring

/-! ## The decompressor -/

section Safety

variable {δ : Type} {P : δ → Prop} {kinds : List JsonTokenKind} {decomp : JsonDecompressor δ}

/-- What holds between two calls, when tokens of these kinds are printed. -/
structure JsonDecompSafe (P : δ → Prop) (kinds : List JsonTokenKind) (decomp : JsonDecompressor δ) : Prop where
  strdecomp : StrdecompSafe P decomp.strdecomp
  tables : JsonTablesReady decomp.base
  machine : JsonMachineOK kinds decomp.base.currentState decomp.jsm

/-- A token that may be printed. -/
def JsonToken.Printable (token : JsonToken) : Prop := token.kind ≠ .invalid ∧ isStringCharacterKind token.kind = false

theorem JsonDecompSafe.init {writer : Writer} {decoder : δ} (context : Context) (h : WriterAtByte writer) (hd : P decoder) :
    JsonDecompSafe P [] (jsonDecompressorInit context (strdecompInit writer decoder)) :=
  ⟨.init h hd, ⟨JsonTablesReady.init.tokens, JsonTablesReady.init.whitespaces, JsonTablesReady.init.numbers⟩, .init⟩

theorem JsonDecompSafe.withDecoder {P' : δ → Prop} (h : JsonDecompSafe P kinds decomp) {decoder : δ} (hd : P' decoder) :
    JsonDecompSafe P' kinds (decomp.withDecoder decoder) :=
  ⟨⟨h.strdecomp.tables, h.strdecomp.lookback, h.strdecomp.writer, hd⟩, h.tables, h.machine⟩

theorem JsonDecompSafe.count (h : JsonDecompSafe P kinds decomp) {s : Symbol} (hs : s < 18) :
    JsonDecompSafe P kinds (jsonDecompressorCount decomp s) := ⟨h.strdecomp, h.tables.increment hs, h.machine⟩

/-- The machine's answer to a token. -/
theorem JsonDecompSafe.updateJsm (h : JsonDecompSafe P kinds decomp) (kind : JsonTokenKind) :
    (∃ decomp', jsonDecompressorUpdateJsm decomp kind = some (true, decomp') ∧
        JsonDecompSafe P (kinds ++ [kind]) decomp' ∧ kind ≠ .invalid ∧
        (isStringCharacterKind kind = true → jsonIsStringState decomp.base.currentState = true)) ∨
      ∃ decomp', jsonDecompressorUpdateJsm decomp kind = some (false, decomp') ∧ JsonDecompSafe P kinds decomp' ∧
        (jsonIsStringState decomp.base.currentState = true → kind ≠ .stringDelimiter) := by
  rcases h.machine.process kind with ⟨jsm', state', hprocess, hstate, hmachine, hkind⟩ | ⟨jsm', hprocess, hmachine, hkind⟩
  · exact .inl ⟨{ decomp with jsm := jsm', base := { decomp.base with currentState := state' } },
      by simp [jsonDecompressorUpdateJsm, hprocess, hstate],
      ⟨h.strdecomp, ⟨h.tables.tokens, h.tables.whitespaces, h.tables.numbers⟩, hmachine⟩, hkind⟩
  · have hupdate : ∃ context, jsonDecompressorUpdateJsm decomp kind =
        some (false, { decomp with jsm := jsm', context := context }) :=
      ⟨_, by simp [jsonDecompressorUpdateJsm, hprocess]; rfl⟩
    obtain ⟨context, hupdate⟩ := hupdate
    exact .inr ⟨_, hupdate, ⟨h.strdecomp, h.tables, hmachine⟩, hkind⟩

theorem JsonDecompSafe.print (h : JsonDecompSafe P kinds decomp) {token : JsonToken} (ht : token.kind ≠ .invalid) :
    ∃ decomp', jsonDecompressorPrint decomp token = some decomp' ∧ JsonDecompSafe P kinds decomp' := by
  obtain ⟨w', hprint, hat, -⟩ := jsonDetokenizerWrite_prints ht decomp.writer h.strdecomp.writer
  exact ⟨{ decomp with strdecomp := { decomp.strdecomp with writer := w' } }, by simp [jsonDecompressorPrint, hprint],
    ⟨h.strdecomp.tables, h.strdecomp.lookback, hat, h.strdecomp.decoder⟩, h.tables, h.machine⟩

variable [SymbolDecoder δ]

theorem JsonDecompSafe.readKind {P' : δ → Prop} (hP : SafeRead P P') (h : JsonDecompSafe P kinds decomp) :
    ∃ s decoder, jsonDecompressorReadKind decomp = some (s, decomp.withDecoder decoder) ∧ s < 18 ∧ P' decoder := by
  obtain ⟨s, decoder, hread, hlt, hd⟩ := hP decomp.decoder (.token decomp.base.currentState)
    (jsonCompressionBaseGetCurrentFtable decomp.base) h.strdecomp.decoder (h.tables.tokens _)
  exact ⟨s, decoder, by simp [jsonDecompressorReadKind, hread], hlt, hd⟩

theorem JsonDecompSafe.readUint (hP : SafeDecoder P) (h : JsonDecompSafe P kinds decomp) (part : NumberPart) :
    ∃ value decomp', jsonDecompressorReadUint decomp part = some (value, decomp') ∧ JsonDecompSafe P kinds decomp' := by
  obtain ⟨value, tables, decoder, hread, htables, hd⟩ := @uintReaderRead_safe _ _ _ (fun table => .number part table) _
    hP (by cases part <;> rfl) (by cases part <;> rfl) (h.tables.numbers part) _ h.strdecomp.decoder
  refine ⟨value, { decomp.withDecoder decoder with
      base := { decomp.base with numberTables := Function.update decomp.base.numberTables part tables } },
    by simp [jsonDecompressorReadUint, JsonDecompressor.decoder, hread],
    ⟨h.strdecomp.tables, h.strdecomp.lookback, h.strdecomp.writer, hd⟩,
    ⟨h.tables.tokens, h.tables.whitespaces, fun other => ?_⟩, h.machine⟩
  dsimp only
  rw [Function.update_apply]
  split
  · next he =>
    rw [he]
    exact htables
  · exact h.tables.numbers other

theorem JsonDecompSafe.readInteger (hP : SafeDecoder P) (h : JsonDecompSafe P kinds decomp) (number : JsonNumberToken) :
    ∃ number' decomp', jsonDecompressorReadInteger decomp number = some (number', decomp') ∧
      JsonDecompSafe P kinds decomp' := by
  unfold jsonDecompressorReadInteger
  split
  · obtain ⟨value, decomp', hread, h'⟩ := h.readUint hP .int
    exact ⟨_, decomp', by simp [hread]; rfl, h'⟩
  · exact ⟨number, decomp, rfl, h⟩

theorem JsonDecompSafe.readFraction (hP : SafeDecoder P) (h : JsonDecompSafe P kinds decomp) (number : JsonNumberToken) :
    ∃ number' decomp', jsonDecompressorReadFraction decomp number = some (number', decomp') ∧
      JsonDecompSafe P kinds decomp' := by
  unfold jsonDecompressorReadFraction
  split
  · obtain ⟨zeroes, decomp₁, hread, h₁⟩ := h.readUint hP .fracZero
    obtain ⟨value, decomp', hread', h'⟩ := h₁.readUint hP .frac
    exact ⟨_, decomp', by simp [hread, hread']; rfl, h'⟩
  · exact ⟨number, decomp, rfl, h⟩

theorem JsonDecompSafe.readExponent (hP : SafeDecoder P) (h : JsonDecompSafe P kinds decomp) (number : JsonNumberToken) :
    ∃ number' decomp', jsonDecompressorReadExponent decomp number = some (number', decomp') ∧
      JsonDecompSafe P kinds decomp' := by
  unfold jsonDecompressorReadExponent
  split
  · obtain ⟨zeroes, decomp₁, hread, h₁⟩ := h.readUint hP .expoZero
    obtain ⟨value, decomp', hread', h'⟩ := h₁.readUint hP .expo
    exact ⟨_, decomp', by simp [hread, hread']; rfl, h'⟩
  · exact ⟨number, decomp, rfl, h⟩

theorem JsonDecompSafe.readNumber (hP : SafeDecoder P) (h : JsonDecompSafe P kinds decomp) :
    ∃ number decomp', jsonDecompressorReadNumber decomp = some (number, decomp') ∧ JsonDecompSafe P kinds decomp' := by
  obtain ⟨flags, decomp₁, hflags, h₁⟩ := h.readUint hP .flag
  obtain ⟨number₂, decomp₂, hinteger, h₂⟩ := h₁.readInteger hP { JsonNumberToken.zero with flags := flags.toUInt8 }
  obtain ⟨number₃, decomp₃, hfraction, h₃⟩ := h₂.readFraction hP number₂
  obtain ⟨number₄, decomp₄, hexponent, h₄⟩ := h₃.readExponent hP number₃
  exact ⟨number₄, decomp₄, by simp [jsonDecompressorReadNumber, hflags, hinteger, hfraction, hexponent], h₄⟩

theorem JsonDecompSafe.readPayload (hP : SafeDecoder P) (h : JsonDecompSafe P kinds decomp) (kind : JsonTokenKind) :
    ∃ token decomp', jsonDecompressorReadPayload decomp kind = some (token, decomp') ∧ token.kind = kind ∧
      JsonDecompSafe P kinds decomp' := by
  unfold jsonDecompressorReadPayload
  split
  · obtain ⟨s, decoder, hread, hlt, hd⟩ := hP decomp.decoder .whitespaces decomp.base.whitespaces h.strdecomp.decoder
      h.tables.whitespaces
    exact ⟨{ kind := .whitespace, payload := .character (jsonCompressionGetWhitespaceCharBySymbol s) },
      { decomp.withDecoder decoder with
        base := { decomp.base with whitespaces := ftableIncrement decomp.base.whitespaces s } },
      by simp [hread], rfl, ⟨h.strdecomp.tables, h.strdecomp.lookback, h.strdecomp.writer, hd⟩,
      ⟨h.tables.tokens, h.tables.whitespaces.increment hlt, h.tables.numbers⟩, h.machine⟩
  · obtain ⟨number, decomp', hread, h'⟩ := h.readNumber hP
    exact ⟨_, decomp', by simp [hread]; rfl, rfl, h'⟩
  · exact ⟨_, decomp, rfl, rfl, h⟩

/-! ## Calls -/

variable {P' : δ → Prop}

/-- A call in a string, up to the token it prints. -/
theorem JsonDecompSafe.decodeString (hfirst : SafeRead P P') (hP : SafeDecoder P') (h : JsonDecompSafe P kinds decomp)
    (hstring : jsonIsStringState decomp.base.currentState = true) :
    ∃ isMore token decomp', jsonDecompressorDecodeString decomp = some (isMore, token, decomp') ∧
      JsonDecompSafe P' (kinds ++ (token.toList.map JsonToken.kind)) decomp' ∧ ∀ t ∈ token, t.Printable := by
  obtain ⟨isMore, strdecomp, hread, hstrdecomp⟩ := h.strdecomp.read hfirst hP
  have h₁ : JsonDecompSafe P' kinds { decomp with strdecomp := strdecomp } := ⟨hstrdecomp, h.tables, h.machine⟩
  simp only [jsonDecompressorDecodeString, hread, Option.bind_eq_bind, Option.bind_some]
  cases isMore with
  | true => exact ⟨true, none, _, rfl, by simpa using h₁, by simp⟩
  | false =>
    obtain ⟨s, decoder, hkind, hlt, hd⟩ := h₁.readKind hP
    have h₂ := (h₁.withDecoder hd).count hlt
    simp only [hkind, Option.bind_some, Bool.false_eq_true, if_false]
    split
    · exact ⟨false, none, _, rfl, by simpa using h₂, by simp⟩
    · split
      · exact ⟨false, none, _, rfl, by simpa using ⟨h₂.strdecomp, h₂.tables, h₂.machine⟩, by simp⟩
      · next hdelimiter =>
        rw [not_not] at hdelimiter
        rcases h₂.updateJsm .stringDelimiter with ⟨decomp', hupdate, h', -⟩ | ⟨decomp', -, -, hrejected⟩
        · refine ⟨true, some { kind := .stringDelimiter }, decomp', ?_, h', ?_⟩
          · rw [hupdate, hdelimiter]
            rfl
          · rintro t ⟨⟩
            exact ⟨by decide, rfl⟩
        · exact absurd rfl (hrejected hstring)

/-- A call outside of strings. -/
theorem JsonDecompSafe.decodeNonstring (hfirst : SafeRead P P') (hP : SafeDecoder P') (h : JsonDecompSafe P kinds decomp)
    (hstring : ¬ jsonIsStringState decomp.base.currentState = true) :
    ∃ isMore token decomp', jsonDecompressorDecodeNonstring decomp = some (isMore, token, decomp') ∧
      JsonDecompSafe P' (kinds ++ (token.toList.map JsonToken.kind)) decomp' ∧ ∀ t ∈ token, t.Printable := by
  obtain ⟨s, decoder, hkind, hlt, hd⟩ := h.readKind hfirst
  have h₁ := h.withDecoder hd
  simp only [jsonDecompressorDecodeNonstring, hkind, Option.bind_eq_bind, Option.bind_some]
  split
  · exact ⟨false, none, _, rfl, by simpa using h₁, by simp⟩
  · rcases (h₁.count hlt).updateJsm (JsonTokenKind.ofSymbol s) with
      ⟨decomp₂, hupdate, h₂, hinvalid, hcharacter⟩ | ⟨decomp₂, hupdate, h₂, -⟩
    · obtain ⟨token, decomp', hpayload, htoken, h'⟩ := h₂.readPayload hP (JsonTokenKind.ofSymbol s)
      refine ⟨true, some token, decomp', by simp [hupdate, hpayload], ?_, ?_⟩
      · rw [← htoken] at h'
        exact h'
      · rintro t ⟨⟩
        rw [JsonToken.Printable, htoken]
        exact ⟨hinvalid, Bool.eq_false_iff.mpr fun hk => hstring (hcharacter hk)⟩
    · exact ⟨false, none, decomp₂, by simp [hupdate], by simpa using h₂, by simp⟩

/-- **One call**, which reads one symbol at least. -/
theorem JsonDecompSafe.call (hfirst : SafeRead P P') (hP : SafeDecoder P') (h : JsonDecompSafe P kinds decomp) :
    ∃ isMore token decomp₁ decomp', jsonDecompressorDecode decomp = some (isMore, token, decomp₁) ∧
      jsonDecompressorProcessNextToken decomp = some (isMore, decomp') ∧
      JsonDecompSafe P' (kinds ++ (token.toList.map JsonToken.kind)) decomp' ∧ ∀ t ∈ token, t.Printable := by
  have hdecode : ∃ isMore token decomp₁, jsonDecompressorDecode decomp = some (isMore, token, decomp₁) ∧
      JsonDecompSafe P' (kinds ++ (token.toList.map JsonToken.kind)) decomp₁ ∧ ∀ t ∈ token, t.Printable := by
    unfold jsonDecompressorDecode
    by_cases hstring : jsonIsStringState decomp.base.currentState = true
    · rw [if_pos hstring]
      exact h.decodeString hfirst hP hstring
    · rw [if_neg hstring]
      exact h.decodeNonstring hfirst hP hstring
  obtain ⟨isMore, token, decomp₁, hdecode, h₁, hprintable⟩ := hdecode
  have hprint : ∃ decomp', jsonDecompressorPrintAny decomp₁ token = some decomp' ∧
      JsonDecompSafe P' (kinds ++ (token.toList.map JsonToken.kind)) decomp' := by
    cases token with
    | none => exact ⟨decomp₁, rfl, h₁⟩
    | some token => exact h₁.print (hprintable token rfl).1
  obtain ⟨decomp', hprint, h'⟩ := hprint
  refine ⟨isMore, token, decomp₁, decomp', hdecode, ?_, h', hprintable⟩
  simp [jsonDecompressorProcessNextToken_eq, hdecode, hprint]

/-- **Any number of calls.** -/
theorem JsonDecompSafe.calls (hP : SafeDecoder P) (h : JsonDecompSafe P kinds decomp) (count : Nat) :
    ∃ tokens decomp', jsonDecompressorCalls count decomp = some (tokens, decomp') ∧
      JsonDecompSafe P (kinds ++ tokens.map JsonToken.kind) decomp' ∧ ∀ t ∈ tokens, t.Printable := by
  induction count generalizing kinds decomp with
  | zero => exact ⟨[], decomp, rfl, by simpa using h, by simp⟩
  | succ count ih =>
    obtain ⟨isMore, token, decomp₁, decomp₂, hdecode, hcall, h₂, hprintable⟩ := h.call hP hP
    obtain ⟨tokens, decomp', hcalls, h', hprintable'⟩ := ih h₂
    refine ⟨token.toList ++ tokens, decomp', by simp [jsonDecompressorCalls, hdecode, hcall, hcalls], ?_, fun t ht => ?_⟩
    · rw [List.map_append, ← List.append_assoc]
      exact h'
    · rcases List.mem_append.mp ht with ht | ht
      · exact hprintable t (Option.mem_toList.mp ht)
      · exact hprintable' t ht

end Safety

/-! ## Bounds -/

/-- `json_state` as a number. -/
def JsonState.toIndex : JsonState → Nat
  | .root => 0
  | .start => 1
  | .value => 2
  | .objectStart => 3
  | .objectContinue => 4
  | .objectKvSeparator => 5
  | .objectKeyStart => 6
  | .arrayStart => 7
  | .arrayContinue => 8
  | .string => 9
  | .objectKey => 10

def JSON_STATE_MAX : Nat := 10

/-- The symbol is in range for what it is used for: as an index into the
whitespace characters, as a count of parts each of which is shifted to its
place, or as the symbol of a table that is found by an index. -/
def TableRef.InRange : TableRef → Symbol → Prop
  | .token state, s => state.toIndex < JSON_STATE_MAX + 1 ∧ s ≤ JSON_TOKEN_MAX + 1
  | .whitespaces, s => s < JTOK_WHITESPACE_CHARS.length
  | .number _ .length, s | .string (.offset .length), s | .string (.length .length), s =>
    ∀ i < s, i * ACOD_UINT_BIT_GROUP_SIZE < 64
  | .string .main, s => s ≤ STRCOMP_BACKREFERENCE_SYMBOL + 1
  | _, s => s < 1 <<< ACOD_UINT_BIT_GROUP_SIZE

theorem TableRef.inRange_of_lt {ref : TableRef} {s : Symbol} (h : s < ref.limit) : ref.InRange s := by
  have hshift : ∀ {limit s : Nat}, limit ≤ 17 → s < limit → ∀ i < s, i * ACOD_UINT_BIT_GROUP_SIZE < 64 := by
    intro limit s hlimit hlt i hi
    have hbelow : i < 16 := by omega
    rw [ACOD_UINT_BIT_GROUP_SIZE]
    omega
  match ref with
  | .token state => exact ⟨by cases state <;> decide, Nat.le_of_lt_succ h⟩
  | .whitespaces => exact h
  | .number part .length => exact hshift (by cases part <;> decide) h
  | .string .main => exact Nat.le_of_lt_succ h
  | .string (.offset .length) | .string (.length .length) => exact hshift (by decide) h
  | .number _ .parts | .number _ .lastPart | .string (.offset .parts) | .string (.offset .lastPart)
  | .string (.length .parts) | .string (.length .lastPart) => exact h

/-- **Any compressed bits are safe to decompress**, for any number of calls:
each ends, a fresh state machine accepts the kinds that were printed, every
symbol is in range for its use, and so is every position of the ring buffer
that a backreference can name. -/
theorem json_decompressor_safe (context : Context) (staleBytes : List Byte) (hsize : 0 < staleBytes.length)
    (reader : Reader) (hreader : ReaderOK reader) (count : Nat) :
    ∃ tokens decomp jsm, jsonDecompressorCalls count (jsonDecompressorInit context
          (strdecompInit (writerInit staleBytes) (RecordingDecoder.init reader))) = some (tokens, decomp) ∧
      jsmProcessTokens jsmInit (tokens.map JsonToken.kind) = some (List.replicate tokens.length true, jsm) ∧
      (∀ token ∈ tokens, token.kind ≠ .invalid ∧ isStringCharacterKind token.kind = false) ∧
      (∀ read ∈ decomp.decoder.reads, read.2 < read.1.limit ∧ read.1.InRange read.2) ∧
      ∀ bytes : List Byte,
        let rb := bytes.foldl ringBufferPush decomp.strdecomp.lookbackBuffer
        ringBufferGetIndex rb < 2 ^ BSM_LENGTH_SHIFT ∧
          ∀ index, ringBufferPosition rb index < 2 ^ BSM_LENGTH_SHIFT ∧
            ringBufferGet rb index = rb.content (ringBufferPosition rb index) := by
  obtain ⟨tokens, decomp, hcalls, hsafe, hprintable⟩ := JsonDecompSafe.calls (recordingDecoder_safe reader.unread)
    (.init context (.init hsize) (.init hreader)) count
  obtain ⟨fresh, -, -, -, haccepts, -⟩ := hsafe.machine
  rw [List.nil_append, List.length_map] at haccepts
  exact ⟨tokens, decomp, _, hcalls, haccepts, hprintable,
    fun read hmem => ⟨hsafe.strdecomp.decoder.reads read hmem, TableRef.inRange_of_lt (hsafe.strdecomp.decoder.reads read hmem)⟩,
    hsafe.strdecomp.positions⟩

/-- The bytes of `[ 12,"`, a backreference to six bytes that are not there, the
end of the string, and an invalid token. -/
def brokenInput : List Byte := [0x2c, 0xca, 0xc2, 0xa1, 0x42, 0xaa, 0xdc, 0x46, 0x33]

theorem json_decompressor_safe_broken :
    ∃ reader, readerPushBuffer (readerInit contextInit) (bufferMake brokenInput) = some reader ∧
      ∃ tokens decomp jsm, jsonDecompressorCalls 8 (jsonDecompressorInit contextInit
            (strdecompInit (writerInit [0]) (RecordingDecoder.init reader))) = some (tokens, decomp) ∧
        tokens.map JsonToken.kind =
          [.arrayOpen, .whitespace, .number, .valueSeparator, .stringDelimiter, .stringDelimiter] ∧
        (TableRef.string .main, STRCOMP_BACKREFERENCE_SYMBOL) ∈ decomp.decoder.reads ∧
        jsmProcessTokens jsmInit (tokens.map JsonToken.kind) = some (List.replicate tokens.length true, jsm) ∧
        (∀ token ∈ tokens, token.kind ≠ .invalid ∧ isStringCharacterKind token.kind = false) ∧
        (∀ read ∈ decomp.decoder.reads, read.2 < read.1.limit ∧ read.1.InRange read.2) ∧
        ∀ bytes : List Byte,
          let rb := bytes.foldl ringBufferPush decomp.strdecomp.lookbackBuffer
          ringBufferGetIndex rb < 2 ^ BSM_LENGTH_SHIFT ∧
            ∀ index, ringBufferPosition rb index < 2 ^ BSM_LENGTH_SHIFT ∧
              ringBufferGet rb index = rb.content (ringBufferPosition rb index) := by
  obtain ⟨reader, hpush, hat, -⟩ :=
    (Reader.AtByte.init contextInit).push (show 0 < (bufferMake brokenInput).length by decide)
  obtain ⟨tokens, decomp, jsm, hcalls, hsafe⟩ := json_decompressor_safe contextInit [0] (by decide) reader hat.ok 8
  have hrun : (do
      let reader ← readerPushBuffer (readerInit contextInit) (bufferMake brokenInput)
      let (tokens, decomp) ← jsonDecompressorCalls 8 (jsonDecompressorInit contextInit
        (strdecompInit (writerInit [0]) (RecordingDecoder.init reader)))
      return (tokens.map JsonToken.kind,
        decide ((TableRef.string .main, STRCOMP_BACKREFERENCE_SYMBOL) ∈ decomp.decoder.reads))) =
      some ([.arrayOpen, .whitespace, .number, .valueSeparator, .stringDelimiter, .stringDelimiter], true) := by
    decide +kernel
  rw [hpush] at hrun
  simp only [Option.bind_eq_bind, Option.bind_some, hcalls, Option.pure_def, Option.some_inj, Prod.mk.injEq,
    decide_eq_true_eq] at hrun
  exact ⟨reader, hpush, tokens, decomp, jsm, hcalls, hrun.1, hrun.2, hsafe⟩

end Scomp
