/-
The tokenizer against the grammar of documents, from bytes.

A document is a JSON text whose tokens are spelled by lexemes. What the stack
still demands of the bytes to come is a language again, and one lexing step
takes one lexeme off its words.
-/
import Scomp.Json.Lexemes
import Scomp.Json.DocumentRun

namespace Scomp

/-! ## Nesting -/

def isOpenKind (kind : JsonTokenKind) : Bool := kind = .objectOpen || kind = .arrayOpen

def isCloseKind (kind : JsonTokenKind) : Bool := kind = .objectClose || kind = .arrayClose

/-- The containers open after a token. -/
def nestingAfter (depth : Nat) (kind : JsonTokenKind) : Nat :=
  if isOpenKind kind then depth + 1 else if isCloseKind kind then depth - 1 else depth

/-- The tokens for which the stack needs nothing above the innermost
container. -/
def isFlatKind (kind : JsonTokenKind) : Bool :=
  kind = .whitespace || kind = .number || kind = .true || kind = .false || kind = .null || isCloseKind kind

/-- With all the containers open that the stack can hold, ROOT below them,
nothing but flat tokens follows. -/
def NestingFits : Nat → List JsonTokenKind → Prop
  | _, [] => True
  | depth, kind :: kinds =>
    (depth + 1 = JSON_MAX_STATE_STACK_LENGTH → isFlatKind kind = true) ∧ NestingFits (nestingAfter depth kind) kinds

/-- The containers open on a stack. -/
def stackNesting (stack : List JsonState) : Nat := stack.countP isContainerState

theorem stackNesting_cons (state : JsonState) (rest : List JsonState) :
    stackNesting (state :: rest) = stackNesting rest + if isContainerState state then 1 else 0 := List.countP_cons ..

theorem stackNesting_afterValue (stack : List JsonState) : stackNesting (afterValue stack) = stackNesting stack := by
  match stack with
  | [] => rfl
  | state :: rest => cases state <;> rfl

theorem ContextOK.length_eq {stack : List JsonState} (h : ContextOK stack) : stack.length = stackNesting stack + 1 := by
  induction stack with
  | nil => exact h.elim
  | cons state rest ih =>
    rcases h.cases with he | ⟨state', rest', he, hcontainer, hrest⟩
    · rw [he]
      rfl
    · obtain ⟨rfl, rfl⟩ := List.cons.inj he
      rw [stackNesting_cons, if_pos hcontainer, List.length_cons, ih hrest]

/-- An accepted token opens and closes containers as its kind says. -/
theorem jsmStep_nesting {stack stack' : List JsonState} {kind : JsonTokenKind} (hs : jsmStep stack kind = some stack') :
    stackNesting stack' = nestingAfter (stackNesting stack) kind := by
  have hvalue : ∀ {rest stack'}, startValue rest kind = some stack' →
      stackNesting stack' = nestingAfter (stackNesting rest) kind := by
    intro rest stack' hs
    cases kind <;> simp only [startValue, Option.some.injEq, reduceCtorEq] at hs <;> subst hs <;>
      simp [stackNesting_cons, stackNesting_afterValue, nestingAfter, isOpenKind, isCloseKind, isContainerState]
  cases stack with
  | nil => cases hs
  | cons state rest =>
    cases state with
    | start =>
      simp only [jsmStep] at hs
      split at hs
      · next hbom =>
        cases hs
        rw [hbom]
        rfl
      · exact @hvalue rest _ hs
    | value => exact @hvalue rest _ hs
    | string | objectKey =>
      cases kind <;> simp [jsmStep, isStringCharacterKind] at hs <;> subst hs <;>
        simp [stackNesting_cons, stackNesting_afterValue, nestingAfter, isOpenKind, isCloseKind, isContainerState]
    | arrayStart | arrayContinue | objectStart | objectContinue | objectKeyStart | objectKvSeparator =>
      cases kind <;> simp only [jsmStep, startValue, Option.some.injEq, reduceCtorEq] at hs <;> subst hs <;>
        simp [stackNesting_cons, stackNesting_afterValue, nestingAfter, isOpenKind, isCloseKind, isContainerState]
    | root =>
      cases rest <;> cases kind <;> simp only [jsmStep, Option.some.injEq, reduceCtorEq] at hs
      subst hs
      rfl

/-- A stack is a context, or one state that is no container above a
context. -/
theorem StackOK.cases {stack : List JsonState} (h : StackOK stack) :
    ContextOK stack ∨ ∃ state rest, stack = state :: rest ∧ isContainerState state = false ∧ ContextOK rest := by
  match stack, h with
  | [], h => exact .inl h
  | .start :: rest, h => exact .inr ⟨_, _, rfl, rfl, by rw [show rest = [.root] from h]; rfl⟩
  | .value :: rest, h | .string :: rest, h => exact .inr ⟨_, _, rfl, rfl, h⟩
  | .objectKeyStart :: rest, h | .objectKey :: rest, h | .objectKvSeparator :: rest, h =>
    exact .inr ⟨_, _, rfl, rfl, h.1⟩
  | .arrayStart :: rest, h | .arrayContinue :: rest, h | .objectStart :: rest, h | .objectContinue :: rest, h
  | .root :: rest, h => exact .inl h

theorem jsmPushesAbove_container {state : JsonState} {rest stack' : List JsonState} {kind : JsonTokenKind}
    (hcontainer : isContainerState state = true) (hs : jsmStep (state :: rest) kind = some stack') :
    jsmPushesAbove state kind = !isFlatKind kind := by
  cases state with
  | arrayStart | arrayContinue | objectStart | objectContinue => cases kind <;> first | rfl | cases hs
  | _ => cases hcontainer

theorem jsmPushesAbove_other {state : JsonState} (kind : JsonTokenKind) (hother : isContainerState state = false) :
    jsmPushesAbove state kind = false := by
  cases state with
  | arrayStart | arrayContinue | objectStart | objectContinue => cases hother
  | _ => rfl

/-- A full stack refuses the tokens that are not flat. -/
theorem jsmPushRefused_iff {stack stack' : List JsonState} {kind : JsonTokenKind} {capacity : Nat} (h : StackOK stack)
    (hfits : stack.length ≤ capacity) (hs : jsmStep stack kind = some stack') :
    jsmPushRefused (jsmOf stack capacity) kind = false ↔ (stackNesting stack + 1 = capacity → isFlatKind kind = true) := by
  rcases h.cases with hcontext | ⟨state, rest, rfl, hother, hcontext⟩
  · have hlength := hcontext.length_eq
    rcases hcontext.cases with rfl | ⟨state, rest, rfl, hcontainer, -⟩
    · obtain rfl : kind = .whitespace := by
        cases kind <;> first | rfl | cases hs
      exact iff_of_true rfl fun _ => rfl
    · show (jsmPushesAbove state kind && decide ((state :: rest).length = capacity)) = false ↔ _
      rw [jsmPushesAbove_container hcontainer hs, hlength]
      by_cases hfull : stackNesting (state :: rest) + 1 = capacity <;> simp [hfull]
  · have hlength := hcontext.length_eq
    have hnesting : stackNesting (state :: rest) = stackNesting rest := by simp [stackNesting_cons, hother]
    rw [List.length_cons] at hfits
    refine iff_of_true ?_ fun hfull => ?_
    · show (jsmPushesAbove state kind && _) = false
      rw [jsmPushesAbove_other kind hother]
      rfl
    · omega

/-! ## One accepted token -/

/-- What the machine accepts, and what it leaves. -/
theorem StackSafe.accepts_iff {stack : List JsonState} (h : StackSafe stack JSON_MAX_STATE_STACK_LENGTH)
    (kind : JsonTokenKind) (jsm' : JsonStateMachine) :
    jsmProcessToken (jsmOf stack JSON_MAX_STATE_STACK_LENGTH) kind = some (true, jsm') ↔
      ∃ stack', jsmStep stack kind = some stack' ∧
        (stackNesting stack + 1 = JSON_MAX_STATE_STACK_LENGTH → isFlatKind kind = true) ∧
        StackSafe stack' JSON_MAX_STATE_STACK_LENGTH ∧ jsm' = jsmOf stack' JSON_MAX_STATE_STACK_LENGTH := by
  cases hr : jsmPushRefused (jsmOf stack JSON_MAX_STATE_STACK_LENGTH) kind with
  | true =>
    rw [jsmProcessToken_refused h hr]
    constructor
    · intro he
      cases he
    · rintro ⟨stack', hs, hflat, -⟩
      rw [(jsmPushRefused_iff h.ok h.fits hs).mpr hflat] at hr
      cases hr
  | false =>
    rw [jsmProcessToken_eq h.ok h.fits hr, jsmStepResult]
    cases hs : jsmStep stack kind with
    | none => simp
    | some stack' =>
      have hsafe : StackSafe stack' JSON_MAX_STATE_STACK_LENGTH :=
        ⟨jsmStep_stackOK h.ok hs, jsmStep_length_le h.fits hr hs, jsmStep_room h.room h.fits hs⟩
      have hflat := (jsmPushRefused_iff h.ok h.fits hs).mp hr
      constructor
      · intro he
        cases he
        exact ⟨stack', rfl, hflat, hsafe, rfl⟩
      · rintro ⟨stack'', hs'', -, -, rfl⟩
        cases hs''
        rfl

/-! ## Documents -/

/-- A JSON text, its tokens spelled by lexemes, that nests no deeper than the
stack is high. -/
def IsJsonDocument (bytes : List Byte) : Prop :=
  ∃ kinds texts, IsJsonText kinds ∧ NestingFits 0 kinds ∧ List.Forall₂ Lexeme kinds texts ∧ bytes = texts.flatten

/-- The bytes that take the machine from a stack to ROOT. -/
def Spells (stack : List JsonState) (bytes : List Byte) : Prop :=
  ∃ kinds texts, jsmSteps stack kinds = some [.root] ∧ NestingFits (stackNesting stack) kinds ∧
    List.Forall₂ Lexeme kinds texts ∧ bytes = texts.flatten

theorem spells_start_iff (bytes : List Byte) : Spells [.start, .root] bytes ↔ IsJsonDocument bytes := by
  have htext : ∀ kinds, IsJsonText kinds ↔ jsmSteps [.start, .root] kinds = some [.root] := fun kinds =>
    completes_start_iff.symm.trans (completes_iff_steps rfl)
  simp only [Spells, IsJsonDocument, htext]
  rfl

theorem Lexeme.ne_nil {kind : JsonTokenKind} {text : List Byte} (h : Lexeme kind text) : text ≠ [] := by
  cases h with
  | @number text hbefore =>
    obtain ⟨b, tail, hinteger, -⟩ := hbefore.integer.toDigitRun.head
    simp [NumberText.bytes, hinteger]
  | unicodeCharacter hcharacter => cases hcharacter <;> simp
  | _ => simp

/-- What may follow a number in a text does not continue it. -/
theorem Lexeme.endsNumber {kind : JsonTokenKind} {text : List Byte} (h : Lexeme kind text)
    (hkind : kind = .whitespace ∨ kind = .valueSeparator ∨ kind = .arrayClose ∨ kind = .objectClose) (rest : List Byte) :
    EndsNumber (text ++ rest) := by
  rcases hkind with rfl | rfl | rfl | rfl <;> cases h
  case inl.whitespace b hb => rcases hb with rfl | rfl | rfl | rfl <;> simp [EndsNumber, isDigit]
  all_goals simp [EndsNumber, isDigit]

theorem lexStep_lexeme {stack stack' : List JsonState} {kind : JsonTokenKind} {text rest : List Byte}
    (h : StackSafe stack JSON_MAX_STATE_STACK_LENGTH) (hs : jsmStep stack kind = some stack')
    (hflat : stackNesting stack + 1 = JSON_MAX_STATE_STACK_LENGTH → isFlatKind kind = true) (hlexeme : Lexeme kind text)
    (hends : kind = .number → EndsNumber rest) :
    ∃ token, token.kind = kind ∧ StackSafe stack' JSON_MAX_STATE_STACK_LENGTH ∧
      lexStep (jsmOf stack JSON_MAX_STATE_STACK_LENGTH) (text ++ rest) =
        some (token, text.length, jsmOf stack' JSON_MAX_STATE_STACK_LENGTH) := by
  obtain ⟨state, below, rfl⟩ : ∃ state below, stack = state :: below := by
    cases stack with
    | nil => cases hs
    | cons state below => exact ⟨state, below, rfl⟩
  have hstate : jsmGetCurrentState (jsmOf (state :: below) JSON_MAX_STATE_STACK_LENGTH) = some state := rfl
  obtain ⟨token, rfl, hscan⟩ := scanToken_scans hlexeme (jsmStep_character hs) hends
  have hsafe : StackSafe stack' JSON_MAX_STATE_STACK_LENGTH :=
    have hr := (jsmPushRefused_iff h.ok h.fits hs).mpr hflat
    ⟨jsmStep_stackOK h.ok hs, jsmStep_length_le h.fits hr hs, jsmStep_room h.room h.fits hs⟩
  have hp := (h.accepts_iff token.kind _).mpr ⟨stack', hs, hflat, hsafe, rfl⟩
  refine ⟨token, rfl, hsafe, ?_⟩
  simp [lexStep, hstate, hscan, hp]

theorem spells_nil (stack : List JsonState) : Spells stack [] ↔ stack = [.root] := by
  constructor
  · rintro ⟨kinds, texts, hsteps, -, hlexemes, hbytes⟩
    cases hlexemes with
    | nil =>
      cases hsteps
      rfl
    | cons hlexeme _ =>
      rw [List.flatten_cons] at hbytes
      exact absurd (List.append_eq_nil_iff.mp hbytes.symm).1 hlexeme.ne_nil
  · rintro rfl
    exact ⟨[], [], rfl, trivial, .nil, rfl⟩

/-- **One lexing step takes one lexeme off what the stack demands.** -/
theorem spells_step {stack : List JsonState} {bytes : List Byte} (h : StackSafe stack JSON_MAX_STATE_STACK_LENGTH)
    (hne : bytes ≠ []) :
    Spells stack bytes ↔ ∃ token n stack', lexStep (jsmOf stack JSON_MAX_STATE_STACK_LENGTH) bytes =
        some (token, n, jsmOf stack' JSON_MAX_STATE_STACK_LENGTH) ∧ StackSafe stack' JSON_MAX_STATE_STACK_LENGTH ∧
      Spells stack' (bytes.drop n) := by
  constructor
  · rintro ⟨kinds, texts, hsteps, hnesting, hlexemes, rfl⟩
    cases hlexemes with
    | nil => exact absurd rfl hne
    | @cons kind text kinds texts hlexeme hlexemes =>
      obtain ⟨stack', hs, hrest⟩ := Option.bind_eq_some_iff.mp hsteps
      obtain ⟨hflat, hnesting⟩ := hnesting
      -- what the machine accepts after a number does not continue it
      have hends : kind = .number → EndsNumber texts.flatten := by
        rintro rfl
        cases hlexemes with
        | nil => simp [EndsNumber]
        | @cons kind₁ text₁ kinds texts hnext _ =>
          obtain ⟨stack₁, hs₁, -⟩ := Option.bind_eq_some_iff.mp hrest
          exact hnext.endsNumber (jsmStep_afterNumber h.ok hs hs₁) _
      obtain ⟨token, -, hsafe, hstep⟩ := lexStep_lexeme h hs hflat hlexeme hends
      refine ⟨token, text.length, stack', hstep, hsafe, kinds, texts, hrest, ?_, hlexemes, ?_⟩
      · rw [jsmStep_nesting hs]
        exact hnesting
      · rw [List.flatten_cons, List.drop_left]
  · rintro ⟨token, n, stack', hstep, -, kinds, texts, hsteps, hnesting, hlexemes, hrest⟩
    obtain ⟨state, -, hscan, hp⟩ := lexStep_eq_some hstep
    obtain ⟨stack'', hs, hflat, -, he⟩ := (h.accepts_iff token.kind _).mp hp
    obtain rfl : stack' = stack'' := congrArg (fun jsm => jsm.stateStack.values) he
    refine ⟨token.kind :: kinds, bytes.take n :: texts, ?_, ⟨hflat, ?_⟩, .cons (scanToken_lexeme hscan) hlexemes, ?_⟩
    · rw [jsmSteps, hs]
      exact hsteps
    · rw [← jsmStep_nesting hs]
      exact hnesting
    · rw [List.flatten_cons, ← hrest, List.take_append_drop]

/-! ## The loop -/

/-- Parses while bytes are available and no token is invalid; then all is
well if the tokenizer is done. `none` also when the turns run out. -/
def jsonTokenizerAccepts : Nat → JsonTokenizer → Option Bool
  | 0, _ => none
  | fuel + 1, t => do
    if (← readerGetBytesAvailable t.reader) > 0 then
      let (token, t) ← jsonTokenizerParseNext t
      if token.kind = .invalid then return false
      else jsonTokenizerAccepts fuel t
    else jsonTokenizerIsDone t

theorem jsonTokenizerAccepts_iff {fuel : Nat} {stack : List JsonState} {r : Reader}
    (h : StackSafe stack JSON_MAX_STATE_STACK_LENGTH) (hat : r.AtByte) (hfuel : r.unreadBytes.length < fuel) :
    ∃ isAccepted, jsonTokenizerAccepts fuel ⟨jsmOf stack JSON_MAX_STATE_STACK_LENGTH, r⟩ = some isAccepted ∧
      (isAccepted = true ↔ Spells stack r.unreadBytes) := by
  induction fuel generalizing stack r with
  | zero => omega
  | succ fuel ih =>
    have hjsm : JsmOK (jsmOf stack JSON_MAX_STATE_STACK_LENGTH) := ⟨stack, rfl, h⟩
    by_cases hne : r.unreadBytes = []
    · obtain ⟨state, hstate⟩ := hjsm.currentState
      refine ⟨decide (state = .root), ?_, ?_⟩
      · simp [jsonTokenizerAccepts, hat.bytesAvailable, hne, jsonTokenizerIsDone, jsonTokenizerGetCurrentState, hstate]
      · rw [hne, spells_nil, ← currentState_root_iff h.ok, hstate, decide_eq_true_eq, Option.some.injEq]
    · have hpos := List.length_pos_iff.mpr hne
      have havailable : (r.unreadBytes.length : Int) > 0 := by omega
      have hlexes := @jsonTokenizerParseNext_lexes ⟨jsmOf stack JSON_MAX_STATE_STACK_LENGTH, r⟩ hjsm hat hne
      rw [spells_step h hne]
      simp only [jsonTokenizerAccepts, hat.bytesAvailable, Option.bind_eq_bind, Option.bind_some, if_pos havailable]
      dsimp only at hlexes
      cases hstep : lexStep (jsmOf stack JSON_MAX_STATE_STACK_LENGTH) r.unreadBytes with
      | none =>
        rw [hstep] at hlexes
        obtain ⟨t', hparse, -⟩ := hlexes
        exact ⟨false, by simp [hparse, INVALID_JSON_TOKEN], by simp⟩
      | some step =>
        obtain ⟨token, n, jsm'⟩ := step
        rw [hstep] at hlexes
        obtain ⟨-, r', hparse, hahead⟩ := hlexes
        have hreprints := (lexStep_valid hstep).1
        obtain ⟨state, -, -, hp⟩ := lexStep_eq_some hstep
        obtain ⟨stack', -, -, hsafe', rfl⟩ := (h.accepts_iff token.kind _).mp hp
        obtain ⟨isAccepted, haccepts, hiff⟩ := @ih stack' r' hsafe' hahead.atByte (by
          rw [hahead.unread, List.length_drop]
          have := hreprints.pos
          omega)
        rw [hahead.unread] at hiff
        refine ⟨isAccepted, ?_, hiff.trans ?_⟩
        · simp only [hparse, Option.bind_some, if_neg hreprints.valid, haccepts]
        · constructor
          · exact fun hspells => ⟨token, n, stack', rfl, hsafe', hspells⟩
          · rintro ⟨_, _, stack'', he, -, hspells⟩
            cases he
            exact hspells

/-- **The tokenizer accepts the documents**, however their bytes lie in the
reader's buffers, and nothing else. -/
theorem json_tokenizer_accepts_documents {r : Reader} (h : r.AtByte) :
    ∃ isAccepted, jsonTokenizerAccepts (r.unreadBytes.length + 1) (jsonTokenizerInit r) = some isAccepted ∧
      (isAccepted = true ↔ IsJsonDocument r.unreadBytes) := by
  have hsafe : StackSafe [.start, .root] JSON_MAX_STATE_STACK_LENGTH := ⟨rfl, by decide, by simp [RoomOK]⟩
  obtain ⟨isAccepted, haccepts, hiff⟩ := jsonTokenizerAccepts_iff hsafe h (Nat.lt_succ_self _)
  exact ⟨isAccepted, haccepts, hiff.trans (spells_start_iff _)⟩

/-- `[1]` -/
theorem json_tokenizer_accepts_documents_array :
    ∃ r : Reader, r.unreadBytes = [0x5b, 0x31, 0x5d] ∧ jsonTokenizerAccepts 4 (jsonTokenizerInit r) = some true ∧
      IsJsonDocument [0x5b, 0x31, 0x5d] := by
  obtain ⟨r, hpush, hat, hunread, -⟩ := @Reader.AtByte.push _ (bufferMake [0x5b, 0x31, 0x5d]) (.init contextInit) (by decide)
  rw [readerInit_unreadBytes, bufferMake_bytes, List.nil_append] at hunread
  obtain ⟨isAccepted, haccepts, hiff⟩ := json_tokenizer_accepts_documents hat
  rw [hunread] at haccepts hiff
  have htrue : jsonTokenizerAccepts 4 (jsonTokenizerInit r) = some true := by
    cases hpush
    rfl
  exact ⟨r, hunread, htrue, hiff.mp (Option.some.inj (haccepts.symm.trans htrue))⟩

end Scomp
