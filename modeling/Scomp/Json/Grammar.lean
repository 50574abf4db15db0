/-
The JSON grammar over tokens, and the state machine against it.

What a stack still demands of the tokens to come is a language, `Completes`:
a value, a rest of a string, a rest of an array, down to the whitespace after
the text. One token of the machine is one letter of that language
(`completes_step`), so a run ends in ROOT exactly on the words of the
language it started from, which for START above ROOT is the grammar.
-/
import Scomp.Json.StateMachine

namespace Scomp

/-! ## The grammar -/

/-- Whitespace tokens, any number of them. -/
def IsWs (kinds : List JsonTokenKind) : Prop := ∀ kind ∈ kinds, kind = .whitespace

/-- What stands between two string delimiters. -/
def IsStringBody (kinds : List JsonTokenKind) : Prop := ∀ kind ∈ kinds, isStringCharacterKind kind = true

mutual

inductive IsValue : List JsonTokenKind → Prop
  | number : IsValue [.number]
  | true : IsValue [.true]
  | false : IsValue [.false]
  | null : IsValue [.null]
  | string : IsStringBody body → IsValue (.stringDelimiter :: (body ++ [.stringDelimiter]))
  | emptyArray : IsWs ws → IsValue (.arrayOpen :: (ws ++ [.arrayClose]))
  | array : IsElements elements → IsValue (.arrayOpen :: (elements ++ [.arrayClose]))
  | emptyObject : IsWs ws → IsValue (.objectOpen :: (ws ++ [.objectClose]))
  | object : IsMembers members → IsValue (.objectOpen :: (members ++ [.objectClose]))

/-- Comma-separated values, with whitespace around each. -/
inductive IsElements : List JsonTokenKind → Prop
  | last : IsWs ws → IsValue value → IsWs ws' → IsElements (ws ++ (value ++ ws'))
  | more : IsWs ws → IsValue value → IsWs ws' → IsElements elements →
      IsElements (ws ++ (value ++ (ws' ++ .valueSeparator :: elements)))

/-- Comma-separated members, with whitespace around each. -/
inductive IsMembers : List JsonTokenKind → Prop
  | last : IsWs ws → IsMember member → IsWs ws' → IsMembers (ws ++ (member ++ ws'))
  | more : IsWs ws → IsMember member → IsWs ws' → IsMembers members →
      IsMembers (ws ++ (member ++ (ws' ++ .valueSeparator :: members)))

/-- A key, a colon and a value. -/
inductive IsMember : List JsonTokenKind → Prop
  | mk : IsStringBody key → IsWs ws → IsWs ws' → IsValue value →
      IsMember (.stringDelimiter ::
        (key ++ .stringDelimiter :: (ws ++ .kvSeparator :: (ws' ++ value))))

end

/-- `[BOM] ws* value ws*` -/
def IsJsonText (kinds : List JsonTokenKind) : Prop :=
  ∃ bom ws value ws', (bom = [] ∨ bom = [.bom]) ∧ IsWs ws ∧ IsValue value ∧ IsWs ws' ∧
    kinds = bom ++ (ws ++ (value ++ ws'))

/-! ## Languages by their first token -/

/-- Whitespace, then a word of `P`. -/
def WsThen (P : List JsonTokenKind → Prop) (kinds : List JsonTokenKind) : Prop :=
  ∃ ws rest, IsWs ws ∧ P rest ∧ kinds = ws ++ rest

/-- The rest of a string, then a word of `P`. -/
def BodyThen (P : List JsonTokenKind → Prop) (kinds : List JsonTokenKind) : Prop :=
  ∃ body rest, IsStringBody body ∧ P rest ∧ kinds = body ++ .stringDelimiter :: rest

/-- The token `kind`, then a word of `P`. -/
def TokenThen (kind : JsonTokenKind) (P : List JsonTokenKind → Prop) (kinds : List JsonTokenKind) : Prop :=
  ∃ rest, P rest ∧ kinds = kind :: rest

section
variable {P : List JsonTokenKind → Prop} {kind : JsonTokenKind} {kinds : List JsonTokenKind}

@[simp] theorem wsThen_nil : WsThen P [] ↔ P [] := by
  constructor
  · rintro ⟨ws, rest, -, hP, he⟩
    rw [List.nil_eq_append_iff.mp he |>.2] at hP
    exact hP
  · exact fun h => ⟨[], [], by simp [IsWs], h, rfl⟩

@[simp] theorem wsThen_cons :
    WsThen P (kind :: kinds) ↔ (kind = .whitespace ∧ WsThen P kinds) ∨ P (kind :: kinds) := by
  constructor
  · rintro ⟨ws, rest, hws, hP, he⟩
    match ws, he with
    | [], he => exact .inr (by rw [he]; exact hP)
    | k :: ws, he =>
      obtain ⟨rfl, rfl⟩ := List.cons.inj he
      exact .inl ⟨hws _ (by simp), ws, rest, fun k hk => hws k (by simp [hk]), hP, rfl⟩
  · rintro (⟨rfl, ws, rest, hws, hP, rfl⟩ | hP)
    · exact ⟨.whitespace :: ws, rest, by simpa [IsWs] using hws, hP, rfl⟩
    · exact ⟨[], _, by simp [IsWs], hP, rfl⟩

@[simp] theorem bodyThen_nil : ¬ BodyThen P [] := by
  rintro ⟨body, rest, -, -, he⟩
  simp at he

@[simp] theorem bodyThen_cons :
    BodyThen P (kind :: kinds) ↔
      (kind = .stringDelimiter ∧ P kinds) ∨ (isStringCharacterKind kind = true ∧ BodyThen P kinds) := by
  constructor
  · rintro ⟨body, rest, hb, hP, he⟩
    match body, he with
    | [], he => obtain ⟨rfl, rfl⟩ := List.cons.inj he; exact .inl ⟨rfl, hP⟩
    | k :: body, he =>
      obtain ⟨rfl, rfl⟩ := List.cons.inj he
      exact .inr ⟨hb _ (by simp), body, rest, fun k hk => hb k (by simp [hk]), hP, rfl⟩
  · rintro (⟨rfl, hP⟩ | ⟨hk, body, rest, hb, hP, rfl⟩)
    · exact ⟨[], _, by simp [IsStringBody], hP, rfl⟩
    · exact ⟨kind :: body, rest, by simpa [IsStringBody] using ⟨hk, hb⟩, hP, rfl⟩

@[simp] theorem tokenThen_nil {k : JsonTokenKind} : ¬ TokenThen k P [] := by
  rintro ⟨rest, -, he⟩; cases he

@[simp] theorem tokenThen_cons {k : JsonTokenKind} :
    TokenThen k P (kind :: kinds) ↔ kind = k ∧ P kinds := by
  constructor
  · rintro ⟨rest, hP, he⟩
    obtain ⟨rfl, rfl⟩ := List.cons.inj he
    exact ⟨rfl, hP⟩
  · rintro ⟨rfl, hP⟩; exact ⟨kinds, hP, rfl⟩

end

/-! ## What a stack still demands -/

/-- What may follow a value that ended directly above the context. -/
inductive Closes : List JsonState → List JsonTokenKind → Prop
  | root : IsWs ws → Closes [.root] ws
  | array : state = .arrayStart ∨ state = .arrayContinue → IsWs ws → Closes rest kinds →
      Closes (state :: rest) (ws ++ .arrayClose :: kinds)
  | arrayMore : state = .arrayStart ∨ state = .arrayContinue → IsWs ws → IsElements elements →
      Closes rest kinds → Closes (state :: rest) (ws ++ .valueSeparator :: (elements ++ .arrayClose :: kinds))
  | object : state = .objectStart ∨ state = .objectContinue → IsWs ws → Closes rest kinds →
      Closes (state :: rest) (ws ++ .objectClose :: kinds)
  | objectMore : state = .objectStart ∨ state = .objectContinue → IsWs ws → IsMembers members →
      Closes rest kinds → Closes (state :: rest) (ws ++ .valueSeparator :: (members ++ .objectClose :: kinds))

/-- A value and what may follow it. -/
def ValueThen (context : List JsonState) (kinds : List JsonTokenKind) : Prop :=
  ∃ value rest, IsValue value ∧ Closes context rest ∧ kinds = value ++ rest

/-- A member from after its key, from within its key, and as a whole. -/
def ColonThen (context : List JsonState) : List JsonTokenKind → Prop :=
  WsThen (TokenThen .kvSeparator (WsThen (ValueThen context)))

def KeyThen (context : List JsonState) : List JsonTokenKind → Prop := BodyThen (ColonThen context)

def MemberThen (context : List JsonState) : List JsonTokenKind → Prop :=
  TokenThen .stringDelimiter (KeyThen context)

/-- The words that take the machine from a stack to ROOT. -/
def Completes : List JsonState → List JsonTokenKind → Prop
  | .start :: rest, kinds => TokenThen .bom (WsThen (ValueThen rest)) kinds ∨ WsThen (ValueThen rest) kinds
  | .value :: rest, kinds => WsThen (ValueThen rest) kinds
  | .string :: rest, kinds => BodyThen (Closes rest) kinds
  | .objectKey :: rest, kinds => KeyThen rest kinds
  | .objectKvSeparator :: rest, kinds => ColonThen rest kinds
  | .objectKeyStart :: rest, kinds => WsThen (MemberThen rest) kinds
  | .arrayStart :: rest, kinds =>
    WsThen (TokenThen .arrayClose (Closes rest)) kinds ∨ WsThen (ValueThen (.arrayStart :: rest)) kinds
  | .objectStart :: rest, kinds =>
    WsThen (TokenThen .objectClose (Closes rest)) kinds ∨ WsThen (MemberThen (.objectStart :: rest)) kinds
  | stack, kinds => Closes stack kinds

section
variable {rest : List JsonState} {kinds : List JsonTokenKind}

@[simp] theorem completes_start : Completes (.start :: rest) kinds ↔
    TokenThen .bom (WsThen (ValueThen rest)) kinds ∨ WsThen (ValueThen rest) kinds := Iff.rfl
@[simp] theorem completes_value :
    Completes (.value :: rest) kinds ↔ WsThen (ValueThen rest) kinds := Iff.rfl
@[simp] theorem completes_string :
    Completes (.string :: rest) kinds ↔ BodyThen (Closes rest) kinds := Iff.rfl
@[simp] theorem completes_objectKey :
    Completes (.objectKey :: rest) kinds ↔ KeyThen rest kinds := Iff.rfl
@[simp] theorem completes_objectKvSeparator :
    Completes (.objectKvSeparator :: rest) kinds ↔ ColonThen rest kinds := Iff.rfl
@[simp] theorem completes_objectKeyStart :
    Completes (.objectKeyStart :: rest) kinds ↔ WsThen (MemberThen rest) kinds := Iff.rfl
@[simp] theorem completes_arrayStart : Completes (.arrayStart :: rest) kinds ↔
    WsThen (TokenThen .arrayClose (Closes rest)) kinds ∨
      WsThen (ValueThen (.arrayStart :: rest)) kinds := Iff.rfl
@[simp] theorem completes_objectStart : Completes (.objectStart :: rest) kinds ↔
    WsThen (TokenThen .objectClose (Closes rest)) kinds ∨
      WsThen (MemberThen (.objectStart :: rest)) kinds := Iff.rfl
@[simp] theorem completes_arrayContinue :
    Completes (.arrayContinue :: rest) kinds ↔ Closes (.arrayContinue :: rest) kinds := Iff.rfl
@[simp] theorem completes_objectContinue :
    Completes (.objectContinue :: rest) kinds ↔ Closes (.objectContinue :: rest) kinds := Iff.rfl

end

/-! ## One token is one letter -/

/-- The elements of an array and its end are a value and what the array
demands after it. -/
theorem elements_then {state rest kinds} (hs : state = .arrayStart ∨ state = .arrayContinue) :
    (∃ elements kinds', IsElements elements ∧ Closes rest kinds' ∧
      kinds = elements ++ .arrayClose :: kinds') ↔ WsThen (ValueThen (state :: rest)) kinds := by
  constructor
  · rintro ⟨elements, kinds', he, hc, rfl⟩
    cases he with
    | last hw hv hw' => exact ⟨_, _, hw, ⟨_, _, hv, .array hs hw' hc, rfl⟩, by simp⟩
    | more hw hv hw' he => exact ⟨_, _, hw, ⟨_, _, hv, .arrayMore hs hw' he hc, rfl⟩, by simp⟩
  · rintro ⟨ws, _, hw, ⟨value, _, hv, hc, rfl⟩, rfl⟩
    cases hc with
    | root => simp at hs
    | array _ hw' hc => exact ⟨_, _, .last hw hv hw', hc, by simp⟩
    | arrayMore _ hw' he hc => exact ⟨_, _, .more hw hv hw' he, hc, by simp⟩
    | object h | objectMore h => rcases hs with rfl | rfl <;> simp at h

theorem members_then {state rest kinds} (hs : state = .objectStart ∨ state = .objectContinue) :
    (∃ members kinds', IsMembers members ∧ Closes rest kinds' ∧
      kinds = members ++ .objectClose :: kinds') ↔ WsThen (MemberThen (state :: rest)) kinds := by
  have hmember : ∀ {member kinds'}, IsMember member → Closes (state :: rest) kinds' →
      MemberThen (state :: rest) (member ++ kinds') := by
    intro member kinds' hm hc
    cases hm with
    | mk hk hw hw' hv =>
      exact ⟨_, ⟨_, _, hk, ⟨_, _, hw, ⟨_, ⟨_, _, hw', ⟨_, _, hv, hc, rfl⟩, rfl⟩, rfl⟩, rfl⟩, rfl⟩, by simp⟩
  constructor
  · rintro ⟨members, kinds', hms, hc, rfl⟩
    cases hms with
    | last hw hm hw' => exact ⟨_, _, hw, hmember hm (.object hs hw' hc), by simp⟩
    | more hw hm hw' hms => exact ⟨_, _, hw, hmember hm (.objectMore hs hw' hms hc), by simp⟩
  · rintro ⟨ws, _, hw, ⟨_, ⟨key, _, hk, ⟨ws₁, _, hw₁, ⟨_, ⟨ws₂, _, hw₂, ⟨v, _, hv, hc, rfl⟩, rfl⟩,
      rfl⟩, rfl⟩, rfl⟩, rfl⟩, rfl⟩
    have hm : IsMember _ := .mk hk hw₁ hw₂ hv
    cases hc with
    | root => simp at hs
    | object _ hw' hc => exact ⟨_, _, .last hw hm hw', hc, by simp⟩
    | objectMore _ hw' hms hc => exact ⟨_, _, .more hw hm hw' hms, hc, by simp⟩
    | array h | arrayMore h => rcases hs with rfl | rfl <;> simp at h

theorem closes_array {state rest kinds} (hs : state = .arrayStart ∨ state = .arrayContinue) :
    Closes (state :: rest) kinds ↔ WsThen (TokenThen .arrayClose (Closes rest)) kinds ∨
      WsThen (TokenThen .valueSeparator (WsThen (ValueThen (.arrayContinue :: rest)))) kinds := by
  constructor
  · intro h
    cases h with
    | root => simp at hs
    | array _ hw hc => exact .inl ⟨_, _, hw, ⟨_, hc, rfl⟩, rfl⟩
    | arrayMore _ hw he hc =>
      exact .inr ⟨_, _, hw, ⟨_, (elements_then (.inr rfl)).mp ⟨_, _, he, hc, rfl⟩, rfl⟩, rfl⟩
    | object h | objectMore h => rcases hs with rfl | rfl <;> simp at h
  · rintro (⟨ws, _, hw, ⟨_, hc, rfl⟩, rfl⟩ | ⟨ws, _, hw, ⟨_, h, rfl⟩, rfl⟩)
    · exact .array hs hw hc
    · obtain ⟨_, _, he, hc, rfl⟩ := (elements_then (.inr rfl)).mpr h
      exact .arrayMore hs hw he hc

theorem closes_object {state rest kinds} (hs : state = .objectStart ∨ state = .objectContinue) :
    Closes (state :: rest) kinds ↔ WsThen (TokenThen .objectClose (Closes rest)) kinds ∨
      WsThen (TokenThen .valueSeparator (WsThen (MemberThen (.objectContinue :: rest)))) kinds := by
  constructor
  · intro h
    cases h with
    | root => simp at hs
    | object _ hw hc => exact .inl ⟨_, _, hw, ⟨_, hc, rfl⟩, rfl⟩
    | objectMore _ hw hm hc =>
      exact .inr ⟨_, _, hw, ⟨_, (members_then (.inr rfl)).mp ⟨_, _, hm, hc, rfl⟩, rfl⟩, rfl⟩
    | array h | arrayMore h => rcases hs with rfl | rfl <;> simp at h
  · rintro (⟨ws, _, hw, ⟨_, hc, rfl⟩, rfl⟩ | ⟨ws, _, hw, ⟨_, h, rfl⟩, rfl⟩)
    · exact .object hs hw hc
    · obtain ⟨_, _, hm, hc, rfl⟩ := (members_then (.inr rfl)).mpr h
      exact .objectMore hs hw hm hc

/-- Above ROOT only whitespace may follow. -/
@[simp] theorem completes_root {kinds} : Completes [.root] kinds ↔ IsWs kinds := by
  constructor
  · intro h
    cases h with
    | root hw => exact hw
    | array h | arrayMore h | object h | objectMore h => simp at h
  · exact .root

/-- After a value a container demands what its CONTINUE state does. -/
theorem completes_afterValue {context kinds} (h : ContextOK context) :
    Completes (afterValue context) kinds ↔ Closes context kinds := by
  rcases h.cases with rfl | ⟨state, rest, rfl, hs, -⟩
  · rfl
  · cases state with
    | arrayStart => simp only [afterValue, Completes, closes_array (.inl rfl), closes_array (.inr rfl)]
    | objectStart => simp only [afterValue, Completes, closes_object (.inl rfl), closes_object (.inr rfl)]
    | arrayContinue | objectContinue => rfl
    | _ => exact absurd hs (by decide)

@[simp] theorem afterValue_arrayStart (rest : List JsonState) :
    afterValue (.arrayStart :: rest) = .arrayContinue :: rest := rfl
@[simp] theorem afterValue_objectStart (rest : List JsonState) :
    afterValue (.objectStart :: rest) = .objectContinue :: rest := rfl

/-- The first token of a value, and what the value's rest demands. -/
theorem valueThen_cons {context kind kinds} (h : ContextOK context) :
    ValueThen context (kind :: kinds) ↔
      kind ≠ .whitespace ∧ ∃ stack, startValue context kind = some stack ∧ Completes stack kinds := by
  constructor
  · rintro ⟨value, rest, hv, hc, he⟩
    cases hv with
    | number | true | false | null =>
      obtain ⟨rfl, rfl⟩ := List.cons.inj he
      exact ⟨by simp, _, rfl, (completes_afterValue h).mpr hc⟩
    | string hb =>
      obtain ⟨rfl, rfl⟩ := List.cons.inj he
      exact ⟨by simp, _, rfl, _, _, hb, hc, by simp⟩
    | emptyArray hw =>
      obtain ⟨rfl, rfl⟩ := List.cons.inj he
      exact ⟨by simp, _, rfl, .inl ⟨_, _, hw, ⟨_, hc, rfl⟩, by simp⟩⟩
    | emptyObject hw =>
      obtain ⟨rfl, rfl⟩ := List.cons.inj he
      exact ⟨by simp, _, rfl, .inl ⟨_, _, hw, ⟨_, hc, rfl⟩, by simp⟩⟩
    | array hes =>
      obtain ⟨rfl, rfl⟩ := List.cons.inj he
      exact ⟨by simp, _, rfl, .inr ((elements_then (.inl rfl)).mp ⟨_, _, hes, hc, by simp⟩)⟩
    | object hms =>
      obtain ⟨rfl, rfl⟩ := List.cons.inj he
      exact ⟨by simp, _, rfl, .inr ((members_then (.inl rfl)).mp ⟨_, _, hms, hc, by simp⟩)⟩
  · rintro ⟨hk, stack, hs, hc⟩
    cases kind <;> simp only [startValue, Option.some.injEq, reduceCtorEq] at hs <;> subst hs
    case whitespace => exact absurd rfl hk
    case number => exact ⟨_, _, .number, (completes_afterValue h).mp hc, rfl⟩
    case true => exact ⟨_, _, .true, (completes_afterValue h).mp hc, rfl⟩
    case false => exact ⟨_, _, .false, (completes_afterValue h).mp hc, rfl⟩
    case null => exact ⟨_, _, .null, (completes_afterValue h).mp hc, rfl⟩
    case stringDelimiter =>
      obtain ⟨body, rest, hb, hc, rfl⟩ := hc
      exact ⟨_, _, .string hb, hc, by simp⟩
    case arrayOpen =>
      rcases hc with ⟨ws, _, hw, ⟨_, hc, rfl⟩, rfl⟩ | hc
      · exact ⟨_, _, .emptyArray hw, hc, by simp⟩
      · obtain ⟨_, _, hes, hc', rfl⟩ := (elements_then (.inl rfl)).mpr hc
        exact ⟨_, _, .array hes, hc', by simp⟩
    case objectOpen =>
      rcases hc with ⟨ws, _, hw, ⟨_, hc, rfl⟩, rfl⟩ | hc
      · exact ⟨_, _, .emptyObject hw, hc, by simp⟩
      · obtain ⟨_, _, hms, hc', rfl⟩ := (members_then (.inl rfl)).mpr hc
        exact ⟨_, _, .object hms, hc', by simp⟩

/-- Whitespace, or the first token of a value. -/
theorem wsThen_valueThen_cons {context kind kinds} (h : ContextOK context) :
    WsThen (ValueThen context) (kind :: kinds) ↔
      ∃ stack, startValue context kind = some stack ∧ Completes stack kinds := by
  rw [wsThen_cons, valueThen_cons h]
  by_cases hk : kind = .whitespace
  · subst hk; simp [startValue, Completes]
  · simp [hk]

/-- **One token of the machine is one letter of what the stack demands.** -/
theorem completes_step {stack kind kinds} (h : StackOK stack) :
    Completes stack (kind :: kinds) ↔ ∃ stack', jsmStep stack kind = some stack' ∧ Completes stack' kinds := by
  match stack, h with
  | .start :: rest, h =>
    have hc : ContextOK rest := by rw [show rest = [.root] from h]; rfl
    simp only [completes_start, jsmStep, wsThen_valueThen_cons hc, tokenThen_cons]
    by_cases hb : kind = .bom
    · subst hb; simp [startValue]
    · simp [hb]
  | .value :: rest, h => simp only [completes_value, jsmStep, wsThen_valueThen_cons h]
  | .string :: rest, h =>
    by_cases hk : kind = .stringDelimiter
    · subst hk
      simp [jsmStep, completes_afterValue h, isStringCharacterKind]
    · by_cases hs : isStringCharacterKind kind <;> simp [jsmStep, hk, hs]
  | .objectKey :: rest, h =>
    by_cases hk : kind = .stringDelimiter
    · subst hk
      simp [jsmStep, KeyThen, isStringCharacterKind]
    · by_cases hs : isStringCharacterKind kind <;> simp [jsmStep, KeyThen, hk, hs]
  | .arrayStart :: rest, h =>
    have hc : ContextOK rest := ContextOK.tail .arrayStart rfl h
    simp only [completes_arrayStart, wsThen_cons, tokenThen_cons, valueThen_cons h]
    cases kind <;> simp [jsmStep, startValue, completes_afterValue hc]
  | .arrayContinue :: rest, h =>
    have hc : ContextOK rest := ContextOK.tail .arrayContinue rfl h
    simp only [completes_arrayContinue, closes_array (.inr rfl), wsThen_cons, tokenThen_cons]
    cases kind <;> simp [jsmStep, completes_afterValue hc, closes_array]
  | .objectStart :: rest, h =>
    have hc : ContextOK rest := ContextOK.tail .objectStart rfl h
    simp only [completes_objectStart, wsThen_cons, MemberThen, tokenThen_cons]
    cases kind <;> simp [jsmStep, completes_afterValue hc, MemberThen]
  | .objectContinue :: rest, h =>
    have hc : ContextOK rest := ContextOK.tail .objectContinue rfl h
    simp only [completes_objectContinue, closes_object (.inr rfl), wsThen_cons, tokenThen_cons]
    cases kind <;> simp [jsmStep, completes_afterValue hc, closes_object]
  | .objectKeyStart :: rest, h =>
    simp only [completes_objectKeyStart, wsThen_cons, MemberThen, tokenThen_cons]
    cases kind <;> simp [jsmStep, MemberThen]
  | .objectKvSeparator :: rest, h =>
    simp only [completes_objectKvSeparator, ColonThen, wsThen_cons, tokenThen_cons]
    cases kind <;> simp [jsmStep, ColonThen]
  | [.root], h =>
    rw [completes_root]
    cases kind <;> simp [jsmStep, IsWs]

end Scomp
