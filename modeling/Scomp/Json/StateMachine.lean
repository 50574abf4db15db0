/-
The state machine with a stack that describes JSON parsing states
(`json_state_machine.c`), and the same machine with an unbounded stack.

`jsmStep` is the second one: what a token does to the list of states when a
push is never refused. `jsmProcessToken_eq` says that the machine of the
source is `jsmStep` wherever no push is refused (`jsmPushRefused`), on every
stack `StackOK` admits.
-/
import Scomp.Json.Base
import Scomp.DataStructures.FixedStack

namespace Scomp

structure JsonStateMachine where
  stateStack : FixedStack JsonState
deriving DecidableEq, Repr

/-- `fstack_reset`, then ROOT and START are pushed. -/
def jsmReset (jsm : JsonStateMachine) : JsonStateMachine :=
  { stateStack := { jsm.stateStack with values := [.start, .root] } }

def jsmInit : JsonStateMachine :=
  jsmReset { stateStack := { values := [], itemCapacity := JSON_MAX_STATE_STACK_LENGTH } }

def jsmGetCurrentState (jsm : JsonStateMachine) : Option JsonState := fstackPeek jsm.stateStack

def jsmReplaceTopState (jsm : JsonStateMachine) (state : JsonState) : Option JsonStateMachine := do
  return { stateStack := ← fstackSetTop jsm.stateStack state }

/-- `false` when the stack is full. -/
def jsmPushState (jsm : JsonStateMachine) (state : JsonState) : Option (Bool × JsonStateMachine) :=
  if fstackGetCount jsm.stateStack = fstackGetCapacity jsm.stateStack then
    some (false, jsm)
  else do
    return (true, { stateStack := ← fstackPush jsm.stateStack state })

/-- A bare `fstack_pop` of the state stack. -/
def jsmPopState (jsm : JsonStateMachine) : Option JsonStateMachine := do
  let (_, stack) ← fstackPop jsm.stateStack
  return { stateStack := stack }

def jsmPushValueState (jsm : JsonStateMachine) (state : JsonState) :
    Option (Bool × JsonStateMachine) := do
  let top ← fstackPeek jsm.stateStack
  if top = .value then
    jsmPushState (← jsmPopState jsm) state
  else
    jsmPushState jsm state

def jsmTryUpdateStackTopAfterReadingValue (jsm : JsonStateMachine) : Option JsonStateMachine := do
  let baseState ← jsmGetCurrentState jsm
  if baseState = .arrayStart then
    jsmReplaceTopState jsm .arrayContinue
  else if baseState = .objectStart then
    jsmReplaceTopState jsm .objectContinue
  else
    return jsm

def jsmPopStateAfterReadingValue (jsm : JsonStateMachine) : Option JsonStateMachine := do
  jsmTryUpdateStackTopAfterReadingValue (← jsmPopState jsm)

def jsmTryStartValue (jsm : JsonStateMachine) (tokenKind : JsonTokenKind) :
    Option (Bool × JsonStateMachine) :=
  match tokenKind with
  | .stringDelimiter => jsmPushValueState jsm .string
  | .objectOpen => jsmPushValueState jsm .objectStart
  | .arrayOpen => jsmPushValueState jsm .arrayStart
  | .whitespace => some (true, jsm)
  | .number | .true | .false | .null => do
    let state ← jsmGetCurrentState jsm
    let jsm ← if state = .value then jsmPopState jsm else some jsm
    return (true, ← jsmTryUpdateStackTopAfterReadingValue jsm)
  | _ => some (false, jsm)

/-- The token kinds accepted inside a string, the delimiter aside. -/
def isStringCharacterKind (tokenKind : JsonTokenKind) : Bool :=
  tokenKind = .unicodeCharacter || tokenKind = .escapeSequence || tokenKind = .escapedUnicodeCharcode

def jsmProcessToken (jsm : JsonStateMachine) (tokenKind : JsonTokenKind) :
    Option (Bool × JsonStateMachine) := do
  match ← jsmGetCurrentState jsm with
  | .start =>
    -- The source calls itself here; the top is now VALUE, whose case is `jsmTryStartValue`.
    let jsm ← jsmReplaceTopState jsm .value
    if tokenKind = .bom then return (true, jsm) else jsmTryStartValue jsm tokenKind
  | .value => jsmTryStartValue jsm tokenKind
  | .string =>
    if tokenKind = .stringDelimiter then
      return (true, ← jsmPopStateAfterReadingValue jsm)
    else
      return (isStringCharacterKind tokenKind, jsm)
  | .objectKey =>
    if tokenKind = .stringDelimiter then
      return (true, ← jsmReplaceTopState jsm .objectKvSeparator)
    else
      return (isStringCharacterKind tokenKind, jsm)
  | .arrayStart =>
    if tokenKind = .arrayClose then
      return (true, ← jsmPopStateAfterReadingValue jsm)
    else
      jsmTryStartValue jsm tokenKind
  | .arrayContinue =>
    if tokenKind = .arrayClose then
      return (true, ← jsmPopStateAfterReadingValue jsm)
    else if tokenKind = .valueSeparator then
      jsmPushState jsm .value
    else
      return (tokenKind = .whitespace, jsm)
  | .objectStart =>
    if tokenKind = .objectClose then
      return (true, ← jsmPopStateAfterReadingValue jsm)
    else if tokenKind = .stringDelimiter then
      jsmPushState jsm .objectKey
    else
      return (tokenKind = .whitespace, jsm)
  | .objectContinue =>
    if tokenKind = .objectClose then
      return (true, ← jsmPopStateAfterReadingValue jsm)
    else if tokenKind = .valueSeparator then
      let (isStateUpdated, jsm) ← jsmPushState jsm .objectKeyStart
      -- "This state push should be always successful", which the source asserts.
      if isStateUpdated then return (isStateUpdated, jsm) else none
    else
      return (tokenKind = .whitespace, jsm)
  | .objectKeyStart =>
    if tokenKind = .stringDelimiter then
      return (true, ← jsmReplaceTopState jsm .objectKey)
    else
      return (tokenKind = .whitespace, jsm)
  | .objectKvSeparator =>
    if tokenKind = .kvSeparator then
      return (true, ← jsmReplaceTopState jsm .value)
    else
      return (tokenKind = .whitespace, jsm)
  | .root => return (tokenKind = .whitespace, jsm)

/-- The results of processing each token of a sequence, in order, and the
machine after the last. A rejected token does not end the processing. -/
def jsmProcessTokens : JsonStateMachine → List JsonTokenKind → Option (List Bool × JsonStateMachine)
  | jsm, [] => some ([], jsm)
  | jsm, kind :: kinds => do
    let (isAccepted, jsm) ← jsmProcessToken jsm kind
    let (areAccepted, jsm) ← jsmProcessTokens jsm kinds
    return (isAccepted :: areAccepted, jsm)

/-! ## Refused pushes -/

/-- The tokens for which a state pushes another one on top of itself. (In
VALUE, and so in START, a push replaces the popped VALUE and has room.) -/
def jsmPushesAbove : JsonState → JsonTokenKind → Bool
  | .arrayStart, .stringDelimiter | .arrayStart, .objectOpen | .arrayStart, .arrayOpen => true
  | .arrayContinue, .valueSeparator => true
  | .objectStart, .stringDelimiter => true
  | .objectContinue, .valueSeparator => true
  | _, _ => false

/-- Processing `kind` now calls `_jsm_push_state` on a full stack. -/
def jsmPushRefused (jsm : JsonStateMachine) (kind : JsonTokenKind) : Bool :=
  match jsm.stateStack.values with
  | [] => false
  | state :: _ =>
    jsmPushesAbove state kind &&
      fstackGetCount jsm.stateStack = fstackGetCapacity jsm.stateStack

/-- No push is refused while the sequence is processed. -/
def JsmNeverRefuses : JsonStateMachine → List JsonTokenKind → Prop
  | _, [] => True
  | jsm, kind :: kinds =>
    jsmPushRefused jsm kind = false ∧
      ∀ r, jsmProcessToken jsm kind = some r → JsmNeverRefuses r.2 kinds

/-! ## The machine on an unbounded stack -/

/-- The stack after a value ended directly above it. -/
def afterValue : List JsonState → List JsonState
  | .arrayStart :: rest => .arrayContinue :: rest
  | .objectStart :: rest => .objectContinue :: rest
  | stack => stack

/-- A value's first token in VALUE state, `rest` being what is below VALUE. -/
def startValue (rest : List JsonState) : JsonTokenKind → Option (List JsonState)
  | .stringDelimiter => some (.string :: rest)
  | .objectOpen => some (.objectStart :: rest)
  | .arrayOpen => some (.arrayStart :: rest)
  | .whitespace => some (.value :: rest)
  | .number | .true | .false | .null => some (afterValue rest)
  | _ => none

/-- One token on an unbounded stack; `none` rejects it. -/
def jsmStep : List JsonState → JsonTokenKind → Option (List JsonState)
  | .start :: rest, kind => if kind = .bom then some (.value :: rest) else startValue rest kind
  | .value :: rest, kind => startValue rest kind
  | .string :: rest, kind =>
    if kind = .stringDelimiter then some (afterValue rest)
    else if isStringCharacterKind kind then some (.string :: rest) else none
  | .objectKey :: rest, kind =>
    if kind = .stringDelimiter then some (.objectKvSeparator :: rest)
    else if isStringCharacterKind kind then some (.objectKey :: rest) else none
  | .arrayStart :: rest, .arrayClose => some (afterValue rest)
  | .arrayStart :: rest, .whitespace => some (.arrayStart :: rest)
  | .arrayStart :: rest, kind => startValue (.arrayStart :: rest) kind
  | .arrayContinue :: rest, .arrayClose => some (afterValue rest)
  | .arrayContinue :: rest, .valueSeparator => some (.value :: .arrayContinue :: rest)
  | .arrayContinue :: rest, .whitespace => some (.arrayContinue :: rest)
  | .objectStart :: rest, .objectClose => some (afterValue rest)
  | .objectStart :: rest, .stringDelimiter => some (.objectKey :: .objectStart :: rest)
  | .objectStart :: rest, .whitespace => some (.objectStart :: rest)
  | .objectContinue :: rest, .objectClose => some (afterValue rest)
  | .objectContinue :: rest, .valueSeparator => some (.objectKeyStart :: .objectContinue :: rest)
  | .objectContinue :: rest, .whitespace => some (.objectContinue :: rest)
  | .objectKeyStart :: rest, .stringDelimiter => some (.objectKey :: rest)
  | .objectKeyStart :: rest, .whitespace => some (.objectKeyStart :: rest)
  | .objectKvSeparator :: rest, .kvSeparator => some (.value :: rest)
  | .objectKvSeparator :: rest, .whitespace => some (.objectKvSeparator :: rest)
  | [.root], .whitespace => some [.root]
  | _, _ => none

/-- A run of accepted tokens. -/
def jsmSteps : List JsonState → List JsonTokenKind → Option (List JsonState)
  | stack, [] => some stack
  | stack, kind :: kinds => (jsmStep stack kind).bind (jsmSteps · kinds)

/-! ## Well-formed stacks -/

def isContainerState (state : JsonState) : Bool :=
  state = .arrayStart || state = .arrayContinue || state = .objectStart || state = .objectContinue

def isObjectState (state : JsonState) : Bool := state = .objectStart || state = .objectContinue

/-- What is below a pending value: containers down to ROOT. -/
def ContextOK : List JsonState → Prop
  | [] => False
  | [state] => state = .root
  | state :: rest => isContainerState state = true ∧ ContextOK rest

/-- The shape of every reachable stack. -/
def StackOK : List JsonState → Prop
  | .start :: rest => rest = [.root]
  | .value :: rest | .string :: rest => ContextOK rest
  | .objectKeyStart :: rest | .objectKey :: rest | .objectKvSeparator :: rest =>
    ContextOK rest ∧ ∀ state ∈ rest.head?, isObjectState state = true
  | stack => ContextOK stack

theorem ContextOK.cons {state rest} (hs : isContainerState state = true) (h : ContextOK rest) :
    ContextOK (state :: rest) := by
  cases rest with
  | nil => exact absurd h (by simp [ContextOK])
  | cons => exact ⟨hs, h⟩

theorem ContextOK.tail (state : JsonState) {rest} (hs : isContainerState state = true) (h : ContextOK (state :: rest)) :
    ContextOK rest := by
  cases rest with
  | nil => simp only [ContextOK] at h; subst h; simp [isContainerState] at hs
  | cons => exact h.2

/-- A context is its top state and, above ROOT, a context. -/
theorem ContextOK.cases {stack} (h : ContextOK stack) :
    stack = [.root] ∨ ∃ state rest, stack = state :: rest ∧ isContainerState state = true ∧ ContextOK rest := by
  match stack, h with
  | [state], h => exact .inl (by rw [h])
  | state :: s :: rest, h => exact .inr ⟨state, s :: rest, rfl, h⟩

theorem ContextOK.stackOK {stack} (h : ContextOK stack) : StackOK stack := by
  rcases h.cases with rfl | ⟨state, rest, rfl, hs, -⟩
  · exact h
  · cases state <;> first | exact h | exact absurd hs (by decide)

theorem ContextOK.afterValue {stack} (h : ContextOK stack) : ContextOK (afterValue stack) := by
  rcases h.cases with rfl | ⟨state, rest, rfl, hs, hr⟩
  · exact h
  · cases state <;> first | exact h | exact .cons rfl hr

theorem startValue_stackOK {rest kind stack'} (h : ContextOK rest) (hs : startValue rest kind = some stack') :
    StackOK stack' := by
  cases kind <;> simp only [startValue, Option.some.injEq, reduceCtorEq] at hs <;> subst hs <;>
    first
    | exact h
    | exact h.afterValue.stackOK
    | exact ContextOK.cons rfl h

/-- Accepted tokens keep the stack well formed. -/
theorem jsmStep_stackOK {stack kind stack'} (h : StackOK stack) (hs : jsmStep stack kind = some stack') :
    StackOK stack' := by
  match stack, h with
  | .start :: rest, h =>
    have hc : ContextOK rest := by rw [show rest = [.root] from h]; rfl
    simp only [jsmStep] at hs
    split at hs
    · cases hs; exact hc
    · exact startValue_stackOK hc hs
  | .value :: rest, h => exact startValue_stackOK h hs
  | .string :: rest, h =>
    simp only [jsmStep] at hs
    split at hs
    · cases hs; exact (ContextOK.afterValue h).stackOK
    · split at hs
      · cases hs; exact h
      · cases hs
  | .objectKey :: rest, h =>
    simp only [jsmStep] at hs
    split at hs
    · cases hs; exact h
    · split at hs
      · cases hs; exact h
      · cases hs
  | .arrayStart :: rest, h =>
    have hc : ContextOK rest := ContextOK.tail .arrayStart rfl h
    cases kind <;> simp only [jsmStep, startValue, Option.some.injEq, reduceCtorEq] at hs <;> subst hs <;>
      first
      | exact h
      | exact hc.afterValue.stackOK
      | exact ContextOK.cons rfl h
      | exact ContextOK.cons rfl hc
  | .arrayContinue :: rest, h =>
    have hc : ContextOK rest := ContextOK.tail .arrayContinue rfl h
    cases kind <;> simp only [jsmStep, Option.some.injEq, reduceCtorEq] at hs <;> subst hs <;>
      first | exact h | exact hc.afterValue.stackOK
  | .objectStart :: rest, h =>
    have hc : ContextOK rest := ContextOK.tail .objectStart rfl h
    cases kind <;> simp only [jsmStep, Option.some.injEq, reduceCtorEq] at hs <;> subst hs <;>
      first | exact h | exact hc.afterValue.stackOK | exact ⟨h, by simp [isObjectState]⟩
  | .objectContinue :: rest, h =>
    have hc : ContextOK rest := ContextOK.tail .objectContinue rfl h
    cases kind <;> simp only [jsmStep, Option.some.injEq, reduceCtorEq] at hs <;> subst hs <;>
      first | exact h | exact hc.afterValue.stackOK | exact ⟨h, by simp [isObjectState]⟩
  | .objectKeyStart :: rest, h =>
    cases kind <;> simp only [jsmStep, Option.some.injEq, reduceCtorEq] at hs <;> subst hs <;> exact h
  | .objectKvSeparator :: rest, h =>
    cases kind <;> simp only [jsmStep, Option.some.injEq, reduceCtorEq] at hs <;> subst hs <;>
      first | exact h | exact h.1
  | [.root], h =>
    cases kind <;> simp only [jsmStep, Option.some.injEq, reduceCtorEq] at hs
    subst hs; exact h

/-! ## The machine of the source is the unbounded one -/

/-- A machine with the given stack. -/
def jsmOf (stack : List JsonState) (capacity : Nat) : JsonStateMachine :=
  { stateStack := { values := stack, itemCapacity := capacity } }

theorem tryUpdate_eq {stack capacity} (h : ContextOK stack) :
    jsmTryUpdateStackTopAfterReadingValue (jsmOf stack capacity) =
      some (jsmOf (afterValue stack) capacity) := by
  rcases h.cases with rfl | ⟨state, rest, rfl, -, -⟩
  · rfl
  · cases state <;> rfl

theorem popAfterValue_eq {state rest capacity} (h : ContextOK rest) :
    jsmPopStateAfterReadingValue (jsmOf (state :: rest) capacity) =
      some (jsmOf (afterValue rest) capacity) := tryUpdate_eq h

theorem pushState_eq {stack state capacity} (h : stack.length < capacity) :
    jsmPushState (jsmOf stack capacity) state = some (true, jsmOf (state :: stack) capacity) := by
  have hne : stack.length ≠ capacity := by omega
  simp [jsmPushState, jsmOf, fstackGetCount, fstackGetCapacity, fstackPush, h, hne]

theorem afterValue_length (stack : List JsonState) : (afterValue stack).length = stack.length := by
  match stack with
  | [] => rfl
  | state :: rest => cases state <;> rfl

/-- In VALUE a push takes the slot of the popped VALUE, so none is refused. -/
theorem tryStartValue_value {rest kind capacity} (h : ContextOK rest) (hc : rest.length < capacity) :
    jsmTryStartValue (jsmOf (.value :: rest) capacity) kind =
      match startValue rest kind with
      | some stack' => some (true, jsmOf stack' capacity)
      | none => some (false, jsmOf (.value :: rest) capacity) := by
  have hpush : ∀ state, jsmPushValueState (jsmOf (.value :: rest) capacity) state =
      some (true, jsmOf (state :: rest) capacity) := fun state => pushState_eq hc
  have hpop : ∀ {b : Bool}, (do
      let jsm ← jsmTryUpdateStackTopAfterReadingValue (jsmOf rest capacity)
      return (b, jsm)) = some (b, jsmOf (afterValue rest) capacity) := by
    intro b; rw [tryUpdate_eq h]; rfl
  cases kind <;> first | rfl | exact hpush _ | exact hpop

/-- A push on top of the current state that is not refused has a free slot. -/
theorem length_lt_of_not_refused {state rest capacity kind} (hc : rest.length + 1 ≤ capacity)
    (hp : jsmPushesAbove state kind = true)
    (hr : jsmPushRefused (jsmOf (state :: rest) capacity) kind = false) : rest.length + 1 < capacity := by
  have hne : rest.length + 1 ≠ capacity := by
    intro he
    have : jsmPushRefused (jsmOf (state :: rest) capacity) kind = true := by
      simp only [jsmPushRefused, jsmOf, hp, Bool.true_and]
      exact decide_eq_true he
    rw [hr] at this; cases this
  omega

/-- In ARRAY_START the state stays below what the value pushes. -/
theorem tryStartValue_arrayStart {rest kind capacity} (hc : rest.length + 1 ≤ capacity)
    (hr : jsmPushRefused (jsmOf (.arrayStart :: rest) capacity) kind = false)
    (hk : kind ≠ .whitespace) :
    jsmTryStartValue (jsmOf (.arrayStart :: rest) capacity) kind =
      match startValue (.arrayStart :: rest) kind with
      | some stack' => some (true, jsmOf stack' capacity)
      | none => some (false, jsmOf (.arrayStart :: rest) capacity) := by
  have hpush : jsmPushesAbove .arrayStart kind = true → ∀ state,
      jsmPushValueState (jsmOf (.arrayStart :: rest) capacity) state =
        some (true, jsmOf (state :: .arrayStart :: rest) capacity) := by
    exact fun hp state => pushState_eq (length_lt_of_not_refused hc hp hr)
  cases kind <;> first | rfl | exact absurd rfl hk | exact hpush rfl _

/-- The machine with the stack a token leaves: the accepted token's stack, or
the old one, where a rejected first token has turned START into VALUE. -/
def jsmStepResult (stack : List JsonState) (kind : JsonTokenKind) (capacity : Nat) :
    Bool × JsonStateMachine :=
  match jsmStep stack kind with
  | some stack' => (true, jsmOf stack' capacity)
  | none => (false, jsmOf (if stack = [.start, .root] then [.value, .root] else stack) capacity)

/-- **The machine of the source takes `jsmStep`'s step** where it has no push
refused, and no assertion of its stack or of its own fails. -/
theorem jsmProcessToken_eq {stack kind capacity} (h : StackOK stack) (hc : stack.length ≤ capacity)
    (hr : jsmPushRefused (jsmOf stack capacity) kind = false) :
    jsmProcessToken (jsmOf stack capacity) kind = some (jsmStepResult stack kind capacity) := by
  match stack, h with
  | .start :: rest, h =>
    obtain rfl : rest = [.root] := h
    simp only [List.length_cons, List.length_nil] at hc
    have hv := @tryStartValue_value [.root] kind capacity rfl
      (by simp only [List.length_cons, List.length_nil]; omega)
    by_cases hb : kind = .bom
    · subst hb; rfl
    · simp only [jsmStepResult, jsmStep, if_neg hb]
      have : jsmProcessToken (jsmOf [.start, .root] capacity) kind =
          if kind = .bom then some (true, jsmOf [.value, .root] capacity)
          else jsmTryStartValue (jsmOf [.value, .root] capacity) kind := rfl
      rw [this, if_neg hb, hv]
      cases startValue [.root] kind <;> rfl
  | .value :: rest, h =>
    have : jsmProcessToken (jsmOf (.value :: rest) capacity) kind =
        jsmTryStartValue (jsmOf (.value :: rest) capacity) kind := rfl
    rw [this, tryStartValue_value h hc]
    simp only [jsmStepResult, jsmStep]
    cases startValue rest kind <;> rfl
  | .string :: rest, h =>
    have hp : (do
        let jsm ← jsmPopStateAfterReadingValue (jsmOf (.string :: rest) capacity)
        return (true, jsm)) = some (true, jsmOf (afterValue rest) capacity) := by
      rw [popAfterValue_eq h]; rfl
    cases kind <;> first | rfl | exact hp
  | .objectKey :: rest, h => cases kind <;> rfl
  | .arrayStart :: rest, h =>
    have hp : (do
        let jsm ← jsmPopStateAfterReadingValue (jsmOf (.arrayStart :: rest) capacity)
        return (true, jsm)) = some (true, jsmOf (afterValue rest) capacity) := by
      rw [popAfterValue_eq (ContextOK.tail .arrayStart rfl h)]; rfl
    by_cases hk : kind = .arrayClose
    · subst hk; exact hp
    · by_cases hw : kind = .whitespace
      · subst hw; rfl
      · have hv := tryStartValue_arrayStart hc hr hw
        cases kind <;> first | exact absurd rfl hk | exact absurd rfl hw | exact hv
  | .arrayContinue :: rest, h =>
    have hp : (do
        let jsm ← jsmPopStateAfterReadingValue (jsmOf (.arrayContinue :: rest) capacity)
        return (true, jsm)) = some (true, jsmOf (afterValue rest) capacity) := by
      rw [popAfterValue_eq (ContextOK.tail .arrayContinue rfl h)]; rfl
    cases kind <;> first | rfl | exact hp | exact pushState_eq (length_lt_of_not_refused hc rfl hr)
  | .objectStart :: rest, h =>
    have hp : (do
        let jsm ← jsmPopStateAfterReadingValue (jsmOf (.objectStart :: rest) capacity)
        return (true, jsm)) = some (true, jsmOf (afterValue rest) capacity) := by
      rw [popAfterValue_eq (ContextOK.tail .objectStart rfl h)]; rfl
    cases kind <;> first | rfl | exact hp | exact pushState_eq (length_lt_of_not_refused hc rfl hr)
  | .objectContinue :: rest, h =>
    have hp : (do
        let jsm ← jsmPopStateAfterReadingValue (jsmOf (.objectContinue :: rest) capacity)
        return (true, jsm)) = some (true, jsmOf (afterValue rest) capacity) := by
      rw [popAfterValue_eq (ContextOK.tail .objectContinue rfl h)]; rfl
    have hpush : rest.length + 1 < capacity → (do
        let (isStateUpdated, jsm) ←
          jsmPushState (jsmOf (.objectContinue :: rest) capacity) .objectKeyStart
        if isStateUpdated then return (isStateUpdated, jsm) else none) =
          some (true, jsmOf (.objectKeyStart :: .objectContinue :: rest) capacity) := by
      intro hlt
      rw [pushState_eq (by simpa using hlt)]
      rfl
    cases kind <;>
      first | rfl | exact hp | exact hpush (length_lt_of_not_refused hc rfl hr)
  | .objectKeyStart :: rest, h => cases kind <;> rfl
  | .objectKvSeparator :: rest, h => cases kind <;> rfl
  | [.root], h => cases kind <;> rfl

end Scomp
