/-
Where the slots of the shapes repository are, over whole streams of tokens
that the state machine accepts. The stack of shapes in progress has an entry
for each object the machine is in, so the nesting limit bounds both.
-/
import Scomp.Json.ShapesRepositoryFacts
import Scomp.Json.StateMachineSafety

namespace Scomp

/-! ## Objects the state machine is in -/

def jsmOpenObjects (stack : List JsonState) : Nat := stack.countP isObjectState

theorem jsmOpenObjects_cons (state : JsonState) (rest : List JsonState) :
    jsmOpenObjects (state :: rest) = jsmOpenObjects rest + if isObjectState state then 1 else 0 := by
  simp [jsmOpenObjects, List.countP_cons]

@[simp] theorem jsmOpenObjects_afterValue (rest : List JsonState) :
    jsmOpenObjects (afterValue rest) = jsmOpenObjects rest := by
  match rest with
  | [] => rfl
  | state :: rest => cases state <;> simp [afterValue, jsmOpenObjects_cons, isObjectState]

theorem startValue_openObjects {rest stack' : List JsonState} {kind : JsonTokenKind}
    (h : startValue rest kind = some stack') :
    jsmOpenObjects stack' = jsmOpenObjects rest + (if kind = .objectOpen then 1 else 0) ∧
      kind ≠ .objectClose := by
  cases kind <;> simp only [startValue, Option.some.injEq, reduceCtorEq] at h <;> subst h <;>
    simp [jsmOpenObjects_cons, isObjectState]

/-- An accepted token opens an object, closes one, or neither. -/
theorem jsmStep_openObjects {stack stack' : List JsonState} {kind : JsonTokenKind}
    (hs : jsmStep stack kind = some stack') :
    jsmOpenObjects stack' + (if kind = .objectClose then 1 else 0) =
      jsmOpenObjects stack + if kind = .objectOpen then 1 else 0 := by
  have hvalue : ∀ {rest : List JsonState}, startValue rest kind = some stack' →
      jsmOpenObjects stack' + (if kind = .objectClose then 1 else 0) =
        jsmOpenObjects rest + if kind = .objectOpen then 1 else 0 := by
    intro rest h
    obtain ⟨hcount, hclose⟩ := startValue_openObjects h
    rw [hcount, if_neg hclose, Nat.add_zero]
  match stack with
  | [] => cases hs
  | state :: rest =>
    cases state with
    | start =>
      by_cases hb : kind = .bom
      · subst hb
        simp only [jsmStep, if_true, Option.some.injEq] at hs
        subst hs
        simp [jsmOpenObjects_cons, isObjectState]
      · simp only [jsmStep, if_neg hb] at hs
        simpa [jsmOpenObjects_cons, isObjectState] using hvalue hs
    | value => simpa [jsmOpenObjects_cons, isObjectState] using hvalue hs
    | root =>
      cases rest <;> cases kind <;> simp only [jsmStep, Option.some.injEq, reduceCtorEq] at hs
      subst hs; rfl
    | _ =>
      cases kind <;> simp [jsmStep, startValue, isStringCharacterKind] at hs <;> subst hs <;>
        simp [jsmOpenObjects_cons, isObjectState]

/-- A key is inside an object. -/
theorem jsmOpenObjects_pos_of_objectKey {rest : List JsonState} (h : StackOK (.objectKey :: rest)) :
    0 < jsmOpenObjects (.objectKey :: rest) := by
  obtain ⟨hcontext, hhead⟩ := h
  rcases hcontext.cases with rfl | ⟨state, below, rfl, -, -⟩
  · exact absurd (hhead .root rfl) (by decide)
  · have hstate : isObjectState state = true := hhead state rfl
    simp only [jsmOpenObjects_cons, hstate, if_true]
    omega

/-- An accepted token takes `jsmStep`'s step. -/
theorem jsmStep_of_accepted {stack : List JsonState} {kind : JsonTokenKind} {capacity : Nat}
    {jsm' : JsonStateMachine} (h : StackSafe stack capacity)
    (ha : jsmProcessToken (jsmOf stack capacity) kind = some (true, jsm')) :
    ∃ stack', jsmStep stack kind = some stack' ∧ jsm' = jsmOf stack' capacity ∧ StackSafe stack' capacity := by
  cases hr : jsmPushRefused (jsmOf stack capacity) kind with
  | true =>
    rw [jsmProcessToken_refused h hr] at ha
    cases ha
  | false =>
    rw [jsmProcessToken_eq h.ok h.fits hr, jsmStepResult] at ha
    cases hs : jsmStep stack kind with
    | some stack' =>
      rw [hs] at ha
      cases ha
      exact ⟨stack', rfl, rfl, jsmStep_stackOK h.ok hs, jsmStep_length_le h.fits hr hs,
        jsmStep_room h.room h.fits hs⟩
    | none =>
      rw [hs] at ha
      cases ha

/-! ## Streams -/

/-- What is fed to the repository: a token at its address, or a byte of a key. -/
inductive JsrEvent
  | token (token : JsonToken) (address : Nat)
  | keyByte (b : Byte)

/-- Which state of the machine a token is passed with: the one it meets or
the one it leaves. -/
inductive JsrMoment
  | before
  | after

def JsrMoment.machine (before after : JsonStateMachine) : JsrMoment → JsonStateMachine
  | .before => before
  | .after => after

/-- The machine accepts the token; a key byte comes while a key is read. -/
def jsrAcceptEvent (jsm : JsonStateMachine) : JsrEvent → Option JsonStateMachine
  | .token token _ => do
    let (isAccepted, jsm) ← jsmProcessToken jsm token.kind
    if isAccepted then return jsm else none
  | .keyByte _ => if jsmGetCurrentState jsm = some .objectKey then some jsm else none

theorem jsrAcceptEvent_token {jsm jsm' : JsonStateMachine} {token : JsonToken} {address : Nat}
    (h : jsrAcceptEvent jsm (.token token address) = some jsm') :
    jsmProcessToken jsm token.kind = some (true, jsm') := by
  simp only [jsrAcceptEvent, Option.bind_eq_bind, Option.bind_eq_some_iff] at h
  obtain ⟨⟨isAccepted, after⟩, hprocess, hafter⟩ := h
  cases isAccepted with
  | false => simp at hafter
  | true => simp at hafter; rw [hprocess, hafter]

/-- The stream is accepted from the start of a document. -/
def JsrAccepts (events : List JsrEvent) : Prop := (events.foldlM jsrAcceptEvent jsmInit).isSome = true

instance (events : List JsrEvent) : Decidable (JsrAccepts events) := inferInstanceAs (Decidable (_ = true))

def jsrFeedEvent (moment : JsrMoment) (repo : JsonShapesRepository) (before after : JsonStateMachine) :
    JsrEvent → Option JsonShapesRepository
  | .token token address => do
    jsrProcessToken repo token address (← jsmGetCurrentState (moment.machine before after))
  | .keyByte b => jsrPushKeyByte repo b

def jsrStep (moment : JsrMoment) (state : JsonStateMachine × JsonShapesRepository) (event : JsrEvent) :
    Option (JsonStateMachine × JsonShapesRepository) := do
  let jsm ← jsrAcceptEvent state.1 event
  let repo ← jsrFeedEvent moment state.2 state.1 jsm event
  return (jsm, repo)

/-- The state machine and the repository after the stream. -/
def jsrRun (moment : JsrMoment) (repo : JsonShapesRepository) (events : List JsrEvent) :
    Option (JsonStateMachine × JsonShapesRepository) :=
  events.foldlM (jsrStep moment) (jsmInit, repo)

/-! ## Whole streams -/

/-- The machine's stack, and a shape in progress for each object it is in. -/
structure JsrInvariant (jsm : JsonStateMachine) (repo : JsonShapesRepository) : Prop where
  slots : JsrSlots repo
  machine : ∃ stack, jsm = jsmOf stack JSON_MAX_STATE_STACK_LENGTH ∧
    StackSafe stack JSON_MAX_STATE_STACK_LENGTH ∧
    repo.shapesInProgress.values.length = jsmOpenObjects stack

theorem JsrInvariant.init (freshStale matureStale : Nat → FalEntry Nat)
    (references : Nat → JsonTokenShapeReference) :
    JsrInvariant jsmInit (jsrInit freshStale matureStale references) where
  slots := .init freshStale matureStale references
  machine := ⟨[.start, .root], rfl, ⟨rfl, by decide, by simp [RoomOK]⟩, rfl⟩

theorem jsmGetCurrentState_objectKey {stack : List JsonState} {capacity : Nat} (h : StackSafe stack capacity)
    (hs : jsmGetCurrentState (jsmOf stack capacity) = some .objectKey) : 0 < jsmOpenObjects stack := by
  match stack, h.ok with
  | [], _ => cases hs
  | state :: rest, hok =>
    have hstate : state = .objectKey := by simpa [jsmGetCurrentState, fstackPeek, jsmOf] using hs
    subst hstate
    exact jsmOpenObjects_pos_of_objectKey hok

/-- A token is passed with a state of the machine, OBJECT_KEY only inside an object. -/
theorem jsrMoment_state {stack stack' : List JsonState} (moment : JsrMoment)
    (h : StackSafe stack JSON_MAX_STATE_STACK_LENGTH) (h' : StackSafe stack' JSON_MAX_STATE_STACK_LENGTH) :
    ∃ state, jsmGetCurrentState (moment.machine (jsmOf stack JSON_MAX_STATE_STACK_LENGTH)
        (jsmOf stack' JSON_MAX_STATE_STACK_LENGTH)) = some state ∧
      (state = .objectKey → jsmOpenObjects stack' = jsmOpenObjects stack → 0 < jsmOpenObjects stack) := by
  cases moment with
  | before =>
    obtain ⟨state, hstate⟩ := JsmOK.currentState ⟨stack, rfl, h⟩
    refine ⟨state, hstate, fun hkey _ => ?_⟩
    subst hkey
    exact jsmGetCurrentState_objectKey h hstate
  | after =>
    obtain ⟨state, hstate⟩ := JsmOK.currentState ⟨stack', rfl, h'⟩
    refine ⟨state, hstate, fun hkey hsame => ?_⟩
    subst hkey
    rw [← hsame]
    exact jsmGetCurrentState_objectKey h' hstate

/-- One event, unless it closes an object that still has its shape. -/
theorem JsrInvariant.step {jsm jsm' : JsonStateMachine} {repo : JsonShapesRepository} {event : JsrEvent}
    (moment : JsrMoment) (h : JsrInvariant jsm repo) (ha : jsrAcceptEvent jsm event = some jsm')
    (hclose : ∀ token address, event = .token token address → token.kind = .objectClose →
      jsrGetCurrentShape repo = some none) :
    ∃ repo', jsrFeedEvent moment repo jsm jsm' event = some repo' ∧ JsrInvariant jsm' repo' := by
  obtain ⟨hslots, stack, rfl, hsafe, hlength⟩ := h
  cases event with
  | keyByte b =>
    by_cases hkey : jsmGetCurrentState (jsmOf stack JSON_MAX_STATE_STACK_LENGTH) = some .objectKey
    · simp only [jsrAcceptEvent, if_pos hkey, Option.some.injEq] at ha
      subst ha
      have hpos := jsmGetCurrentState_objectKey hsafe hkey
      obtain ⟨repo', hpush, hslots', hlength'⟩ := hslots.pushKeyByte b (by omega)
      exact ⟨repo', hpush, hslots', stack, rfl, hsafe, by omega⟩
    · simp [jsrAcceptEvent, hkey] at ha
  | token token address =>
    obtain ⟨stack', hstep, rfl, hsafe'⟩ := jsmStep_of_accepted hsafe (jsrAcceptEvent_token ha)
    have hcount := jsmStep_openObjects hstep
    obtain ⟨state, hstate, hinside⟩ := jsrMoment_state moment hsafe hsafe'
    simp only [jsrFeedEvent, hstate, Option.bind_eq_bind, Option.bind_some]
    by_cases hkey : state = .objectKey ∧ token.kind = .stringDelimiter
    · simp only [hkey.2, reduceCtorEq, if_false, Nat.add_zero] at hcount
      have hpos := hinside hkey.1 hcount
      obtain ⟨repo', hpush, hslots', hlength'⟩ := hslots.pushKeyByte 1 (by omega)
      exact ⟨repo', by rw [jsrProcessToken, if_pos hkey, hpush], hslots', stack', rfl, hsafe', by omega⟩
    by_cases hopen : token.kind = .objectOpen
    · simp only [hopen, reduceCtorEq, if_false, if_true, Nat.add_zero] at hcount
      have hroom : jsmOpenObjects stack' ≤ JSON_MAX_STATE_STACK_LENGTH :=
        le_trans List.countP_le_length hsafe'.fits
      obtain ⟨repo', slot, hrun, hslots', hvalues⟩ := hslots.openObject token address state hopen (by omega)
      exact ⟨repo', hrun, hslots', stack', rfl, hsafe', by rw [hvalues, List.length_cons]; omega⟩
    by_cases hcloses : token.kind = .objectClose
    · simp only [hcloses, reduceCtorEq, if_false, if_true, Nat.add_zero] at hcount
      obtain ⟨top, rest, hvalues⟩ := @List.exists_cons_of_length_pos _ repo.shapesInProgress.values (by omega)
      have htop : top = none := by
        simpa [jsrGetCurrentShape, fstackPeek, hvalues] using hclose token address rfl hcloses
      subst htop
      obtain ⟨repo', hrun, hslots', hrest⟩ := hslots.closeDropped hvalues
      rw [hvalues, List.length_cons] at hlength
      refine ⟨repo', ?_, hslots', stack', rfl, hsafe', by rw [hrest]; omega⟩
      rw [jsrProcessToken, if_neg hkey, if_neg hopen, if_pos hcloses, hrun]
    · simp only [hopen, hcloses, if_false, Nat.add_zero] at hcount
      refine ⟨repo, ?_, hslots, stack', rfl, hsafe', by omega⟩
      rw [jsrProcessToken, if_neg hkey, if_neg hopen, if_neg hcloses]
      rfl

/-- Whenever an object is closed, its shape was dropped. -/
def JsrClosesDropped (moment : JsrMoment) (repo : JsonShapesRepository) (events : List JsrEvent) : Prop :=
  ∀ past token address, past ++ [.token token address] <+: events → token.kind = .objectClose →
    ∀ jsm' repo', jsrRun moment repo past = some (jsm', repo') → jsrGetCurrentShape repo' = some none

theorem jsrRun_snoc (moment : JsrMoment) (repo : JsonShapesRepository) (events : List JsrEvent) (event : JsrEvent) :
    jsrRun moment repo (events ++ [event]) =
      (jsrRun moment repo events).bind fun state => jsrStep moment state event := by
  simp [jsrRun, List.foldlM_append]

theorem jsrStep_eq {moment : JsrMoment} {jsm jsm' : JsonStateMachine} {repo repo' : JsonShapesRepository}
    {event : JsrEvent} (ha : jsrAcceptEvent jsm event = some jsm')
    (hf : jsrFeedEvent moment repo jsm jsm' event = some repo') :
    jsrStep moment (jsm, repo) event = some (jsm', repo') := by
  simp [jsrStep, ha, hf]

/-- A run whose closed objects were all dropped keeps the invariant. -/
theorem JsrInvariant.run {repo : JsonShapesRepository} (moment : JsrMoment) (h : JsrInvariant jsmInit repo)
    (events : List JsrEvent) : ∀ jsm, events.foldlM jsrAcceptEvent jsmInit = some jsm →
    JsrClosesDropped moment repo events →
    ∃ repo', jsrRun moment repo events = some (jsm, repo') ∧ JsrInvariant jsm repo' := by
  induction events using List.reverseRecOn with
  | nil =>
    intro jsm ha _
    cases ha
    exact ⟨repo, rfl, h⟩
  | append_singleton events event ih =>
    intro jsm' ha hclose
    simp only [List.foldlM_append, List.foldlM_cons, List.foldlM_nil, Option.bind_eq_bind,
      Option.bind_eq_some_iff] at ha
    obtain ⟨jsm, hbefore, after, hevent, hafter⟩ := ha
    cases hafter
    obtain ⟨repo', hrun, hinv⟩ := ih jsm hbefore fun past token address hpast =>
      hclose past token address (hpast.trans (List.prefix_append _ _))
    obtain ⟨repo'', hfeed, hinv'⟩ := hinv.step moment hevent fun token address he hk =>
      hclose events token address (by rw [he]) hk jsm repo' hrun
    exact ⟨repo'', by rw [jsrRun_snoc, hrun, Option.bind_some, jsrStep_eq hevent hfeed], hinv'⟩

/-- Closing an object that still has its shape ends the conservation. -/
theorem JsrInvariant.close_loses {moment : JsrMoment} {jsm jsm' : JsonStateMachine}
    {repo repo' : JsonShapesRepository} (h : JsrInvariant jsm repo) {token : JsonToken} {address slot : Nat}
    (hk : token.kind = .objectClose) (htop : jsrGetCurrentShape repo = some (some slot))
    (hrun : jsrStep moment (jsm, repo) (.token token address) = some (jsm', repo')) : ¬JsrConserves repo' := by
  intro hconserves
  simp only [jsrStep, jsrFeedEvent, Option.bind_eq_bind, Option.bind_eq_some_iff] at hrun
  obtain ⟨after, -, repo'', ⟨state, -, hprocess⟩, heq⟩ := hrun
  cases heq
  simp only [jsrProcessToken, hk, reduceCtorEq, and_false, if_false, if_true] at hprocess
  have hvalues : ∃ rest, repo.shapesInProgress.values = some slot :: rest := by
    rcases hv : repo.shapesInProgress.values with _ | ⟨top, rest⟩
    · simp [jsrGetCurrentShape, fstackPeek, hv] at htop
    · simp only [jsrGetCurrentShape, fstackPeek, hv, List.head?_cons, Option.some.injEq] at htop
      exact ⟨rest, by rw [htop]⟩
  obtain ⟨rest, hvalues⟩ := hvalues
  obtain ⟨hslot, hzero⟩ := h.slots.complete_loses hvalues hprocess
  have hone := hconserves.placed slot hslot
  omega

/-- In every state of the run, the first and the last included, nothing is lost. -/
def JsrRunConserves (moment : JsrMoment) (repo : JsonShapesRepository) (events : List JsrEvent) : Prop :=
  ∀ past, past <+: events → ∃ jsm' repo', jsrRun moment repo past = some (jsm', repo') ∧ JsrConserves repo'

theorem JsrAccepts.of_prefix {past events : List JsrEvent} (h : JsrAccepts events) (hp : past <+: events) :
    ∃ jsm, past.foldlM jsrAcceptEvent jsmInit = some jsm := by
  obtain ⟨rest, rfl⟩ := hp
  rw [JsrAccepts, List.foldlM_append, Option.isSome_iff_exists] at h
  obtain ⟨jsm', h⟩ := h
  obtain ⟨jsm, hpast, -⟩ := Option.bind_eq_some_iff.1 h
  exact ⟨jsm, hpast⟩

/-- The first close of an object that still has its shape is what breaks a run. -/
theorem JsrRunConserves.closesDropped {moment : JsrMoment} {repo : JsonShapesRepository} {events : List JsrEvent}
    (h : JsrInvariant jsmInit repo) (hc : JsrRunConserves moment repo events) (ha : JsrAccepts events) :
    JsrClosesDropped moment repo events := by
  intro past
  induction hn : past.length using Nat.strongRecOn generalizing past with
  | ind n ih =>
    intro token address hp hk jsm' repo' hrun
    have hpast : past <+: events := (List.prefix_append past _).trans hp
    have hearlier : JsrClosesDropped moment repo past := by
      intro earlier token' address' hp' hk'
      have hlt : earlier.length < n := by
        have hle := hp'.length_le
        rw [List.length_append, List.length_singleton] at hle
        omega
      exact ih earlier.length hlt earlier rfl token' address' (hp'.trans hpast) hk'
    obtain ⟨jsm, hjsm⟩ := ha.of_prefix hpast
    obtain ⟨repo₁, hrun₁, hinv⟩ := h.run moment past jsm hjsm hearlier
    rw [hrun₁] at hrun
    cases hrun
    obtain ⟨jsm₂, repo₂, hrun₂, hconserves⟩ := hc _ hp
    rw [jsrRun_snoc, hrun₁, Option.bind_some] at hrun₂
    rcases htop : jsrGetCurrentShape repo' with _ | (_ | slot)
    · -- an accepted close has its object on the stack
      simp only [jsrStep, jsrFeedEvent, Option.bind_eq_bind, Option.bind_eq_some_iff] at hrun₂
      obtain ⟨after, -, repo'', ⟨state, -, hprocess⟩, -⟩ := hrun₂
      have hnil : repo'.shapesInProgress.values = [] := by
        simpa [jsrGetCurrentShape, fstackPeek] using htop
      simp [jsrProcessToken, hk, jsrCompleteCurrentShape, fstackPop, hnil] at hprocess
    · rfl
    · exact absurd hconserves (hinv.close_loses hk htop hrun₂)

/-- **When the repository neither leaks nor loses a shape**: exactly as long
as every object that is closed had its shape dropped before. -/
theorem jsr_conserves_iff (moment : JsrMoment) (freshStale matureStale : Nat → FalEntry Nat)
    (references : Nat → JsonTokenShapeReference) {events : List JsrEvent} (ha : JsrAccepts events) :
    JsrRunConserves moment (jsrInit freshStale matureStale references) events ↔
      JsrClosesDropped moment (jsrInit freshStale matureStale references) events := by
  have hinit := JsrInvariant.init freshStale matureStale references
  constructor
  · intro hc
    exact hc.closesDropped hinit ha
  · intro hclose past hp
    obtain ⟨jsm, hjsm⟩ := ha.of_prefix hp
    obtain ⟨repo, hrun, hinv⟩ := hinit.run moment past jsm hjsm fun earlier token address hp' =>
      hclose earlier token address (hp'.trans hp)
    exact ⟨jsm, repo, hrun, hinv.slots.conserves⟩

/-- A repository in zeroed memory. -/
def jsrZeroed : JsonShapesRepository :=
  jsrInit (fun _ => ⟨none, none, none⟩) (fun _ => ⟨none, none, none⟩) fun _ => ⟨none, 0⟩

/-- `[{"kkk..":null`, where the key has 1025 bytes. -/
def jsrDroppedObject : List JsrEvent :=
  [.token { kind := .arrayOpen } 0, .token { kind := .objectOpen } 1, .token { kind := .stringDelimiter } 2] ++
    List.replicate (JSON_SHAPE_SUM_KEY_LENGTH + 1) (.keyByte 0x6b) ++
    [.token { kind := .stringDelimiter } 3, .token { kind := .kvSeparator } 4, .token { kind := .null } 5]

theorem jsrDroppedObject_no_close {token : JsonToken} {address : Nat}
    (h : JsrEvent.token token address ∈ jsrDroppedObject) : token.kind ≠ .objectClose := by
  simp only [jsrDroppedObject, List.mem_append, List.mem_cons, List.mem_replicate, JsrEvent.token.injEq,
    reduceCtorEq, and_false, List.not_mem_nil, or_false] at h
  rcases h with (h | h | h) | h | h | h <;> simp [h.1]

/-- The object is closed without its shape, and its slot is free again. -/
theorem jsr_conserves_dropped_object :
    JsrRunConserves .after jsrZeroed (jsrDroppedObject ++ [.token { kind := .objectClose } 6]) := by
  refine (jsr_conserves_iff .after _ _ _ (by decide +kernel)).2 ?_
  intro past token address hp hk jsm repo hrun
  rcases List.prefix_concat_iff.1 hp with heq | hearlier
  · obtain ⟨rfl, -⟩ := List.append_inj' heq rfl
    have htop : (jsrRun .after jsrZeroed jsrDroppedObject).map (fun state => jsrGetCurrentShape state.2) =
        some (some none) := by decide +kernel
    rw [show jsrRun .after jsrZeroed jsrDroppedObject = some (jsm, repo) from hrun] at htop
    exact Option.some.inj htop
  · have hmem : JsrEvent.token token address ∈ jsrDroppedObject := hearlier.subset (by simp)
    exact absurd hk (jsrDroppedObject_no_close hmem)

/-- `{}`: the shape of the object is nowhere once it is closed. -/
theorem jsr_loses_first_shape :
    JsrAccepts [.token { kind := .objectOpen } 0, .token { kind := .objectClose } 1] ∧
      ¬JsrRunConserves .after jsrZeroed [.token { kind := .objectOpen } 0, .token { kind := .objectClose } 1] := by
  have haccepts : JsrAccepts [.token { kind := .objectOpen } 0, .token { kind := .objectClose } 1] := by decide
  refine ⟨haccepts, fun hc => ?_⟩
  have hinit : JsrInvariant jsmInit jsrZeroed := .init _ _ _
  obtain ⟨repo, slot, hopen, -, hvalues⟩ :=
    hinit.slots.openObject { kind := .objectOpen } 0 .objectStart rfl (by decide)
  have hrun : jsrRun .after jsrZeroed [.token { kind := .objectOpen } 0] =
      some (jsmOf [.objectStart, .root] JSON_MAX_STATE_STACK_LENGTH, repo) := by
    have haccept : jsrAcceptEvent jsmInit (.token { kind := .objectOpen } 0) =
        some (jsmOf [.objectStart, .root] JSON_MAX_STATE_STACK_LENGTH) := by decide
    have hstate : jsmGetCurrentState (JsrMoment.after.machine jsmInit
        (jsmOf [.objectStart, .root] JSON_MAX_STATE_STACK_LENGTH)) = some .objectStart := by decide
    have hstep := @jsrStep_eq .after _ _ _ repo _ haccept
      (by simp only [jsrFeedEvent, hstate, Option.bind_eq_bind, Option.bind_some]; exact hopen)
    simp only [jsrRun, List.foldlM_cons, List.foldlM_nil, hstep, Option.bind_eq_bind, Option.bind_some]
    rfl
  have hdropped := hc.closesDropped hinit haccepts [.token { kind := .objectOpen } 0] { kind := .objectClose } 1
    (List.prefix_refl _) rfl _ _ hrun
  simp [jsrGetCurrentShape, fstackPeek, hvalues] at hdropped

end Scomp
