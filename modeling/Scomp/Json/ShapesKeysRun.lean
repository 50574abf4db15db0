/-
What the shapes know about their objects' keys, over whole streams of tokens.

The stream alone says which objects are open and what their key bytes are.
The repository records exactly these, until an object that is opened after
one whose key bytes were too many gets a key byte or is closed:
`_jsr_setup_shape` does not reset `keys_length`, and the long one's slot is
the next to be handed out.
-/
import Scomp.Json.ShapesKeys
import Scomp.Json.ShapesConservation

namespace Scomp

/-! ## The objects of a stream -/

/-- The open objects after an event, the innermost first. -/
def jsrObjectsEvent (moment : JsrMoment) (objects : List JsrObject) (before after : JsonStateMachine) :
    JsrEvent → List JsrObject
  | .token token address =>
    if jsmGetCurrentState (moment.machine before after) = some .objectKey ∧ token.kind = .stringDelimiter then
      -- the separator is a key byte, too
      jsrExtend objects 1
    else if token.kind = .objectOpen then { address := address, keys := [] } :: objects
    else if token.kind = .objectClose then objects.tail
    else objects
  | .keyByte b => jsrExtend objects b

def jsrObjectsStep (moment : JsrMoment) (state : JsonStateMachine × List JsrObject) (event : JsrEvent) :
    Option (JsonStateMachine × List JsrObject) := do
  let jsm ← jsrAcceptEvent state.1 event
  return (jsm, jsrObjectsEvent moment state.2 state.1 jsm event)

/-- The state machine and the open objects after the stream. -/
def jsrObjects (moment : JsrMoment) (events : List JsrEvent) : Option (JsonStateMachine × List JsrObject) :=
  events.foldlM (jsrObjectsStep moment) (jsmInit, [])

/-- No object has had more key bytes than fit. -/
def JsrWithin (moment : JsrMoment) (events : List JsrEvent) : Prop :=
  ∀ past, past <+: events → ∀ jsm objects, jsrObjects moment past = some (jsm, objects) →
    ∀ object ∈ objects, object.keys.length ≤ JSON_SHAPE_SUM_KEY_LENGTH

/-- No object is opened after one has had more key bytes than fit. -/
def JsrOpensWithin (moment : JsrMoment) (events : List JsrEvent) : Prop :=
  ∀ past token address, past ++ [.token token address] <+: events → token.kind = .objectOpen → JsrWithin moment past

/-- A key byte, a separator of keys, or a token that closes an object. -/
def JsrUses (moment : JsrMoment) (jsm : JsonStateMachine) : JsrEvent → Prop
  | .token token address => token.kind = .objectClose ∨ token.kind = .stringDelimiter ∧
      ∃ jsm', jsrAcceptEvent jsm (.token token address) = some jsm' ∧
        jsmGetCurrentState (moment.machine jsm jsm') = some .objectKey
  | .keyByte _ => jsmGetCurrentState jsm = some .objectKey

/-- No object that is opened after one has had more key bytes than fit gets a
key byte or is closed, as far as the run goes. -/
def JsrUsesWithin (moment : JsrMoment) (repo : JsonShapesRepository) (events : List JsrEvent) : Prop :=
  ∀ past token address more event, past ++ .token token address :: (more ++ [event]) <+: events →
    token.kind = .objectOpen → ∀ jsm repo', jsrRun moment repo (past ++ .token token address :: more) = some (jsm, repo') →
      JsrUses moment jsm event → JsrWithin moment past

/-- An object with these key bytes was closed with its shape in this slot. -/
def JsrClosedWith (moment : JsrMoment) (repo : JsonShapesRepository) (events : List JsrEvent) (slot : Nat)
    (keys : List Byte) : Prop :=
  ∃ past token address, past ++ [.token token address] <+: events ∧ token.kind = .objectClose ∧
    ∃ jsm repo' object objects, jsrRun moment repo past = some (jsm, repo') ∧
      jsrObjects moment past = some (jsm, object :: objects) ∧ jsrGetCurrentShape repo' = some (some slot) ∧
      object.keys = keys

/-! ## One event -/

theorem jsrObjects_snoc {moment : JsrMoment} {events : List JsrEvent} {event : JsrEvent} {jsm jsm' : JsonStateMachine}
    {objects : List JsrObject} (h : jsrObjects moment events = some (jsm, objects))
    (ha : jsrAcceptEvent jsm event = some jsm') :
    jsrObjects moment (events ++ [event]) = some (jsm', jsrObjectsEvent moment objects jsm jsm' event) := by
  rw [jsrObjects] at h
  simp [jsrObjects, List.foldlM_append, h, jsrObjectsStep, ha]

theorem jsrWithin_snoc {moment : JsrMoment} {events : List JsrEvent} {event : JsrEvent} {jsm : JsonStateMachine}
    {objects : List JsrObject} (hobjects : jsrObjects moment (events ++ [event]) = some (jsm, objects)) :
    JsrWithin moment (events ++ [event]) ↔
      JsrWithin moment events ∧ ∀ object ∈ objects, object.keys.length ≤ JSON_SHAPE_SUM_KEY_LENGTH := by
  constructor
  · intro h
    exact ⟨fun past hp => h past (hp.trans (List.prefix_append _ _)), h _ (List.prefix_refl _) jsm objects hobjects⟩
  · rintro ⟨hearlier, hlast⟩ past hp jsm' objects' hobjects'
    rcases List.prefix_concat_iff.1 hp with rfl | hp
    · rw [hobjects] at hobjects'
      cases hobjects'
      exact hlast
    · exact hearlier past hp jsm' objects' hobjects'

theorem jsrClosedWith_snoc {moment : JsrMoment} {repo repo' : JsonShapesRepository} {events : List JsrEvent}
    {event : JsrEvent} {jsm : JsonStateMachine} {objects : List JsrObject}
    (hrun : jsrRun moment repo events = some (jsm, repo')) (hobjects : jsrObjects moment events = some (jsm, objects))
    (slot : Nat) (keys : List Byte) :
    JsrClosedWith moment repo (events ++ [event]) slot keys ↔ JsrClosedWith moment repo events slot keys ∨
      ∃ token address, event = .token token address ∧ token.kind = .objectClose ∧
        jsrGetCurrentShape repo' = some (some slot) ∧ (objects.head?.map JsrObject.keys) = some keys := by
  constructor
  · rintro ⟨past, token, address, hp, hk, jsm', repo'', object, rest, hrun', hobjects', hcurrent, rfl⟩
    rcases List.prefix_concat_iff.1 hp with heq | hearlier
    · obtain ⟨rfl, hevent⟩ := List.append_inj' heq rfl
      cases hevent
      rw [hrun] at hrun'
      rw [hobjects] at hobjects'
      cases hrun'
      cases hobjects'
      exact .inr ⟨token, address, rfl, hk, hcurrent, rfl⟩
    · exact .inl ⟨past, token, address, hearlier, hk, jsm', repo'', object, rest, hrun', hobjects', hcurrent, rfl⟩
  · intro h
    rcases h with ⟨past, token, address, hp, hrest⟩ | ⟨token, address, rfl, hk, hcurrent, hkeys⟩
    · exact ⟨past, token, address, hp.trans (List.prefix_append _ _), hrest⟩
    · rcases objects with _ | ⟨object, rest⟩
      · cases hkeys
      · exact ⟨events, token, address, List.prefix_refl _, hk, jsm, repo', object, rest, hrun, hobjects, hcurrent,
          by simpa using hkeys⟩

section

variable {moment : JsrMoment} {repo repo' : JsonShapesRepository} {jsm jsm' : JsonStateMachine}
  {objects : List JsrObject} {closed : Nat → List Byte → Prop} {within : Prop} {event : JsrEvent}

/-- What one event leaves, unless it opens an object in a slot that may not be clean. -/
theorem JsrKept.step (h : JsrKept repo objects closed within)
    (hrun : jsrFeedEvent moment repo jsm jsm' event = some repo')
    (hopen : ∀ token address, event = .token token address → token.kind = .objectOpen → within) :
    JsrKept repo' (jsrObjectsEvent moment objects jsm jsm' event)
      (fun slot keys => closed slot keys ∨ ∃ token address, event = .token token address ∧ token.kind = .objectClose ∧
        jsrGetCurrentShape repo = some (some slot) ∧ (objects.head?.map JsrObject.keys) = some keys)
      (within ∧ ∀ object ∈ jsrObjectsEvent moment objects jsm jsm' event,
        object.keys.length ≤ JSON_SHAPE_SUM_KEY_LENGTH) := by
  cases event with
  | keyByte b => exact (h.pushKeyByte hrun).congr (fun slot keys => by simp) Iff.rfl
  | token token address =>
    rw [jsrFeedEvent, Option.bind_eq_bind, Option.bind_eq_some_iff] at hrun
    obtain ⟨state, hstate, hprocess⟩ := hrun
    rw [jsrObjectsEvent, hstate]
    by_cases hkey : state = .objectKey ∧ token.kind = .stringDelimiter
    · rw [jsrProcessToken, if_pos hkey] at hprocess
      rw [if_pos ⟨congrArg some hkey.1, hkey.2⟩]
      exact (h.pushKeyByte hprocess).congr (fun slot keys => by simp [hkey.2]) Iff.rfl
    rw [if_neg (fun hk => hkey ⟨Option.some.inj hk.1, hk.2⟩)]
    by_cases hopens : token.kind = .objectOpen
    · rw [if_pos hopens]
      have hopened := h.openObject (hopen token address rfl hopens) hopens hprocess
      exact hopened.congr (fun slot keys => by simp [hopens]) ⟨fun hw => hw.1, fun hw => ⟨hw, hopened.fits hw⟩⟩
    rw [if_neg hopens]
    by_cases hcloses : token.kind = .objectClose
    · rw [jsrProcessToken, if_neg hkey, if_neg hopens, if_pos hcloses] at hprocess
      rw [if_pos hcloses]
      obtain ⟨-, top, hvalues, -⟩ := jsrCompleteCurrentShape_cases h.cache hprocess
      have hrecorded := h.recorded
      rw [hvalues] at hrecorded
      obtain ⟨object, outer, -, -, rfl⟩ := List.forall₂_cons_right_iff.1 hrecorded
      have hcompleted := h.complete hprocess
      exact hcompleted.congr (fun slot keys => by simp [hcloses, eq_comm])
        ⟨fun hw => hw.1, fun hw => ⟨hw, hcompleted.fits hw⟩⟩
    · rw [jsrProcessToken, if_neg hkey, if_neg hopens, if_neg hcloses] at hprocess
      cases hprocess
      rw [if_neg hcloses]
      exact h.congr (fun slot keys => by simp [hcloses]) ⟨fun hw => hw.1, fun hw => ⟨hw, h.fits hw⟩⟩

end

/-! ## After a dropped object -/

/-- Where the machine is before the first key byte of an object. -/
def JsrBeforeKeys (moment : JsrMoment) (jsm : JsonStateMachine) : Prop :=
  jsmGetCurrentState jsm = some .objectStart ∨ moment = .before ∧ jsmGetCurrentState jsm = some .objectKey

/-- The current object has no key byte yet, but its shape has those of a
dropped one. -/
structure JsrStale (repo : JsonShapesRepository) (objects : List JsrObject) : Prop where
  opened : ∃ address outer slot rest, objects = { address := address, keys := [] } :: outer ∧
    repo.shapesInProgress.values = some slot :: rest ∧
    JSON_SHAPE_SUM_KEY_LENGTH ≤ (repo.shapes.data slot).keysLength
  dropped : List.Forall₂ (fun object shape => shape = none → JSON_SHAPE_SUM_KEY_LENGTH < object.keys.length) objects
    repo.shapesInProgress.values
  room : repo.shapes.freeSlots.values.length < repo.shapes.freeSlots.itemCapacity

theorem JsrKept.dropped {repo : JsonShapesRepository} {objects : List JsrObject} {closed : Nat → List Byte → Prop}
    {within : Prop} (h : JsrKept repo objects closed within) :
    List.Forall₂ (fun object shape => shape = none → JSON_SHAPE_SUM_KEY_LENGTH < object.keys.length) objects
      repo.shapesInProgress.values := by
  refine h.recorded.imp fun object shape hrecorded hnone => ?_
  subst hnone
  exact hrecorded

section

variable {moment : JsrMoment} {repo repo' : JsonShapesRepository} {jsm jsm' : JsonStateMachine}
  {objects : List JsrObject} {closed : Nat → List Byte → Prop} {within : Prop} {event : JsrEvent}
  {token : JsonToken} {address : Nat}

theorem JsmOK.accepted (h : JsmOK jsm) (ha : jsrAcceptEvent jsm (.token token address) = some jsm') :
    ∃ stack stack', jsm = jsmOf stack JSON_MAX_STATE_STACK_LENGTH ∧ jsmStep stack token.kind = some stack' ∧
      jsm' = jsmOf stack' JSON_MAX_STATE_STACK_LENGTH ∧ JsmOK jsm' := by
  obtain ⟨stack, rfl, hsafe⟩ := h
  obtain ⟨stack', hstep, rfl, hsafe'⟩ := jsmStep_of_accepted hsafe (jsrAcceptEvent_token ha)
  exact ⟨stack, stack', rfl, hstep, rfl, stack', rfl, hsafe'⟩

theorem startValue_objectOpen {rest stack' : List JsonState} (h : startValue rest .objectOpen = some stack') :
    stack'.head? = some .objectStart := by
  cases h
  rfl

theorem jsmStep_objectOpen {stack stack' : List JsonState} (h : jsmStep stack .objectOpen = some stack') :
    stack'.head? = some .objectStart := by
  match stack with
  | [] => cases h
  | state :: rest =>
    cases state with
    | start | value | arrayStart => exact startValue_objectOpen h
    | root => cases rest <;> cases h
    | _ => cases h

/-- Between OBJECT_OPEN and the first key byte no other object is opened. -/
theorem JsrBeforeKeys.step (h : JsrBeforeKeys moment jsm) (hok : JsmOK jsm)
    (ha : jsrAcceptEvent jsm event = some jsm') (hunused : ¬JsrUses moment jsm event) :
    JsrBeforeKeys moment jsm' ∧ ∃ token address, event = .token token address ∧ token.kind ≠ .objectOpen := by
  cases event with
  | keyByte b =>
    by_cases hkey : jsmGetCurrentState jsm = some .objectKey
    · exact absurd hkey hunused
    · simp [jsrAcceptEvent, hkey] at ha
  | token token address =>
    obtain ⟨stack, stack', rfl, hstep, rfl, -⟩ := hok.accepted ha
    have hclose : token.kind ≠ .objectClose := fun hk => hunused (.inl hk)
    have hseparator : token.kind = .stringDelimiter → jsmGetCurrentState (moment.machine
        (jsmOf stack JSON_MAX_STATE_STACK_LENGTH) (jsmOf stack' JSON_MAX_STATE_STACK_LENGTH)) ≠ some .objectKey :=
      fun hk hstate => hunused (.inr ⟨hk, _, ha, hstate⟩)
    rcases h with hstart | ⟨rfl, hkey⟩
    · obtain ⟨rest, rfl⟩ := List.head?_eq_some_iff.1 hstart
      cases hk : token.kind <;> rw [hk] at hstep <;> cases hstep
      · exact absurd hk hclose
      · cases moment with
        | before => exact ⟨.inr ⟨rfl, rfl⟩, token, address, rfl, by simp [hk]⟩
        | after => exact absurd rfl (hseparator hk)
      · exact ⟨.inl rfl, token, address, rfl, by simp [hk]⟩
    · obtain ⟨rest, rfl⟩ := List.head?_eq_some_iff.1 hkey
      have hstring : token.kind ≠ .stringDelimiter := fun hk => hseparator hk rfl
      simp only [jsmStep, if_neg hstring] at hstep
      split at hstep
      · next hcharacter =>
        cases hstep
        refine ⟨.inr ⟨rfl, rfl⟩, token, address, rfl, fun hk => ?_⟩
        rw [hk] at hcharacter
        cases hcharacter
      · cases hstep

/-- What is fed before the first key byte changes nothing. -/
theorem jsrFeedEvent_unused (hunused : ¬JsrUses moment jsm (.token token address)) (hopen : token.kind ≠ .objectOpen)
    (ha : jsrAcceptEvent jsm (.token token address) = some jsm')
    (hrun : jsrFeedEvent moment repo jsm jsm' (.token token address) = some repo') :
    repo' = repo ∧ jsrObjectsEvent moment objects jsm jsm' (.token token address) = objects := by
  have hclose : token.kind ≠ .objectClose := fun hk => hunused (.inl hk)
  rw [jsrFeedEvent, Option.bind_eq_bind, Option.bind_eq_some_iff] at hrun
  obtain ⟨state, hstate, hprocess⟩ := hrun
  have hseparator : ¬(state = .objectKey ∧ token.kind = .stringDelimiter) := by
    rintro ⟨rfl, hk⟩
    exact hunused (.inr ⟨hk, jsm', ha, hstate⟩)
  rw [jsrProcessToken, if_neg hseparator, if_neg hopen, if_neg hclose] at hprocess
  refine ⟨(Option.some.inj hprocess).symm, ?_⟩
  rw [jsrObjectsEvent, hstate, if_neg (fun hk => hseparator ⟨Option.some.inj hk.1, hk.2⟩), if_neg hopen, if_neg hclose]

/-- The object that is opened next gets the dropped one's slot. -/
theorem JsrKept.openStale (h : JsrKept repo objects closed within) (hexceeded : ¬within) {state : JsonState}
    (hk : token.kind = .objectOpen) (hrun : jsrProcessToken repo token address state = some repo') :
    JsrStale repo' ({ address := address, keys := [] } :: objects) := by
  obtain ⟨slot, free, hfree, hfree', hprogress, -, id, hdata⟩ := jsrProcessToken_open hk hrun
  obtain ⟨slot', free', hfree'', hlong⟩ := h.stale hexceeded
  rw [hfree] at hfree''
  cases hfree''
  refine ⟨⟨address, objects, slot, _, rfl, hprogress, ?_⟩, ?_, ?_⟩
  · rw [hdata, Function.update_self]
    exact hlong
  · rw [hprogress]
    exact .cons (fun hnone => by cases hnone) h.dropped
  · have hroom := h.room
    rw [hfree, List.length_cons] at hroom
    rw [hfree']
    show free.length < repo.shapes.freeSlots.itemCapacity
    omega

/-- Its first key byte drops the shape. -/
theorem JsrStale.pushKeyByte (h : JsrStale repo objects) (b : Byte) :
    ∃ repo' address outer rest, jsrPushKeyByte repo b = some repo' ∧
      jsrExtend objects b = { address := address, keys := [b] } :: outer ∧
      repo'.shapesInProgress.values = none :: rest := by
  obtain ⟨address, outer, slot, rest, rfl, hvalues, hlong⟩ := h.opened
  have hcurrent : jsrGetCurrentShape repo = some (some slot) := jsrGetCurrentShape_eq_some.2 ⟨rest, hvalues⟩
  have htop : fstackSetTop repo.shapesInProgress none =
      some { repo.shapesInProgress with values := none :: rest } := by simp [fstackSetTop, hvalues]
  have hrelease := @fpoolRelease_of_lt _ (repo.shapes.set slot
    { repo.shapes.data slot with sourceObjectShapeReference := none }) slot h.room
  simp only [jsrPushKeyByte, hcurrent, Option.bind_eq_bind, Option.bind_some, if_pos hlong, htop, hrelease]
  exact ⟨_, address, outer, rest, rfl, rfl, rfl⟩

end

/-! ## Whole streams -/

theorem jsrRun_of_snoc {moment : JsrMoment} {repo repo' : JsonShapesRepository} {events : List JsrEvent}
    {event : JsrEvent} {jsm' : JsonStateMachine} (h : jsrRun moment repo (events ++ [event]) = some (jsm', repo')) :
    ∃ jsm repo₁, jsrRun moment repo events = some (jsm, repo₁) ∧ jsrAcceptEvent jsm event = some jsm' ∧
      jsrFeedEvent moment repo₁ jsm jsm' event = some repo' := by
  rw [jsrRun_snoc, Option.bind_eq_some_iff] at h
  obtain ⟨⟨jsm, repo₁⟩, hrun, hstep⟩ := h
  simp only [jsrStep, Option.bind_eq_bind, Option.bind_eq_some_iff] at hstep
  obtain ⟨after, haccept, repo₂, hfeed, heq⟩ := hstep
  cases heq
  exact ⟨jsm, repo₁, hrun, haccept, hfeed⟩

theorem JsrOpensWithin.of_prefix {moment : JsrMoment} {past events : List JsrEvent} (h : JsrOpensWithin moment events)
    (hp : past <+: events) : JsrOpensWithin moment past :=
  fun earlier token address hp' => h earlier token address (hp'.trans hp)

theorem JsrOpensWithin.snoc {moment : JsrMoment} {events : List JsrEvent} {event : JsrEvent}
    (h : JsrOpensWithin moment events)
    (hopen : ∀ token address, event = .token token address → token.kind = .objectOpen → JsrWithin moment events) :
    JsrOpensWithin moment (events ++ [event]) := by
  intro past token address hp hk
  rcases List.prefix_concat_iff.1 hp with heq | hearlier
  · obtain ⟨rfl, hevent⟩ := List.append_inj' heq rfl
    exact hopen token address (List.singleton_inj.1 hevent.symm) hk
  · exact h past token address hearlier hk

theorem JsrUsesWithin.of_prefix {moment : JsrMoment} {repo : JsonShapesRepository} {past events : List JsrEvent}
    (h : JsrUsesWithin moment repo events) (hp : past <+: events) : JsrUsesWithin moment repo past :=
  fun earlier token address more event hp' => h earlier token address more event (hp'.trans hp)

theorem jsrRun_jsmOK {moment : JsrMoment} {repo : JsonShapesRepository} (events : List JsrEvent) :
    ∀ jsm repo', jsrRun moment repo events = some (jsm, repo') → JsmOK jsm := by
  induction events using List.reverseRecOn with
  | nil =>
    intro jsm repo' hrun
    cases hrun
    exact .init
  | append_singleton events event ih =>
    intro jsm' repo' hrun
    obtain ⟨jsm, repo₁, hrun₁, haccept, -⟩ := jsrRun_of_snoc hrun
    have hok := ih jsm repo₁ hrun₁
    cases event with
    | keyByte b =>
      rw [jsrAcceptEvent] at haccept
      split at haccept
      · cases haccept
        exact hok
      · cases haccept
    | token token address =>
      obtain ⟨-, -, -, -, -, hok'⟩ := hok.accepted haccept
      exact hok'

/-- As far as the run goes: either every object was opened in a clean slot, or
the current one was not and has no key byte yet. -/
inductive JsrPhase (moment : JsrMoment) (repo : JsonShapesRepository) (events : List JsrEvent) (jsm : JsonStateMachine)
    (repo' : JsonShapesRepository) (objects : List JsrObject) : Prop
  | kept (opens : JsrOpensWithin moment events)
      (kept : JsrKept repo' objects (JsrClosedWith moment repo events) (JsrWithin moment events))
  | stale (past : List JsrEvent) (token : JsonToken) (address : Nat) (more : List JsrEvent)
      (opened : events = past ++ .token token address :: more) (kind : token.kind = .objectOpen)
      (exceeded : ¬JsrWithin moment past) (machine : JsrBeforeKeys moment jsm) (stale : JsrStale repo' objects)

theorem jsrRun_phase {moment : JsrMoment} {repo : JsonShapesRepository} (h : JsrKept repo [] (fun _ _ => False) True)
    (events : List JsrEvent) : JsrUsesWithin moment repo events → ∀ jsm repo',
    jsrRun moment repo events = some (jsm, repo') → ∃ objects, jsrObjects moment events = some (jsm, objects) ∧
      JsrPhase moment repo events jsm repo' objects := by
  induction events using List.reverseRecOn with
  | nil =>
    intro _ jsm repo' hrun
    cases hrun
    refine ⟨[], rfl, .kept ?_ (h.congr (fun slot keys => iff_of_false ?_ id) (iff_of_true ?_ trivial))⟩
    · intro past token address hp
      simp at hp
    · rintro ⟨past, token, address, hp, -⟩
      simp at hp
    · intro past hp jsm objects hobjects
      rw [List.prefix_nil.1 hp] at hobjects
      cases hobjects
      simp
  | append_singleton events event ih =>
    intro huses jsm' repo' hrun
    obtain ⟨jsm, repo₁, hrun₁, haccept, hfeed⟩ := jsrRun_of_snoc hrun
    obtain ⟨objects, hobjects, hphase⟩ := ih (huses.of_prefix (List.prefix_append _ _)) jsm repo₁ hrun₁
    have hobjects' := jsrObjects_snoc hobjects haccept
    refine ⟨_, hobjects', ?_⟩
    cases hphase with
    | kept hopens hkept =>
      by_cases hstale : ∃ token address, event = .token token address ∧ token.kind = .objectOpen ∧ ¬JsrWithin moment events
      · obtain ⟨token, address, rfl, hk, hexceeded⟩ := hstale
        obtain ⟨stack, stack', -, hstep, rfl, -⟩ := (jsrRun_jsmOK events jsm repo₁ hrun₁).accepted haccept
        rw [hk] at hstep
        rw [jsrFeedEvent, Option.bind_eq_bind, Option.bind_eq_some_iff] at hfeed
        obtain ⟨state, -, hprocess⟩ := hfeed
        refine .stale events token address [] rfl hk hexceeded (.inl (jsmStep_objectOpen hstep)) ?_
        simp only [jsrObjectsEvent, hk, reduceCtorEq, and_false, if_false, if_true]
        exact hkept.openStale hexceeded hk hprocess
      · have hopen : ∀ token address, event = .token token address → token.kind = .objectOpen → JsrWithin moment events :=
          fun token address he hk => not_not.1 fun hexceeded => hstale ⟨token, address, he, hk, hexceeded⟩
        refine .kept (hopens.snoc hopen) ?_
        exact (hkept.step hfeed hopen).congr (jsrClosedWith_snoc hrun₁ hobjects) (jsrWithin_snoc hobjects')
    | stale past token address more hopened hk hexceeded hmachine hstale =>
      have hunused : ¬JsrUses moment jsm event := fun hused =>
        hexceeded (huses past token address more event (by simp [hopened]) hk jsm repo₁ (hopened ▸ hrun₁) hused)
      obtain ⟨hmachine', token', address', rfl, hopen'⟩ :=
        hmachine.step (jsrRun_jsmOK events jsm repo₁ hrun₁) haccept hunused
      obtain ⟨rfl, hsame⟩ := @jsrFeedEvent_unused _ _ _ _ _ objects _ _ hunused hopen' haccept hfeed
      rw [hsame]
      exact .stale past token address (more ++ [.token token' address']) (by simp [hopened]) hk hexceeded hmachine' hstale

/-- What is found where an object is closed after the events of `past`. -/
structure JsrClosesExactly (moment : JsrMoment) (repo : JsonShapesRepository) (past : List JsrEvent) (close : JsrEvent)
    (repo' : JsonShapesRepository) (object : JsrObject) : Prop where
  keys : ∀ slot, jsrGetCurrentShape repo' = some (some slot) → jsrShapeKeys (repo'.shapes.data slot) = object.keys
  hash : ∀ slot, jsrGetCurrentShape repo' = some (some slot) →
    (repo'.shapes.data slot).keysHash = jsrKeysHash object.keys
  redirected : ∀ slot jsm'' repo'' older, jsrGetCurrentShape repo' = some (some slot) →
    jsrRun moment repo (past ++ [close]) = some (jsm'', repo'') →
    (repo''.references object.address).shape = some older →
    (∃ keys, JsrClosedWith moment repo past older keys) ∧
      ∀ keys, JsrClosedWith moment repo past older keys → keys = object.keys

/-- An open object without its shape has more key bytes than fit, and where
an object is closed its shape is exact. -/
def JsrRecordsExactly (moment : JsrMoment) (repo : JsonShapesRepository) (events : List JsrEvent) : Prop :=
  (∀ past, past <+: events → ∀ jsm repo' objects, jsrRun moment repo past = some (jsm, repo') →
      jsrObjects moment past = some (jsm, objects) →
      List.Forall₂ (fun object shape => shape = none → JSON_SHAPE_SUM_KEY_LENGTH < object.keys.length) objects
        repo'.shapesInProgress.values) ∧
    ∀ past token address, past ++ [.token token address] <+: events → token.kind = .objectClose →
      ∀ jsm repo' object objects, jsrRun moment repo past = some (jsm, repo') →
        jsrObjects moment past = some (jsm, object :: objects) →
        JsrClosesExactly moment repo past (.token token address) repo' object

section

variable {moment : JsrMoment} {repo : JsonShapesRepository} {events : List JsrEvent}

theorem JsrRecordsExactly.of_prefix {past : List JsrEvent} (h : JsrRecordsExactly moment repo events)
    (hp : past <+: events) : JsrRecordsExactly moment repo past :=
  ⟨fun earlier hp' => h.1 earlier (hp'.trans hp), fun earlier token address hp' => h.2 earlier token address (hp'.trans hp)⟩

/-- A close where every object was opened in a clean slot. -/
theorem JsrKept.closesExactly {past : List JsrEvent} {token : JsonToken} {address : Nat} {jsm : JsonStateMachine}
    {repo' : JsonShapesRepository} {object : JsrObject} {objects : List JsrObject} {within : Prop}
    (h : JsrKept repo' (object :: objects) (JsrClosedWith moment repo past) within) (hk : token.kind = .objectClose)
    (hrun : jsrRun moment repo past = some (jsm, repo')) :
    JsrClosesExactly moment repo past (.token token address) repo' object := by
  have hrecords : ∀ slot, jsrGetCurrentShape repo' = some (some slot) → JsrRecords (repo'.shapes.data slot) object := by
    intro slot hcurrent
    obtain ⟨rest, hvalues⟩ := jsrGetCurrentShape_eq_some.1 hcurrent
    obtain ⟨⟨_, _, heq, hrecords, -⟩, -⟩ := h.top hvalues
    cases heq
    exact hrecords
  refine ⟨fun slot hcurrent => (hrecords slot hcurrent).keys, fun slot hcurrent => (hrecords slot hcurrent).hash, ?_⟩
  intro slot jsm'' repo'' older hcurrent hrun'' holder
  obtain ⟨before, repo₁, hrun₁, haccept, hfeed⟩ := jsrRun_of_snoc hrun''
  rw [hrun] at hrun₁
  cases hrun₁
  rw [jsrFeedEvent, Option.bind_eq_bind, Option.bind_eq_some_iff] at hfeed
  obtain ⟨state, -, hprocess⟩ := hfeed
  simp only [jsrProcessToken, hk, reduceCtorEq, and_false, if_false, if_true] at hprocess
  exact h.redirects hprocess hcurrent holder

theorem JsrUsesWithin.recordsExactly (h : JsrKept repo [] (fun _ _ => False) True)
    (huses : JsrUsesWithin moment repo events) : JsrRecordsExactly moment repo events := by
  constructor
  · intro past hp jsm repo' objects hrun hobjects
    obtain ⟨objects', hobjects', hphase⟩ := jsrRun_phase h past (huses.of_prefix hp) jsm repo' hrun
    rw [hobjects] at hobjects'
    cases hobjects'
    cases hphase with
    | kept _ hkept => exact hkept.dropped
    | stale past token address more hopened hk hexceeded hmachine hstale => exact hstale.dropped
  · intro past token address hp hk jsm repo' object objects hrun hobjects
    have hpast : past <+: events := (List.prefix_append _ _).trans hp
    obtain ⟨objects', hobjects', hphase⟩ := jsrRun_phase h past (huses.of_prefix hpast) jsm repo' hrun
    rw [hobjects] at hobjects'
    cases hobjects'
    cases hphase with
    | stale earlier token' address' more hopened hk' hexceeded =>
      exact absurd (huses earlier token' address' more (.token token address) (by simpa [hopened] using hp) hk' jsm repo'
        (hopened ▸ hrun) (.inl hk)) hexceeded
    | kept _ hkept => exact hkept.closesExactly hk hrun

/-- A key byte of an object in a stale slot leaves it without its shape. -/
theorem JsrRecordsExactly.not_pushed {event : JsrEvent} {jsm jsm' : JsonStateMachine} {repo' : JsonShapesRepository}
    {objects : List JsrObject} {b : Byte} (h : JsrRecordsExactly moment repo (events ++ [event]))
    (hstale : JsrStale repo' objects) (hrun : jsrRun moment repo events = some (jsm, repo'))
    (hobjects : jsrObjects moment events = some (jsm, objects)) (ha : jsrAcceptEvent jsm event = some jsm')
    (hfeed : jsrFeedEvent moment repo' jsm jsm' event = jsrPushKeyByte repo' b)
    (hextend : jsrObjectsEvent moment objects jsm jsm' event = jsrExtend objects b) : False := by
  obtain ⟨repo'', address, outer, rest, hpush, hextended, hvalues⟩ := hstale.pushKeyByte b
  have hrun' : jsrRun moment repo (events ++ [event]) = some (jsm', repo'') := by
    rw [jsrRun_snoc, hrun, Option.bind_some, jsrStep_eq ha (hfeed.trans hpush)]
  have hobjects' := jsrObjects_snoc hobjects ha
  rw [hextend, hextended] at hobjects'
  have hdropped := h.1 _ (List.prefix_refl _) jsm' repo'' _ hrun' hobjects'
  rw [hvalues] at hdropped
  have hlong := (List.forall₂_cons.1 hdropped).1 rfl
  simp [JSON_SHAPE_SUM_KEY_LENGTH] at hlong

theorem JsrRecordsExactly.not_used {event : JsrEvent} {jsm : JsonStateMachine} {repo' : JsonShapesRepository}
    {objects : List JsrObject} (h : JsrRecordsExactly moment repo (events ++ [event])) (hstale : JsrStale repo' objects)
    (hrun : jsrRun moment repo events = some (jsm, repo')) (hobjects : jsrObjects moment events = some (jsm, objects)) :
    ¬JsrUses moment jsm event := by
  intro hused
  cases event with
  | keyByte b => exact h.not_pushed hstale hrun hobjects (if_pos hused) rfl rfl
  | token token address =>
    rcases hused with hk | ⟨hk, jsm', ha, hstate⟩
    · obtain ⟨address', outer, slot, rest, rfl, hvalues, hlong⟩ := hstale.opened
      have hexact := h.2 events token address (List.prefix_refl _) hk jsm repo' _ outer hrun hobjects
      have hkeys := hexact.keys slot (jsrGetCurrentShape_eq_some.2 ⟨rest, hvalues⟩)
      have hlength := jsrShapeKeys_length (repo'.shapes.data slot)
      rw [hkeys] at hlength
      rw [← hlength] at hlong
      cases hlong
    · refine h.not_pushed hstale hrun hobjects ha ?_ (if_pos ⟨hstate, hk⟩)
      rw [jsrFeedEvent, hstate]
      exact if_pos ⟨rfl, hk⟩

theorem JsrRecordsExactly.usesWithin (h : JsrKept repo [] (fun _ _ => False) True) :
    JsrRecordsExactly moment repo events → JsrUsesWithin moment repo events := by
  induction events using List.reverseRecOn with
  | nil =>
    intro _ past token address more event hp
    simp at hp
  | append_singleton events event ih =>
    intro hexact past token address more used hp hk jsm repo' hrun hused
    have hearlier := ih (hexact.of_prefix (List.prefix_append _ _))
    rcases List.prefix_concat_iff.1 hp with heq | hp
    · -- the last event is the first use of an object in a stale slot
      rw [← List.cons_append, ← List.append_assoc] at heq
      obtain ⟨rfl, hevent⟩ := List.append_inj' heq rfl
      cases hevent
      obtain ⟨objects, hobjects, hphase⟩ := jsrRun_phase h _ hearlier jsm repo' hrun
      cases hphase with
      | kept hopens => exact hopens past token address ⟨more, by simp⟩ hk
      | stale _ _ _ _ _ _ _ _ hstale => exact absurd hused (hexact.not_used hstale hrun hobjects)
    · exact hearlier past token address more used hp hk jsm repo' hrun hused

theorem JsrOpensWithin.usesWithin (h : JsrOpensWithin moment events) : JsrUsesWithin moment repo events := by
  intro past token address more event hp hk _ _ _ _
  exact h past token address (List.IsPrefix.trans ⟨more ++ [event], by simp⟩ hp) hk

end

/-- **When a shape records exactly its own object's keys**: as long as no
object that is opened after one has had more key bytes than fit gets a key
byte or is closed. -/
theorem jsr_recordsExactly_iff (moment : JsrMoment) (freshStale matureStale : Nat → FalEntry Nat)
    (references : Nat → JsonTokenShapeReference) (events : List JsrEvent) :
    JsrRecordsExactly moment (jsrInit freshStale matureStale references) events ↔
      JsrUsesWithin moment (jsrInit freshStale matureStale references) events := by
  have hinit := JsrKept.init freshStale matureStale references
  constructor
  · intro hexact
    exact hexact.usesWithin hinit
  · intro huses
    exact huses.recordsExactly hinit

/-- Short streams have no long keys. -/
theorem jsrObjects_keys_length {moment : JsrMoment} (events : List JsrEvent) : ∀ jsm objects,
    jsrObjects moment events = some (jsm, objects) → ∀ object ∈ objects, object.keys.length ≤ events.length := by
  induction events using List.reverseRecOn with
  | nil =>
    intro jsm objects h
    cases h
    simp
  | append_singleton events event ih =>
    intro jsm' objects' h
    rw [jsrObjects, List.foldlM_append, Option.bind_eq_bind, Option.bind_eq_some_iff] at h
    obtain ⟨⟨jsm, objects⟩, hobjects, hevent⟩ := h
    simp only [List.foldlM_cons, List.foldlM_nil, jsrObjectsStep, Option.bind_eq_bind, Option.bind_eq_some_iff] at hevent
    obtain ⟨after, ⟨jsm₁, -, heq⟩, heq'⟩ := hevent
    cases heq
    cases heq'
    have hold := ih jsm objects hobjects
    have hextend : ∀ b, ∀ object ∈ jsrExtend objects b, object.keys.length ≤ (events ++ [event]).length := by
      intro b object hmem
      rw [List.length_append]
      rcases objects with _ | ⟨inner, outer⟩
      · cases hmem
      · rcases List.mem_cons.1 hmem with rfl | hmem
        · rw [List.length_append]
          exact Nat.add_le_add_right (hold inner (by simp)) 1
        · exact Nat.le_add_right_of_le (hold object (by simp [hmem]))
    have hlater : ∀ object ∈ objects, object.keys.length ≤ (events ++ [event]).length := by
      intro object hmem
      rw [List.length_append]
      exact Nat.le_add_right_of_le (hold object hmem)
    cases event with
    | keyByte b => exact hextend b
    | token token address =>
      rw [jsrObjectsEvent]
      split
      · exact hextend 1
      · split
        · intro object hmem
          rcases List.mem_cons.1 hmem with rfl | hmem
          · exact Nat.zero_le _
          · exact hlater object hmem
        · split
          · exact fun object hmem => hlater object (List.mem_of_mem_tail hmem)
          · exact hlater

/-- `{"a":{},"b":{` -/
def jsrShortKeyStream : List JsrEvent :=
  [.token { kind := .objectOpen } 0, .token { kind := .stringDelimiter } 1, .keyByte 0x61,
    .token { kind := .stringDelimiter } 2, .token { kind := .kvSeparator } 3, .token { kind := .objectOpen } 4,
    .token { kind := .objectClose } 5, .token { kind := .valueSeparator } 6, .token { kind := .stringDelimiter } 7,
    .keyByte 0x62, .token { kind := .stringDelimiter } 8, .token { kind := .kvSeparator } 9,
    .token { kind := .objectOpen } 10]

theorem jsr_recordsExactly_short : (jsrRun .after jsrZeroed jsrShortKeyStream).isSome = true ∧
    JsrRecordsExactly .after jsrZeroed jsrShortKeyStream := by
  refine ⟨by decide +kernel, (jsr_recordsExactly_iff .after _ _ _ _).2 (JsrOpensWithin.usesWithin ?_)⟩
  intro past token address hp _ earlier hp' jsm objects h object hmem
  have hlength := jsrObjects_keys_length earlier jsm objects h object hmem
  have hle := hp'.length_le
  have hle' := hp.length_le
  rw [List.length_append, show jsrShortKeyStream.length = 13 from rfl] at hle'
  exact hlength.trans (by
    show _ ≤ 1024
    omega)

/-- `{"kkk..":{`, where the key has 1024 bytes. -/
def jsrLongKeyStream : List JsrEvent :=
  [.token { kind := .objectOpen } 0, .token { kind := .stringDelimiter } 1] ++
    List.replicate JSON_SHAPE_SUM_KEY_LENGTH (.keyByte 0x6b) ++
    [.token { kind := .stringDelimiter } 2, .token { kind := .kvSeparator } 3, .token { kind := .objectOpen } 4]

/-- **The next object has the dropped one's keys**: it has none itself, but
its shape is closed with 1024. -/
theorem jsr_recordsExactly_fails :
    JsrAccepts (jsrLongKeyStream ++ [.token { kind := .objectClose } 5]) ∧
      ¬JsrRecordsExactly .after jsrZeroed (jsrLongKeyStream ++ [.token { kind := .objectClose } 5]) := by
  refine ⟨by decide +kernel, fun h => ?_⟩
  have hlength : ((jsrRun .after jsrZeroed jsrLongKeyStream).bind fun state =>
      (jsrGetCurrentShape state.2).bind fun top => top.map fun slot => (state.2.shapes.data slot).keysLength) =
      some JSON_SHAPE_SUM_KEY_LENGTH := by decide +kernel
  have hopened : ((jsrObjects .after jsrLongKeyStream).bind fun state => state.2.head?) =
      some { address := 4, keys := [] } := by decide +kernel
  have hmachine : (jsrRun .after jsrZeroed jsrLongKeyStream).map Prod.fst =
      (jsrObjects .after jsrLongKeyStream).map Prod.fst := by decide +kernel
  obtain ⟨⟨jsm, repo⟩, hrun, hlength⟩ := Option.bind_eq_some_iff.1 hlength
  obtain ⟨top, hcurrent, hlength⟩ := Option.bind_eq_some_iff.1 hlength
  obtain ⟨slot, rfl, hstale⟩ := Option.map_eq_some_iff.1 hlength
  obtain ⟨⟨jsm', objects⟩, hobjects, hhead⟩ := Option.bind_eq_some_iff.1 hopened
  obtain ⟨outer, rfl⟩ := List.head?_eq_some_iff.1 hhead
  rw [hrun, hobjects] at hmachine
  cases hmachine
  have hkeys := (h.2 jsrLongKeyStream _ 5 (List.prefix_refl _) rfl jsm repo _ outer hrun hobjects).keys slot hcurrent
  have hnone := jsrShapeKeys_length (repo.shapes.data slot)
  rw [hkeys] at hnone
  exact absurd (hnone.trans hstale) (by decide)

end Scomp
