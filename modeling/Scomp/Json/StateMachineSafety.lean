/-
The state machine never leaves its defined behaviour, refused pushes or not:
no stack operation under- or overflows and its own assertion holds.

The assertion is about OBJECT_CONTINUE, which pushes without being allowed to
fail. It cannot: a state turns into OBJECT_CONTINUE only when something above
it is popped, so there was room for one more state (`RoomOK`).
-/
import Scomp.Json.Acceptance

namespace Scomp

/-- Every OBJECT_CONTINUE has a free slot above it, or one in use. -/
def RoomOK (capacity : Nat) : List JsonState → Prop
  | [] => True
  | state :: rest => (state = .objectContinue → rest.length + 1 < capacity) ∧ RoomOK capacity rest

structure StackSafe (stack : List JsonState) (capacity : Nat) : Prop where
  ok : StackOK stack
  fits : stack.length ≤ capacity
  room : RoomOK capacity stack

/-- What holds of a state machine after any tokens. -/
def JsmOK (jsm : JsonStateMachine) : Prop :=
  ∃ stack, jsm = jsmOf stack JSON_MAX_STATE_STACK_LENGTH ∧ StackSafe stack JSON_MAX_STATE_STACK_LENGTH

theorem RoomOK.afterValue {capacity rest} (h : RoomOK capacity rest) (hlt : rest.length < capacity) :
    RoomOK capacity (afterValue rest) := by
  match rest with
  | [] => exact h
  | state :: rest =>
    simp only [List.length_cons] at hlt
    cases state <;> first | exact h | exact ⟨fun _ => hlt, h.2⟩

theorem RoomOK.push {capacity rest state} (h : RoomOK capacity rest) (hs : state ≠ .objectContinue) :
    RoomOK capacity (state :: rest) := ⟨fun he => absurd he hs, h⟩

/-- Accepted tokens keep the room above OBJECT_CONTINUE. -/
theorem jsmStep_room {capacity stack kind stack'} (h : RoomOK capacity stack) (hc : stack.length ≤ capacity)
    (hs : jsmStep stack kind = some stack') : RoomOK capacity stack' := by
  have hvalue : ∀ {rest stack'}, RoomOK capacity rest → rest.length < capacity →
      startValue rest kind = some stack' → RoomOK capacity stack' := by
    intro rest stack' hr hlt hs
    cases kind <;> simp only [startValue, Option.some.injEq, reduceCtorEq] at hs <;> subst hs <;>
      first | exact hr.push (by decide) | exact hr.afterValue hlt
  cases stack with
  | nil => cases hs
  | cons state rest =>
    simp only [List.length_cons] at hc
    have hlt : rest.length < capacity := hc
    have hr := h.2
    cases state with
    | start =>
      simp only [jsmStep] at hs
      split at hs
      · cases hs; exact hr.push (by decide)
      · exact hvalue hr hlt hs
    | value => exact hvalue hr hlt hs
    | string | objectKey =>
      simp only [jsmStep] at hs
      split at hs
      · cases hs; first | exact hr.afterValue hlt | exact hr.push (by decide)
      · split at hs
        · cases hs; exact h
        · cases hs
    | arrayStart | arrayContinue | objectStart | objectContinue | objectKeyStart | objectKvSeparator =>
      cases kind <;> simp only [jsmStep, startValue, Option.some.injEq, reduceCtorEq] at hs <;> subst hs <;>
        first
        | exact h
        | exact hr.afterValue hlt
        | exact h.push (by decide)
        | exact hr.push (by decide)
    | root =>
      cases rest <;> cases kind <;> simp only [jsmStep, Option.some.injEq, reduceCtorEq] at hs
      subst hs; exact h

/-- A refused push rejects the token and changes nothing. -/
theorem jsmProcessToken_refused {stack kind capacity} (h : StackSafe stack capacity)
    (hr : jsmPushRefused (jsmOf stack capacity) kind = true) :
    jsmProcessToken (jsmOf stack capacity) kind = some (false, jsmOf stack capacity) := by
  match stack with
  | [] => cases hr
  | state :: rest =>
    obtain ⟨hp, hfull⟩ : jsmPushesAbove state kind = true ∧ (state :: rest).length = capacity := by
      simp only [jsmPushRefused, jsmOf, Bool.and_eq_true] at hr
      exact ⟨hr.1, of_decide_eq_true hr.2⟩
    have hpush : ∀ above, jsmPushState (jsmOf (state :: rest) capacity) above =
        some (false, jsmOf (state :: rest) capacity) := fun above => if_pos hfull
    cases state with
    | objectContinue =>
      have hroom := h.room.1 rfl
      simp only [List.length_cons] at hfull
      omega
    | arrayStart | arrayContinue | objectStart =>
      cases kind <;> first | exact hpush _ | exact absurd hp (by decide)
    | _ => cases kind <;> exact absurd hp (by decide)

/-- **Any token is processed**, and the machine stays safe. -/
theorem jsmProcessToken_safe {stack kind capacity} (h : StackSafe stack capacity) :
    ∃ isAccepted stack', jsmProcessToken (jsmOf stack capacity) kind = some (isAccepted, jsmOf stack' capacity) ∧
      StackSafe stack' capacity := by
  cases hr : jsmPushRefused (jsmOf stack capacity) kind with
  | true => exact ⟨false, stack, jsmProcessToken_refused h hr, h⟩
  | false =>
    rw [jsmProcessToken_eq h.ok h.fits hr, jsmStepResult]
    cases hs : jsmStep stack kind with
    | some stack' =>
      exact ⟨true, stack', rfl, jsmStep_stackOK h.ok hs, jsmStep_length_le h.fits hr hs,
        jsmStep_room h.room h.fits hs⟩
    | none =>
      refine ⟨false, _, rfl, ?_⟩
      split
      · next he =>
        have hfits := h.fits
        rw [he] at hfits
        exact ⟨rfl, hfits, by simp [RoomOK]⟩
      · exact h

theorem JsmOK.init : JsmOK jsmInit :=
  ⟨[.start, .root], rfl, rfl, by decide, by simp [RoomOK]⟩

theorem JsmOK.process {jsm : JsonStateMachine} (h : JsmOK jsm) (kind : JsonTokenKind) :
    ∃ isAccepted jsm', jsmProcessToken jsm kind = some (isAccepted, jsm') ∧ JsmOK jsm' := by
  obtain ⟨stack, rfl, hs⟩ := h
  obtain ⟨isAccepted, stack', hp, hs'⟩ := @jsmProcessToken_safe stack kind _ hs
  exact ⟨isAccepted, _, hp, stack', rfl, hs'⟩

theorem JsmOK.currentState {jsm : JsonStateMachine} (h : JsmOK jsm) :
    ∃ state, jsmGetCurrentState jsm = some state := by
  obtain ⟨stack, rfl, hs⟩ := h
  match stack, hs.ok with
  | [], hok => exact absurd hok (by simp [StackOK, ContextOK])
  | state :: rest, _ => exact ⟨state, rfl⟩

/-! ## The stack, from its bottom -/

/-- The states of a key and what is around it. -/
def isKeyState (state : JsonState) : Bool :=
  state = .objectKeyStart || state = .objectKey || state = .objectKvSeparator

/-- The entry at an index of the stack's array, the bottom at 0. -/
def jsmStateAt (jsm : JsonStateMachine) (index : Nat) : Option JsonState := jsm.stateStack.values.reverse[index]?

structure JsmStackWellFormed (jsm : JsonStateMachine) : Prop where
  capacity : fstackGetCapacity jsm.stateStack = JSON_MAX_STATE_STACK_LENGTH
  nonempty : 0 < fstackGetCount jsm.stateStack
  fits : fstackGetCount jsm.stateStack ≤ JSON_MAX_STATE_STACK_LENGTH
  root : ∀ index, jsmStateAt jsm index = some .root ↔ index = 0
  start : ∀ index, jsmStateAt jsm index = some .start → index = 1
  between : ∀ index state, 0 < index → index + 1 < fstackGetCount jsm.stateStack →
    jsmStateAt jsm index = some state → isContainerState state = true
  key : ∀ index state, jsmStateAt jsm index = some state → isKeyState state = true →
    ∃ below object, index = below + 1 ∧ jsmStateAt jsm below = some object ∧ isObjectState object = true
  /-- "This state push should be always successful". -/
  comma : jsmGetCurrentState jsm = some .objectContinue →
    fstackGetCount jsm.stateStack < fstackGetCapacity jsm.stateStack

theorem ContextOK.reverse {stack : List JsonState} (h : ContextOK stack) :
    ∃ containers, stack.reverse = .root :: containers ∧ ∀ state ∈ containers, isContainerState state = true := by
  induction stack with
  | nil => exact absurd h (by simp [ContextOK])
  | cons state rest ih =>
    rcases h.cases with he | ⟨state', rest', he, hs, hr⟩
    · exact ⟨[], by simp [he], by simp⟩
    · cases he
      obtain ⟨containers, hrev, hall⟩ := ih hr
      refine ⟨containers ++ [state], by simp [hrev], fun other hother => ?_⟩
      rcases List.mem_append.1 hother with hmem | hmem
      · exact hall other hmem
      · rw [List.mem_singleton.1 hmem]
        exact hs

/-- What a stack is above ROOT: containers, and any one state on top. -/
theorem StackOK.reverse {stack : List JsonState} (h : StackOK stack) :
    stack = [.root] ∨ ∃ top containers, stack.reverse = .root :: (containers ++ [top]) ∧ top ≠ .root ∧
      (∀ state ∈ containers, isContainerState state = true) ∧ (top = .start → containers = []) ∧
      (isKeyState top = true → ∃ object, containers.getLast? = some object ∧ isObjectState object = true) := by
  rcases stack with _ | ⟨top, rest⟩
  · exact absurd h (by simp [StackOK, ContextOK])
  by_cases hroot : top = .root
  · subst hroot
    rcases ContextOK.cases h with he | ⟨state, rest', he, hs, -⟩
    · exact .inl he
    · cases he
      exact absurd hs (by decide)
  have hcontext : ContextOK rest := by
    cases top with
    | root => exact absurd rfl hroot
    | start => rw [show rest = [.root] from h]; rfl
    | value | string => exact h
    | objectKeyStart | objectKey | objectKvSeparator => exact h.1
    | objectStart => exact ContextOK.tail .objectStart rfl h
    | objectContinue => exact ContextOK.tail .objectContinue rfl h
    | arrayStart => exact ContextOK.tail .arrayStart rfl h
    | arrayContinue => exact ContextOK.tail .arrayContinue rfl h
  obtain ⟨containers, hrev, hall⟩ := hcontext.reverse
  refine .inr ⟨top, containers, by simp [hrev], hroot, hall, ?_, ?_⟩
  · intro hstart
    subst hstart
    rw [show rest = [.root] from h] at hrev
    simpa using hrev.symm
  · intro hkey
    have hobject : ∀ state ∈ rest.head?, isObjectState state = true := by
      cases top <;> first | exact h.2 | exact absurd hkey (by decide)
    have hhead : rest.head? = (JsonState.root :: containers).getLast? := by
      rw [← hrev, List.getLast?_reverse]
    rcases hlast : containers.getLast? with _ | object
    · rw [hhead, List.getLast?_eq_none_iff.1 hlast] at hobject
      exact absurd (hobject .root rfl) (by decide)
    · refine ⟨object, rfl, hobject object ?_⟩
      rw [hhead, List.getLast?_cons, hlast]
      rfl

/-! ## The array's entries -/

section

variable {stack containers : List JsonState} {top : JsonState} {capacity index : Nat} {state : JsonState}

theorem jsmStateAt_root (h : jsmStateAt (jsmOf [.root] capacity) index = some state) : index = 0 ∧ state = .root := by
  rcases index with _ | index
  · exact ⟨rfl, by simpa [jsmStateAt, jsmOf] using h.symm⟩
  · simp [jsmStateAt, jsmOf] at h

theorem jsmStateAt_zero (hrev : stack.reverse = .root :: (containers ++ [top])) :
    jsmStateAt (jsmOf stack capacity) 0 = some .root := by
  simp [jsmStateAt, jsmOf, hrev]

/-- An entry above ROOT is a container, or the top. -/
theorem jsmStateAt_succ (hrev : stack.reverse = .root :: (containers ++ [top]))
    (h : jsmStateAt (jsmOf stack capacity) (index + 1) = some state) :
    containers[index]? = some state ∨ index = containers.length ∧ state = top := by
  simp only [jsmStateAt, jsmOf, hrev, List.getElem?_cons_succ] at h
  by_cases hlt : index < containers.length
  · exact .inl (by rwa [List.getElem?_append_left hlt] at h)
  · rw [List.getElem?_append_right (by omega), List.getElem?_singleton] at h
    split at h
    · exact .inr ⟨by omega, by simpa using h.symm⟩
    · cases h

/-- The last container is below the top. -/
theorem jsmStateAt_last (hrev : stack.reverse = .root :: (containers ++ [top])) (h : containers.getLast? = some state) :
    jsmStateAt (jsmOf stack capacity) containers.length = some state := by
  rw [List.getLast?_eq_getElem?] at h
  have hlt : containers.length - 1 < containers.length := (List.getElem?_eq_some_iff.1 h).1
  rw [show containers.length = (containers.length - 1) + 1 by omega]
  simp only [jsmStateAt, jsmOf, hrev, List.getElem?_cons_succ]
  rw [List.getElem?_append_left hlt, h]

end

/-- Only ROOT is left. -/
theorem StackSafe.wellFormed_root (h : StackSafe [.root] JSON_MAX_STATE_STACK_LENGTH) :
    JsmStackWellFormed (jsmOf [.root] JSON_MAX_STATE_STACK_LENGTH) where
  capacity := rfl
  nonempty := Nat.zero_lt_one
  fits := h.fits
  root := fun index => ⟨fun hi => (jsmStateAt_root hi).1, fun hi => by rw [hi]; rfl⟩
  start := fun index hi => absurd (jsmStateAt_root hi).2 (by decide)
  between := fun index state hpos _ hi => absurd (jsmStateAt_root hi).1 (Nat.ne_of_gt hpos)
  key := fun index state hi hk => by
    rw [(jsmStateAt_root hi).2] at hk
    exact absurd hk (by decide)
  comma := fun hstate => absurd hstate (by decide)

theorem StackSafe.wellFormed {stack : List JsonState} (h : StackSafe stack JSON_MAX_STATE_STACK_LENGTH) :
    JsmStackWellFormed (jsmOf stack JSON_MAX_STATE_STACK_LENGTH) := by
  rcases h.ok.reverse with rfl | ⟨top, containers, hrev, hroot, hall, hstart, hkey⟩
  · exact h.wellFormed_root
  have hlength : stack.length = containers.length + 2 := by
    rw [← List.length_reverse, hrev]
    simp
  have hbottom := @jsmStateAt_zero _ _ _ JSON_MAX_STATE_STACK_LENGTH hrev
  have hcontainer : ∀ {index state}, containers[index]? = some state → isContainerState state = true :=
    fun hi => hall _ (List.mem_of_getElem? hi)
  refine ⟨rfl, ?_, h.fits, fun index => ⟨?_, ?_⟩, ?_, ?_, ?_, ?_⟩
  · show 0 < stack.length
    omega
  · intro hi
    rcases index with _ | index
    · rfl
    · rcases jsmStateAt_succ hrev hi with hmem | ⟨-, he⟩
      · exact absurd (hcontainer hmem) (by decide)
      · exact absurd he.symm hroot
  · intro hi
    rw [hi]
    exact hbottom
  · intro index hi
    rcases index with _ | index
    · rw [hbottom] at hi
      cases hi
    · rcases jsmStateAt_succ hrev hi with hmem | ⟨he, htop⟩
      · exact absurd (hcontainer hmem) (by decide)
      · rw [he, hstart htop.symm]
        rfl
  · intro index state hpos hlt hi
    rcases index with _ | index
    · omega
    · have hlt' : index + 1 + 1 < stack.length := hlt
      rcases jsmStateAt_succ hrev hi with hmem | ⟨he, -⟩
      · exact hcontainer hmem
      · omega
  · intro index state hi hk
    rcases index with _ | index
    · rw [hbottom] at hi
      cases hi
      exact absurd hk (by decide)
    · rcases jsmStateAt_succ hrev hi with hmem | ⟨he, rfl⟩
      · have hc := hcontainer hmem
        cases state <;> first | exact absurd hc (by decide) | exact absurd hk (by decide)
      · obtain ⟨object, hlast, hobject⟩ := hkey hk
        exact ⟨index, object, rfl, he ▸ jsmStateAt_last hrev hlast, hobject⟩
  · intro hstate
    rcases stack with _ | ⟨state, rest⟩
    · cases hstate
    · exact h.room.1 (by simpa [jsmGetCurrentState, fstackPeek, jsmOf] using hstate)

theorem JsmOK.processAll {jsm : JsonStateMachine} (h : JsmOK jsm) (kinds : List JsonTokenKind) :
    ∃ results jsm', jsmProcessTokens jsm kinds = some (results, jsm') ∧ JsmOK jsm' := by
  induction kinds generalizing jsm with
  | nil => exact ⟨[], jsm, rfl, h⟩
  | cons kind kinds ih =>
    obtain ⟨isAccepted, jsm₁, hp, h₁⟩ := h.process kind
    obtain ⟨results, jsm', hr, h'⟩ := ih h₁
    exact ⟨isAccepted :: results, jsm', by simp only [jsmProcessTokens, hp, hr, Option.bind_eq_bind, Option.bind_some]; rfl, h'⟩

/-- **The state stack is always well formed**, whatever tokens were processed,
the rejected ones included, and no stack operation or assertion fails. -/
theorem jsm_stack_wellFormed (kinds : List JsonTokenKind) :
    ∃ results jsm, jsmProcessTokens jsmInit kinds = some (results, jsm) ∧ JsmStackWellFormed jsm := by
  obtain ⟨results, jsm, hr, stack, rfl, hs⟩ := JsmOK.init.processAll kinds
  exact ⟨results, _, hr, hs.wellFormed⟩

end Scomp
