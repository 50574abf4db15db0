/-
What the state machine accepts: exactly the JSON texts.

A run on the bounded stack of the source is a run of `jsmStep` as long as no
push is refused, and `Completes` carries a run of `jsmStep` to the grammar.
-/
import Scomp.Json.Grammar

namespace Scomp

/-! ## Runs on the unbounded stack -/

theorem jsmSteps_append (stack : List JsonState) (pre kinds : List JsonTokenKind) :
    jsmSteps stack (pre ++ kinds) = (jsmSteps stack pre).bind (jsmSteps · kinds) := by
  induction pre generalizing stack with
  | nil => rfl
  | cons kind pre ih =>
    simp only [List.cons_append, jsmSteps, Option.bind_assoc]
    exact congrArg _ (funext fun stack' => ih stack')

/-- Only ROOT demands nothing more. -/
theorem completes_nil {stack} (h : StackOK stack) : Completes stack [] ↔ stack = [.root] := by
  constructor
  · intro hc
    have hv : ∀ rest, ¬ ValueThen rest [] := by
      rintro rest ⟨value, kinds, hv, -, he⟩
      rw [(List.nil_eq_append_iff.mp he).1] at hv
      cases hv
    have hcl : ∀ {state rest}, Closes (state :: rest) [] → state :: rest = [.root] := by
      intro state rest hcl
      generalize hk : ([] : List JsonTokenKind) = kinds at hcl
      cases hcl with
      | root => rfl
      | array | arrayMore | object | objectMore => simp at hk
    match stack, h with
    | .start :: rest, _ => simp [hv] at hc
    | .value :: rest, _ => simp [hv] at hc
    | .string :: rest, _ => simp at hc
    | .objectKey :: rest, _ => simp [KeyThen] at hc
    | .objectKvSeparator :: rest, _ => simp [ColonThen] at hc
    | .objectKeyStart :: rest, _ => simp [MemberThen] at hc
    | .arrayStart :: rest, _ => simp [hv] at hc
    | .objectStart :: rest, _ => simp [MemberThen] at hc
    | .arrayContinue :: rest, _ => exact hcl hc
    | .objectContinue :: rest, _ => exact hcl hc
    | .root :: rest, _ => exact hcl hc
  · rintro rfl; exact completes_root.mpr (by simp [IsWs])

/-- The words a stack demands are the runs from it to ROOT. -/
theorem completes_iff_steps {stack kinds} (h : StackOK stack) :
    Completes stack kinds ↔ jsmSteps stack kinds = some [.root] := by
  induction kinds generalizing stack with
  | nil => rw [completes_nil h, jsmSteps, Option.some.injEq]
  | cons kind kinds ih =>
    rw [completes_step h, jsmSteps, Option.bind_eq_some_iff]
    constructor
    · rintro ⟨stack', hs, hc⟩
      exact ⟨stack', hs, (ih (jsmStep_stackOK h hs)).mp hc⟩
    · rintro ⟨stack', hs, hr⟩
      exact ⟨stack', hs, (ih (jsmStep_stackOK h hs)).mpr hr⟩

/-- What START above ROOT demands is a JSON text. -/
theorem completes_start_iff {kinds} : Completes [.start, .root] kinds ↔ IsJsonText kinds := by
  have htext : ∀ {kinds}, WsThen (ValueThen [.root]) kinds ↔ ∃ ws value ws',
      IsWs ws ∧ IsValue value ∧ IsWs ws' ∧ kinds = ws ++ (value ++ ws') := by
    intro kinds
    constructor
    · rintro ⟨ws, _, hw, ⟨value, ws', hv, hc, rfl⟩, rfl⟩
      exact ⟨ws, value, ws', hw, hv, completes_root.mp hc, rfl⟩
    · rintro ⟨ws, value, ws', hw, hv, hw', rfl⟩
      exact ⟨ws, _, hw, ⟨value, ws', hv, completes_root.mpr hw', rfl⟩, rfl⟩
  rw [completes_start]
  constructor
  · rintro (⟨rest, h, rfl⟩ | h)
    · obtain ⟨ws, value, ws', hw, hv, hw', rfl⟩ := htext.mp h
      exact ⟨[.bom], ws, value, ws', .inr rfl, hw, hv, hw', rfl⟩
    · obtain ⟨ws, value, ws', hw, hv, hw', rfl⟩ := htext.mp h
      exact ⟨[], ws, value, ws', .inl rfl, hw, hv, hw', rfl⟩
  · rintro ⟨bom, ws, value, ws', rfl | rfl, hw, hv, hw', rfl⟩
    · exact .inr (htext.mpr ⟨ws, value, ws', hw, hv, hw', rfl⟩)
    · exact .inl ⟨_, htext.mpr ⟨ws, value, ws', hw, hv, hw', rfl⟩, rfl⟩

/-! ## Every stack can still be completed -/

theorem exists_closes {context} (h : ContextOK context) : ∃ kinds, Closes context kinds := by
  induction context with
  | nil => exact absurd h (by simp [ContextOK])
  | cons state rest ih =>
    rcases h.cases with he | ⟨state', rest', he, hs, hr⟩
    · rw [he]; exact ⟨[], .root (by simp [IsWs])⟩
    · obtain ⟨rfl, rfl⟩ := List.cons.inj he
      obtain ⟨kinds, hc⟩ := ih hr
      have hw : IsWs [] := by simp [IsWs]
      cases state with
      | arrayStart => exact ⟨_, .array (.inl rfl) hw hc⟩
      | arrayContinue => exact ⟨_, .array (.inr rfl) hw hc⟩
      | objectStart => exact ⟨_, .object (.inl rfl) hw hc⟩
      | objectContinue => exact ⟨_, .object (.inr rfl) hw hc⟩
      | _ => exact absurd hs (by decide)

/-- **No reachable stack is a dead end.** -/
theorem exists_completes {stack} (h : StackOK stack) : ∃ kinds, Completes stack kinds := by
  have hvalue : ∀ {rest}, ContextOK rest → ∃ kinds, WsThen (ValueThen rest) kinds := by
    intro rest hr
    obtain ⟨kinds, hc⟩ := exists_closes hr
    exact ⟨.null :: kinds, [], _, by simp [IsWs], ⟨[.null], kinds, .null, hc, rfl⟩, rfl⟩
  have hcolon : ∀ {rest}, ContextOK rest → ∃ kinds, ColonThen rest kinds := by
    intro rest hr
    obtain ⟨kinds, hv⟩ := hvalue hr
    exact ⟨.kvSeparator :: kinds, [], _, by simp [IsWs], ⟨kinds, hv, rfl⟩, rfl⟩
  have hkey : ∀ {rest}, ContextOK rest → ∃ kinds, KeyThen rest kinds := by
    intro rest hr
    obtain ⟨kinds, hc⟩ := hcolon hr
    exact ⟨.stringDelimiter :: kinds, [], kinds, by simp [IsStringBody], hc, rfl⟩
  obtain ⟨state, rest, rfl⟩ := List.exists_cons_of_ne_nil (show stack ≠ [] by rintro rfl; exact h)
  cases state with
  | start =>
    obtain ⟨kinds, hv⟩ := hvalue (show ContextOK rest by rw [show rest = [.root] from h]; rfl)
    exact ⟨kinds, .inr hv⟩
  | value => exact hvalue h
  | string =>
    obtain ⟨kinds, hc⟩ := exists_closes h
    exact ⟨.stringDelimiter :: kinds, [], kinds, by simp [IsStringBody], hc, rfl⟩
  | objectKey => exact hkey h.1
  | objectKvSeparator => exact hcolon h.1
  | objectKeyStart =>
    obtain ⟨kinds, hk⟩ := hkey h.1
    exact ⟨.stringDelimiter :: kinds, [], _, by simp [IsWs], ⟨kinds, hk, rfl⟩, rfl⟩
  | arrayStart =>
    obtain ⟨kinds, hc⟩ := exists_closes (ContextOK.tail .arrayStart rfl h)
    exact ⟨.arrayClose :: kinds, .inl ⟨[], _, by simp [IsWs], ⟨kinds, hc, rfl⟩, rfl⟩⟩
  | objectStart =>
    obtain ⟨kinds, hc⟩ := exists_closes (ContextOK.tail .objectStart rfl h)
    exact ⟨.objectClose :: kinds, .inl ⟨[], _, by simp [IsWs], ⟨kinds, hc, rfl⟩, rfl⟩⟩
  | arrayContinue => exact exists_closes h
  | objectContinue => exact exists_closes h
  | root =>
    cases rest with
    | nil => exact exists_closes rfl
    | cons => exact absurd h.1 (by decide)

/-! ## Runs on the bounded stack -/

/-- An accepted token grows the stack by at most the push above its top. -/
theorem jsmStep_length {state rest kind stack'} (hs : jsmStep (state :: rest) kind = some stack') :
    stack'.length ≤ rest.length + 1 + (if jsmPushesAbove state kind then 1 else 0) := by
  have hvalue : ∀ {rest stack'}, startValue rest kind = some stack' → stack'.length ≤ rest.length + 1 := by
    intro rest stack' hs
    cases kind <;> simp only [startValue, Option.some.injEq, reduceCtorEq] at hs <;> subst hs <;>
      simp [afterValue_length]
  cases state with
  | start =>
    simp only [jsmStep] at hs
    split at hs
    · cases hs; simp
    · exact Nat.le_add_right_of_le (hvalue hs)
  | value => exact Nat.le_add_right_of_le (hvalue hs)
  | string | objectKey =>
    simp only [jsmStep] at hs
    split at hs
    · cases hs; simp only [List.length_cons, afterValue_length]; omega
    · split at hs
      · cases hs; simp
      · cases hs
  | arrayStart | arrayContinue | objectStart | objectContinue | objectKeyStart | objectKvSeparator =>
    cases kind <;> simp only [jsmStep, startValue, Option.some.injEq, reduceCtorEq] at hs <;> subst hs <;>
      simp [jsmPushesAbove, afterValue_length]
  | root =>
    cases rest <;> cases kind <;> simp only [jsmStep, Option.some.injEq, reduceCtorEq] at hs
    subst hs; simp

theorem jsmStep_length_le {stack kind stack' capacity} (hc : stack.length ≤ capacity)
    (hr : jsmPushRefused (jsmOf stack capacity) kind = false) (hs : jsmStep stack kind = some stack') :
    stack'.length ≤ capacity := by
  match stack with
  | [] => cases hs
  | state :: rest =>
    simp only [List.length_cons] at hc
    have hl := jsmStep_length hs
    split at hl
    · have := length_lt_of_not_refused hc ‹_› hr; omega
    · omega

/-- The stack a token leaves is well formed and fits. -/
theorem stepStack_ok {stack kind capacity} (h : StackOK stack) (hc : stack.length ≤ capacity)
    (hr : jsmPushRefused (jsmOf stack capacity) kind = false) :
    ∃ stack', (jsmStepResult stack kind capacity).2 = jsmOf stack' capacity ∧ StackOK stack' ∧
      stack'.length ≤ capacity ∧
      jsmStep stack kind = if (jsmStepResult stack kind capacity).1 then some stack' else none := by
  unfold jsmStepResult
  cases hs : jsmStep stack kind with
  | some stack' => exact ⟨stack', rfl, jsmStep_stackOK h hs, jsmStep_length_le hc hr hs, rfl⟩
  | none =>
    refine ⟨_, rfl, ?_, ?_, rfl⟩
    · split
      · rfl
      · exact h
    · split
      · next he => rw [he] at hc; exact hc
      · exact hc

/-- **Processing a sequence that is refused no push**: every token gets a
result, and all of them are accepted if and only if `jsmStep` runs through. -/
theorem jsmProcessTokens_eq {stack kinds capacity} (h : StackOK stack) (hc : stack.length ≤ capacity)
    (hr : JsmNeverRefuses (jsmOf stack capacity) kinds) :
    ∃ results stack', jsmProcessTokens (jsmOf stack capacity) kinds = some (results, jsmOf stack' capacity) ∧
      StackOK stack' ∧ stack'.length ≤ capacity ∧
      jsmSteps stack kinds = if ∀ r ∈ results, r = true then some stack' else none := by
  induction kinds generalizing stack with
  | nil => exact ⟨[], stack, rfl, h, hc, by simp [jsmSteps]⟩
  | cons kind kinds ih =>
    have hp := jsmProcessToken_eq h hc hr.1
    obtain ⟨stack₁, h₁, hok, hc₁, hs⟩ := stepStack_ok h hc hr.1
    obtain ⟨results, stack', hrun, hok', hc', hall⟩ := ih hok hc₁ (by rw [← h₁]; exact hr.2 _ hp)
    refine ⟨(jsmStepResult stack kind capacity).1 :: results, stack', ?_, hok', hc', ?_⟩
    · simp only [jsmProcessTokens, hp, Option.bind_eq_bind, Option.bind_some, h₁, hrun]; rfl
    · rw [jsmSteps, hs]
      cases (jsmStepResult stack kind capacity).1
      · simp
      · simpa using hall

theorem neverRefuses_append {jsm pre kinds} (h : JsmNeverRefuses jsm (pre ++ kinds)) :
    JsmNeverRefuses jsm pre ∧
      ∀ results jsm', jsmProcessTokens jsm pre = some (results, jsm') → JsmNeverRefuses jsm' kinds := by
  induction pre generalizing jsm with
  | nil => exact ⟨trivial, fun _ _ he => by cases he; exact h⟩
  | cons kind pre ih =>
    refine ⟨⟨h.1, fun r hr => (ih (h.2 r hr)).1⟩, fun results jsm' he => ?_⟩
    simp only [jsmProcessTokens, Option.bind_eq_bind, Option.bind_eq_some_iff, Prod.exists] at he
    obtain ⟨b, jsm₁, hp, bs, jsm₂, hps, he⟩ := he
    cases he
    exact (ih (h.2 _ hp)).2 _ _ hps

/-- ROOT is on top of ROOT's own stack only. -/
theorem currentState_root_iff {stack capacity} (h : StackOK stack) :
    jsmGetCurrentState (jsmOf stack capacity) = some .root ↔ stack = [.root] := by
  match stack, h with
  | [], h => exact absurd h (by simp [StackOK, ContextOK])
  | [.root], _ => exact iff_of_true rfl rfl
  | .root :: state :: rest, h => exact absurd (show isContainerState .root = true from h.1) (by decide)
  | .start :: rest, _ | .value :: rest, _ | .string :: rest, _ | .objectKey :: rest, _
  | .objectKvSeparator :: rest, _ | .objectKeyStart :: rest, _ | .arrayStart :: rest, _
  | .arrayContinue :: rest, _ | .objectStart :: rest, _ | .objectContinue :: rest, _ =>
    simp [jsmGetCurrentState, jsmOf, fstackPeek]

/-! ## The language of the machine -/

/-- **The state machine accepts exactly the JSON grammar.** For a sequence
that is refused no push, every token is accepted and the machine ends in
ROOT if and only if the sequence is a JSON text; a rejected token is one
after which nothing completes a text, and a token that ends the hopes of the
accepted tokens before it is rejected. -/
theorem jsm_accepts_jsonText (kinds : List JsonTokenKind) (h : JsmNeverRefuses jsmInit kinds) :
    (∃ results jsm, jsmProcessTokens jsmInit kinds = some (results, jsm) ∧
      ((∀ r ∈ results, r = true) ∧ jsmGetCurrentState jsm = some .root ↔ IsJsonText kinds)) ∧
    ∀ pre kind post, kinds = pre ++ kind :: post →
      ∃ results jsm isAccepted jsm', jsmProcessTokens jsmInit pre = some (results, jsm) ∧
        jsmProcessToken jsm kind = some (isAccepted, jsm') ∧
        (isAccepted = false → ∀ continuation, ¬ IsJsonText (pre ++ kind :: continuation)) ∧
        ((∀ r ∈ results, r = true) → (∀ continuation, ¬ IsJsonText (pre ++ kind :: continuation)) →
          isAccepted = false) := by
  have hok : StackOK [.start, .root] := rfl
  have hc : [JsonState.start, .root].length ≤ JSON_MAX_STATE_STACK_LENGTH := by decide
  have htext : ∀ kinds, IsJsonText kinds ↔ jsmSteps [.start, .root] kinds = some [.root] := fun kinds =>
    completes_start_iff.symm.trans (completes_iff_steps hok)
  change JsmNeverRefuses (jsmOf [.start, .root] JSON_MAX_STATE_STACK_LENGTH) kinds at h
  constructor
  · obtain ⟨results, stack', hrun, hok', -, hall⟩ := jsmProcessTokens_eq hok hc h
    refine ⟨results, _, hrun, ?_⟩
    rw [currentState_root_iff hok', htext, hall]
    split <;> simp_all
  · rintro pre kind post rfl
    obtain ⟨hpre, hnext⟩ := neverRefuses_append h
    obtain ⟨results, stack, hrun, hok', hc', hall⟩ := jsmProcessTokens_eq hok hc hpre
    have hr := (hnext _ _ hrun).1
    obtain ⟨stack', -, hok'', -, hs⟩ := stepStack_ok hok' hc' hr
    have hsteps : ∀ continuation, IsJsonText (pre ++ kind :: continuation) ↔
        (∀ r ∈ results, r = true) ∧ (jsmStepResult stack kind JSON_MAX_STATE_STACK_LENGTH).1 = true ∧
          jsmSteps stack' continuation = some [.root] := by
      intro continuation
      rw [htext, jsmSteps_append, hall]
      split
      · rw [Option.bind_some, jsmSteps, hs]
        split <;> simp_all
      · simp_all
    refine ⟨results, _, _, _, hrun, jsmProcessToken_eq hok' hc' hr, ?_, ?_⟩
    · intro hrej continuation htext
      exact Bool.false_ne_true (hrej.symm.trans ((hsteps continuation).mp htext).2.1)
    · intro hacc hdead
      by_contra hne
      obtain ⟨continuation, hcont⟩ := exists_completes hok''
      exact hdead continuation ((hsteps continuation).mpr
        ⟨hacc, Bool.eq_true_of_not_eq_false hne, (completes_iff_steps hok'').mp hcont⟩)

/-- `{ "a" : null }`, a string of one character being its three tokens. -/
theorem jsm_accepts_jsonText_object :
    JsmNeverRefuses jsmInit [.objectOpen, .whitespace, .stringDelimiter, .unicodeCharacter, .stringDelimiter,
        .kvSeparator, .null, .objectClose] ∧
      IsJsonText [.objectOpen, .whitespace, .stringDelimiter, .unicodeCharacter, .stringDelimiter,
        .kvSeparator, .null, .objectClose] := by
  have h : JsmNeverRefuses jsmInit [.objectOpen, .whitespace, .stringDelimiter, .unicodeCharacter,
      .stringDelimiter, .kvSeparator, .null, .objectClose] := by
    simp only [JsmNeverRefuses]
    refine ⟨rfl, ?_⟩
    repeat' (first | trivial | (rintro _ ⟨⟩; refine ⟨rfl, ?_⟩))
  obtain ⟨results, jsm, hrun, hiff⟩ := (jsm_accepts_jsonText _ h).1
  exact ⟨h, hiff.mp (by cases hrun; exact ⟨by decide, rfl⟩)⟩

end Scomp
