/-
Calls that are repeated until one says that there is no more.

A call may also fail (`none`). There is one outcome, and if no call fails
the calls either come to an end or go on forever.
-/
import Mathlib.Logic.Function.Iterate
import Mathlib.Logic.Relation
import Mathlib.Tactic.Choose

namespace Until

variable {σ : Type*} {call : σ → Option (Bool × σ)}

/-- The call says that there is more. -/
def Continues (call : σ → Option (Bool × σ)) (s s' : σ) : Prop := call s = some (true, s')

def Reaches (call : σ → Option (Bool × σ)) : σ → σ → Prop := Relation.ReflTransGen (Continues call)

/-- Called until there is no more. -/
def Finishes (call : σ → Option (Bool × σ)) (s s' : σ) : Prop :=
  ∃ last, Reaches call s last ∧ call last = some (false, s')

/-- Called forever. -/
def Runs (call : σ → Option (Bool × σ)) (run : Nat → σ) : Prop := ∀ n, Continues call (run n) (run (n + 1))

theorem continues_rightUnique : Relator.RightUnique (Continues call) := by
  intro s s₁ s₂ h₁ h₂
  have heq : some (true, s₁) = some (true, s₂) := h₁.symm.trans h₂
  simpa using heq

/-- A state that is reached finishes where the first one does. -/
theorem Finishes.of_reached {s t s' : σ} (h : Finishes call s s') (hreached : Reaches call s t) :
    Finishes call t s' := by
  obtain ⟨last, hlast, hreturn⟩ := h
  rcases Relation.ReflTransGen.total_of_right_unique continues_rightUnique hlast hreached with hbeyond | hbefore
  · rcases hbeyond.cases_head with rfl | ⟨next, hnext, -⟩
    · exact ⟨last, .refl, hreturn⟩
    · have heq : some (false, s') = some (true, next) := hreturn.symm.trans hnext
      simp at heq
  · exact ⟨last, hbefore, hreturn⟩

/-- **The outcome is unique.** -/
theorem Finishes.unique {s s₁ s₂ : σ} (h₁ : Finishes call s s₁) (h₂ : Finishes call s s₂) : s₁ = s₂ := by
  obtain ⟨last, hlast, hreturn⟩ := h₁
  obtain ⟨last', hlast', hreturn'⟩ := h₂.of_reached hlast
  rcases hlast'.cases_head with rfl | ⟨next, hnext, -⟩
  · have heq : some (false, s₁) = some (false, s₂) := hreturn.symm.trans hreturn'
    simpa using heq
  · have heq : some (false, s₁) = some (true, next) := hreturn.symm.trans hnext
    simp at heq

/-- **Calls go on forever** where an invariant makes each of them return
true. -/
theorem not_finishes {inv : σ → Prop} (hinv : ∀ s, inv s → ∃ s', Continues call s s' ∧ inv s') {s : σ} (h : inv s) :
    ¬∃ s', Finishes call s s' := by
  have hreached : ∀ t, Reaches call s t → inv t := by
    intro t ht
    induction ht with
    | refl => exact h
    | @tail t u _ hstep ih =>
      obtain ⟨u', hnext, hu⟩ := hinv t ih
      rw [continues_rightUnique hstep hnext]
      exact hu
  rintro ⟨s', last, hlast, hreturn⟩
  obtain ⟨next, hnext, -⟩ := hinv last (hreached last hlast)
  have heq : some (false, s') = some (true, next) := hreturn.symm.trans hnext
  simp at heq

/-- **Calls that never fail** finish or go on forever. -/
theorem finishes_or_runs {s : σ} (hreturns : ∀ t, Reaches call s t → ∃ isMore t', call t = some (isMore, t')) :
    (∃ s', Finishes call s s') ∨ ∃ run, run 0 = s ∧ Runs call run := by
  by_cases hfinishes : ∃ s', Finishes call s s'
  · exact .inl hfinishes
  · right
    have hgoes : ∀ t : {t // Reaches call s t}, ∃ t' : {t // Reaches call s t}, Continues call t t' := by
      rintro ⟨t, ht⟩
      obtain ⟨isMore, t', hcall⟩ := hreturns t ht
      cases isMore with
      | false => exact absurd ⟨t', t, ht, hcall⟩ hfinishes
      | true => exact ⟨⟨t', ht.tail hcall⟩, hcall⟩
    choose next hnext using hgoes
    refine ⟨fun n => (next^[n] ⟨s, .refl⟩ : {t // Reaches call s t}), rfl, fun n => ?_⟩
    dsimp only
    rw [Function.iterate_succ_apply']
    exact hnext _

/-- The states before all calls are checked one by one, up to the last call. -/
def checkReached (call : σ → Option (Bool × σ)) (check : σ → Bool) : Nat → σ → Bool
  | 0, _ => false
  | fuel + 1, s => check s && match call s with
    | some (true, s') => checkReached call check fuel s'
    | _ => true

theorem checkReached_reaches {check : σ → Bool} {fuel : Nat} {s t : σ} (h : checkReached call check fuel s = true)
    (hreached : Reaches call s t) : check t = true := by
  induction fuel generalizing s with
  | zero => simp [checkReached] at h
  | succ fuel ih =>
    rw [checkReached, Bool.and_eq_true] at h
    rcases hreached.cases_head with rfl | ⟨next, hnext, hrest⟩
    · exact h.1
    · have hcall : call s = some (true, next) := hnext
      rw [hcall] at h
      exact ih h.2 hrest

theorem Runs.reaches {run : Nat → σ} (h : Runs call run) (n : Nat) : Reaches call (run 0) (run n) := by
  induction n with
  | zero => exact .refl
  | succ n ih => exact ih.tail (h n)

end Until
