/-
Bisection: the search of a change of a test between two numbers, over any
test.

The test fails at the lower end and holds at the upper one, before and after
every turn. When the ends are next to each other they are a change of the
test. That there is only one change is not needed for the search to end.
-/
import Scomp.Lib.While

namespace Bisection

/-- There is a number between the ends. -/
def going (ends : Nat × Nat) : Bool := ends.2 - ends.1 > 1

/-- The middle becomes one of the ends. -/
def turn (above : Nat → Bool) (ends : Nat × Nat) : Nat × Nat :=
  let middle := (ends.1 + ends.2) / 2
  if above middle then (ends.1, middle) else (middle, ends.2)

/-- The test changes between the ends. -/
structure Brackets (above : Nat → Bool) (ends : Nat × Nat) : Prop where
  lt : ends.1 < ends.2
  low : above ends.1 = false
  high : above ends.2 = true

variable {above : Nat → Bool} {ends : Nat × Nat}

/-- A turn keeps the change between the ends and takes them closer. -/
theorem Brackets.turn (h : Brackets above ends) (hgoing : going ends = true) :
    Brackets above (turn above ends) ∧ ends.1 ≤ (turn above ends).1 ∧ (turn above ends).2 ≤ ends.2 ∧
      (turn above ends).2 - (turn above ends).1 < ends.2 - ends.1 := by
  have hlt := h.lt
  have hapart : ends.2 - ends.1 > 1 := of_decide_eq_true hgoing
  unfold Bisection.turn
  dsimp only
  split
  · next hmiddle =>
    refine ⟨⟨?_, h.low, hmiddle⟩, Nat.le_refl _, ?_, ?_⟩ <;> dsimp only <;> omega
  · next hmiddle =>
    refine ⟨⟨?_, Bool.eq_false_iff.mpr hmiddle, h.high⟩, ?_, Nat.le_refl _, ?_⟩ <;> dsimp only <;> omega

/-- **The search ends at a change of the test**, after no more turns than
there are numbers between the ends. -/
theorem Brackets.search (h : Brackets above ends) :
    ∃ turns found, turns ≤ ends.2 - ends.1 ∧ ends.1 ≤ found ∧ found < ends.2 ∧
      WhileEnds going (Bisection.turn above) ends turns (found, found + 1) ∧ Brackets above (found, found + 1) := by
  obtain ⟨start, stop⟩ := ends
  -- the distance of the ends
  generalize hsize : stop - start = size
  induction size using Nat.strongRecOn generalizing start stop with
  | ind size ih =>
    by_cases hgoing : going (start, stop) = true
    · obtain ⟨h', hstart, hstop, hcloser⟩ := h.turn hgoing
      obtain ⟨turns, found, hturns, hlow, hhigh, hends, hfound⟩ := ih _ (hsize ▸ hcloser)
        (Bisection.turn above (start, stop)).1 (Bisection.turn above (start, stop)).2 h' rfl
      dsimp only at hstart hstop hcloser hturns hlow hhigh
      exact ⟨turns + 1, found, by omega, by omega, by omega, .turn hgoing hends, hfound⟩
    · have hlt : start < stop := h.lt
      have hnext : stop = start + 1 := by
        have hdone : ¬ stop - start > 1 := fun hn => hgoing (decide_eq_true hn)
        omega
      subst hnext
      exact ⟨0, start, Nat.zero_le _, Nat.le_refl _, hlt, .zero (Bool.eq_false_iff.mpr hgoing), h⟩

/-- No turn leaves the range. -/
theorem Brackets.within {turns : Nat} {final : Nat × Nat} (h : Brackets above ends)
    (hends : WhileEnds going (Bisection.turn above) ends turns final) : ∀ k ≤ turns,
    ((Bisection.turn above)^[k] ends).1 < ((Bisection.turn above)^[k] ends).2 ∧
      ((Bisection.turn above)^[k] ends).2 ≤ ends.2 := by
  intro k hk
  have hstep : ∀ s, Brackets above s ∧ s.2 ≤ ends.2 → going s = true →
      Brackets above (Bisection.turn above s) ∧ (Bisection.turn above s).2 ≤ ends.2 := by
    intro s hs hgoing
    obtain ⟨hnext, -, hstop, -⟩ := hs.1.turn hgoing
    exact ⟨hnext, Nat.le_trans hstop hs.2⟩
  obtain ⟨hk', hle⟩ := hends.invariant ⟨h, Nat.le_refl _⟩ hstep k hk
  exact ⟨hk'.lt, hle⟩

end Bisection
