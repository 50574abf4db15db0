/-
Loops that end, with the number of their turns.

A loop of a program is modelled by a function with a bound on its turns;
`WhileEnds` says without a bound what such a function computes.
-/
import Mathlib.Logic.Function.Iterate
import Mathlib.Data.Nat.Find

variable {σ : Type} {guard : σ → Bool} {body : σ → σ}

/-- `while guard do body` from `start` ends in `final` after `turns` turns. -/
structure WhileEnds (guard : σ → Bool) (body : σ → σ) (start : σ) (turns : Nat) (final : σ) : Prop where
  final_eq : body^[turns] start = final
  going : ∀ k < turns, guard (body^[k] start) = true
  done : guard final = false

theorem WhileEnds.zero {s : σ} (h : guard s = false) : WhileEnds guard body s 0 s :=
  ⟨rfl, fun k hk => absurd hk (Nat.not_lt_zero k), h⟩

theorem WhileEnds.turn {s final : σ} {turns : Nat} (hs : guard s = true)
    (h : WhileEnds guard body (body s) turns final) : WhileEnds guard body s (turns + 1) final := by
  refine ⟨h.final_eq, fun k hk => ?_, h.done⟩
  cases k with
  | zero => exact hs
  | succ k => exact h.going k (Nat.lt_of_succ_lt_succ hk)

theorem WhileEnds.of_zero {s final : σ} (h : WhileEnds guard body s 0 final) : guard s = false ∧ final = s := by
  obtain rfl : s = final := h.final_eq
  exact ⟨h.done, rfl⟩

theorem WhileEnds.of_succ {s final : σ} {turns : Nat} (h : WhileEnds guard body s (turns + 1) final) :
    guard s = true ∧ WhileEnds guard body (body s) turns final :=
  ⟨h.going 0 (Nat.succ_pos turns), h.final_eq, fun k hk => h.going (k + 1) (Nat.succ_lt_succ hk), h.done⟩

/-- A loop ends when its guard fails after some number of turns; the first
such number is that of its turns. -/
theorem WhileEnds.exists_iff {s : σ} :
    (∃ turns final, WhileEnds guard body s turns final) ↔ ∃ k, guard (body^[k] s) = false := by
  constructor
  · intro hends
    obtain ⟨turns, final, h⟩ := hends
    exact ⟨turns, by rw [h.final_eq]; exact h.done⟩
  · intro hex
    refine ⟨Nat.find hex, body^[Nat.find hex] s, rfl, fun k hk => ?_, Nat.find_spec hex⟩
    exact eq_true_of_ne_false (Nat.find_min hex hk)

/-- A function with a bound on its turns returns what the loop ends in, when
the bound is not below the loop's turns. -/
theorem WhileEnds.bounded {ρ : Type*} {run : Nat → σ → ρ} {result : σ → ρ}
    (hturn : ∀ bound s, guard s = true → run (bound + 1) s = run bound (body s))
    (hdone : ∀ bound s, guard s = false → run bound s = result s) {s final : σ} {turns bound : Nat}
    (h : WhileEnds guard body s turns final) (hbound : turns ≤ bound) : run bound s = result final := by
  induction turns generalizing bound s with
  | zero =>
    obtain ⟨hs, rfl⟩ := h.of_zero
    exact hdone bound final hs
  | succ turns ih =>
    obtain ⟨hs, hrest⟩ := h.of_succ
    obtain ⟨bound, rfl⟩ := Nat.exists_eq_add_of_le' (Nat.le_trans (Nat.succ_pos turns) hbound)
    rw [hturn bound s hs]
    exact ih hrest (Nat.le_of_succ_le_succ hbound)

/-- What a turn preserves holds before and after every turn. -/
theorem WhileEnds.invariant {s final : σ} {turns : Nat} (h : WhileEnds guard body s turns final) {P : σ → Prop}
    (hs : P s) (hstep : ∀ s, P s → guard s = true → P (body s)) : ∀ k ≤ turns, P (body^[k] s) := by
  intro k hk
  induction k with
  | zero => exact hs
  | succ k ih =>
    rw [Function.iterate_succ_apply']
    exact hstep _ (ih (Nat.le_of_succ_le hk)) (h.going k hk)
