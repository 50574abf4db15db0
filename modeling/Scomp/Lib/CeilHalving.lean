/-
Numbers divided by two again and again, each time rounded up.

Rounding up keeps what is positive positive, so the sum of a family does not
fall below the number of its positive members. It comes down to that number,
and not further: a bound on the sum is reached if and only if it is above it.
-/
import Mathlib.Algebra.Order.Floor.Div
import Mathlib.Algebra.Order.BigOperators.Group.Finset
import Mathlib.GroupTheory.GroupAction.Ring

namespace CeilHalving

open Finset

/-- **Rounding up twice is rounding up once.** -/
theorem ceilDiv_ceilDiv (a : ℕ) {b c : ℕ} (hb : 0 < b) (hc : 0 < c) : a ⌈/⌉ b ⌈/⌉ c = a ⌈/⌉ (b * c) := by
  refine eq_of_forall_ge_iff fun n => ?_
  rw [ceilDiv_le_iff_le_mul hc, ceilDiv_le_iff_le_mul hb, ceilDiv_le_iff_le_mul (Nat.mul_pos hb hc), mul_assoc]

/-- Half of a number that was already halved `k` times. -/
theorem half_ceilDiv (a k : ℕ) : (a ⌈/⌉ 2 ^ k + 1) / 2 = a ⌈/⌉ 2 ^ (k + 1) :=
  calc (a ⌈/⌉ 2 ^ k + 1) / 2 = a ⌈/⌉ 2 ^ k ⌈/⌉ 2 := rfl
    _ = a ⌈/⌉ (2 ^ k * 2) := ceilDiv_ceilDiv a (Nat.two_pow_pos k) Nat.two_pos
    _ = a ⌈/⌉ 2 ^ (k + 1) := by rw [pow_succ]

theorem ceilDiv_le_self (a : ℕ) {d : ℕ} (hd : 0 < d) : a ⌈/⌉ d ≤ a :=
  (ceilDiv_le_iff_le_mul hd).2 (Nat.le_mul_of_pos_left a hd)

theorem ceilDiv_pos {a d : ℕ} (hd : 0 < d) (ha : 0 < a) : 0 < a ⌈/⌉ d := by
  by_contra hzero
  have hle := (ceilDiv_le_iff_le_mul hd).1 (Nat.le_of_not_lt hzero)
  omega

variable {ι : Type*} (s : Finset ι) (f : ι → ℕ)

/-- No positive member gets lost. -/
theorem card_le_sum {d : ℕ} (hd : 0 < d) : (s.filter fun i => f i ≠ 0).card ≤ ∑ i ∈ s, f i ⌈/⌉ d := by
  rw [card_eq_sum_ones, sum_filter]
  refine sum_le_sum fun i _ => ?_
  split
  · next hi => exact ceilDiv_pos hd (Nat.pos_of_ne_zero hi)
  · exact Nat.zero_le _

/-- Divided by what none exceeds, the positive members are all 1. -/
theorem sum_eq_card {d : ℕ} (hd : 0 < d) (hf : ∀ i ∈ s, f i ≤ d) :
    ∑ i ∈ s, f i ⌈/⌉ d = (s.filter fun i => f i ≠ 0).card := by
  rw [card_eq_sum_ones, sum_filter]
  refine sum_congr rfl fun i hi => ?_
  split
  · next hne =>
    have hle : f i ⌈/⌉ d ≤ 1 := (ceilDiv_le_iff_le_mul hd).2 (by rw [Nat.mul_one]; exact hf i hi)
    exact Nat.le_antisymm hle (ceilDiv_pos hd (Nat.pos_of_ne_zero hne))
  · next hzero =>
    rw [Decidable.not_not.1 hzero]
    exact zero_ceilDiv d

/-- **Which sums are reached**, and that the last round that makes a
difference is the `bits`-th. -/
theorem exists_sum_lt_iff {bits : ℕ} (hf : ∀ i ∈ s, f i ≤ 2 ^ bits) (limit : ℕ) :
    (∃ k, ∑ i ∈ s, f i ⌈/⌉ 2 ^ k < limit) ↔ (s.filter fun i => f i ≠ 0).card < limit := by
  constructor
  · intro hex
    obtain ⟨k, hk⟩ := hex
    exact Nat.lt_of_le_of_lt (card_le_sum s f (Nat.two_pow_pos k)) hk
  · intro hlt
    refine ⟨bits, ?_⟩
    rw [sum_eq_card s f (Nat.two_pow_pos bits) hf]
    exact hlt

end CeilHalving
