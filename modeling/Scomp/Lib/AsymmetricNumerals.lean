/-
Coding by one growing number, without a machine word.

A symbol owns the remainders from `low` to `low + freq` of a total. Taking a
symbol into a number multiplies it by about `total / freq`, and gives both
back; shedding low bits first keeps the number between the total and twice
the total.
-/
import Mathlib.Data.Nat.Bits
import Mathlib.Tactic.Ring

namespace AsymmetricNumerals

/-- The number after a symbol is taken in. -/
def next (freq low total x : Nat) : Nat := x / freq * total + x % freq + low

/-- The number before. -/
def prev (freq low total x : Nat) : Nat := freq * (x / total) + (x % total - low)

variable {freq low total x y k : Nat}

theorem next_eq (freq low total x : Nat) : next freq low total x = (x % freq + low) + total * (x / freq) := by
  unfold next
  ring

/-- The remainder by the total is one of the symbol's. -/
theorem next_mod (hpos : 0 < freq) (hshare : low + freq ≤ total) : next freq low total x % total = x % freq + low := by
  have hmod := Nat.mod_lt x hpos
  rw [next_eq, Nat.add_mul_mod_self_left, Nat.mod_eq_of_lt (by omega)]

theorem next_div (hpos : 0 < freq) (hshare : low + freq ≤ total) : next freq low total x / total = x / freq := by
  have hmod := Nat.mod_lt x hpos
  rw [next_eq, Nat.add_mul_div_left _ _ (by omega), Nat.div_eq_of_lt (by omega), Nat.zero_add]

/-- **A symbol taken in comes out again**, with the number before it. -/
theorem prev_next (hpos : 0 < freq) (hshare : low + freq ≤ total) :
    prev freq low total (next freq low total x) = x := by
  rw [prev, next_mod hpos hshare, next_div hpos hshare, Nat.add_sub_cancel, Nat.div_add_mod]

/-- The number outgrows twice the total exactly when it was not below twice
the frequency. -/
theorem two_mul_le_next_iff (hpos : 0 < freq) (hshare : low + freq ≤ total) :
    2 * total ≤ next freq low total x ↔ 2 * freq ≤ x := by
  have hdiv := @next_div _ _ _ x hpos hshare
  have htotal : 0 < total := by omega
  rw [← Nat.le_div_iff_mul_le htotal, hdiv, Nat.le_div_iff_mul_le hpos]

theorem le_next (hpos : 0 < freq) (hshare : low + freq ≤ total) (hx : freq ≤ x) : total ≤ next freq low total x := by
  have hdiv := @next_div _ _ _ x hpos hshare
  have hone : 1 ≤ next freq low total x / total := by
    rw [hdiv, Nat.le_div_iff_mul_le hpos, Nat.one_mul]
    exact hx
  rw [Nat.le_div_iff_mul_le (by omega), Nat.one_mul] at hone
  exact hone

/-! ## Bits shed and taken back -/

/-- The `k` lowest bits, the lowest first. -/
def lowBits (k x : Nat) : List Bool := (List.range k).map x.testBit

theorem lowBits_succ (k x : Nat) : lowBits (k + 1) x = lowBits k x ++ [x.testBit k] := by
  simp [lowBits, List.range_succ]

theorem lowBits_cons (k x : Nat) : lowBits (k + 1) x = x.testBit 0 :: lowBits k (x / 2) := by
  simp [lowBits, List.range_succ_eq_map, Nat.testBit_succ]

/-- A bit taken back undoes one halving. -/
theorem div_pow_eq (k x : Nat) : x / 2 ^ k = 2 * (x / 2 ^ (k + 1)) + (x.testBit k).toNat := by
  have hbit : (x.testBit k).toNat = x / 2 ^ k % 2 := by
    rw [Nat.testBit_eq_decide_div_mod_eq]
    rcases Nat.mod_two_eq_zero_or_one (x / 2 ^ k) with hmod | hmod <;> simp [hmod]
  rw [hbit, Nat.pow_succ, ← Nat.div_div_eq_div_mul]
  omega

/-- As long as bits are missing the number is below what it is to reach. -/
theorem div_pow_lt (hx : x < 2 * total) (k : Nat) : x / 2 ^ (k + 1) < total := by
  have hpow : 2 ^ (k + 1) = 2 * 2 ^ k := by ring
  rw [Nat.div_lt_iff_lt_mul (Nat.two_pow_pos _), hpow]
  have hle : total * 2 ≤ total * (2 * 2 ^ k) := Nat.mul_le_mul_left _ (Nat.le_mul_of_pos_right _ (Nat.two_pow_pos k))
  omega

end AsymmetricNumerals
