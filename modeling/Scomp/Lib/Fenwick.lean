/-
Fenwick trees over any commutative addition.

Node `m` holds the sum of the entries `m - lowbit m + 1, .., m`: it covers
them. A query for `i` visits nodes whose covered ranges partition `1, .., i`,
an update of `x` exactly the nodes that cover `x`, so the two meet in one
node if `x ≤ i` and in none otherwise. That holds whatever the nodes held
before, so no invariant is needed.
-/
import Mathlib.Algebra.Group.Basic
import Mathlib.Data.Nat.Factorization.Basic
import Mathlib.Data.Int.Bitwise
import Mathlib.Data.Nat.Bitwise
import Mathlib.Logic.Function.Basic
import Mathlib.Tactic.Ring

namespace Fenwick

/-- `i & -i`, the lowest set bit: what clearing it takes away. -/
def lowbit (i : Nat) : Nat := i - (i &&& (i - 1))

/-- An odd multiple of a power of two has that power as its lowest bit. -/
theorem lowbit_odd (k q : Nat) : lowbit (2 ^ k * (2 * q + 1)) = 2 ^ k := by
  have hpos := Nat.two_pow_pos k
  have hi : 2 ^ k * (2 * q + 1) = 2 ^ k + 2 ^ (k + 1) * q := by ring
  have hpred : 2 ^ k * (2 * q + 1) - 1 = (2 ^ k - 1) + 2 ^ (k + 1) * q := by omega
  have hlt : 2 ^ k < 2 ^ (k + 1) := Nat.pow_lt_pow_right (by decide) (Nat.lt_succ_self k)
  have hclear : (2 ^ k + 2 ^ (k + 1) * q) &&& ((2 ^ k - 1) + 2 ^ (k + 1) * q) = 2 ^ (k + 1) * q := by
    rw [← Nat.div_add_mod ((2 ^ k + 2 ^ (k + 1) * q) &&& ((2 ^ k - 1) + 2 ^ (k + 1) * q)) (2 ^ (k + 1)),
      Nat.and_div_two_pow, Nat.and_mod_two_pow, Nat.add_mul_div_left _ _ (Nat.two_pow_pos _),
      Nat.add_mul_div_left _ _ (Nat.two_pow_pos _), Nat.add_mul_mod_self_left, Nat.add_mul_mod_self_left,
      Nat.div_eq_of_lt hlt, Nat.div_eq_of_lt (by omega), Nat.mod_eq_of_lt hlt, Nat.mod_eq_of_lt (by omega),
      Nat.and_self, Nat.and_two_pow_sub_one_eq_mod, Nat.mod_self, Nat.zero_add, Nat.add_zero]
  rw [lowbit, hpred, hi, hclear]
  omega

/-- Every index is such a multiple. -/
theorem exists_odd {i : Nat} (h : 0 < i) : ∃ k q, i = 2 ^ k * (2 * q + 1) ∧ lowbit i = 2 ^ k := by
  obtain ⟨k, m, hm, he⟩ := Nat.exists_eq_two_pow_mul_odd (Nat.pos_iff_ne_zero.mp h)
  obtain ⟨q, rfl⟩ := hm
  exact ⟨k, q, he, by rw [he, lowbit_odd]⟩

theorem lowbit_pos {i : Nat} (h : 0 < i) : 0 < lowbit i := by
  obtain ⟨k, q, -, hl⟩ := exists_odd h
  rw [hl]
  exact Nat.two_pow_pos k

theorem lowbit_le (i : Nat) : lowbit i ≤ i := Nat.sub_le _ _

theorem ldiff_add_and (a b : Nat) : Nat.ldiff a b + (a &&& b) = a := by
  induction a using Nat.binaryRec generalizing b with
  | zero =>
    rw [Nat.zero_and, Nat.add_zero]
    apply Nat.eq_of_testBit_eq
    simp [Nat.testBit_ldiff]
  | bit x a ih =>
    obtain ⟨y, b, rfl⟩ : ∃ y c, b = Nat.bit y c := ⟨_, _, (Nat.bit_testBit_zero_shiftRight_one b).symm⟩
    have hrest := ih b
    rw [Nat.ldiff_bit, Nat.land_bit]
    cases x <;> cases y <;> simp [Nat.bit_val] <;> omega

/-- In two's complement `-i` is `~(i - 1)`. -/
theorem lowbit_eq_land {i : Nat} (h : 0 < i) : (lowbit i : Int) = Int.land i (-i) := by
  match i with
  | i + 1 =>
    have hland : Int.land ((i + 1 : Nat) : Int) (-((i + 1 : Nat) : Int)) = (Nat.ldiff (i + 1) i : Nat) := rfl
    have hsplit := ldiff_add_and (i + 1) i
    rw [hland, lowbit, Nat.add_sub_cancel]
    omega

/-- Node `m` holds entry `x`. -/
def Covers (m x : Nat) : Prop := m - lowbit m < x ∧ x ≤ m

instance (m x : Nat) : Decidable (Covers m x) := inferInstanceAs (Decidable (_ ∧ _))

/-- The nodes that cover `x` are `x` itself and those that cover the next
node of its update. -/
theorem covers_iff {m x : Nat} (hx : 0 < x) : Covers m x ↔ m = x ∨ Covers m (x + lowbit x) := by
  rcases Nat.eq_zero_or_pos m with rfl | hm
  · unfold Covers
    omega
  obtain ⟨k, q, hxk, hlx⟩ := exists_odd hx
  obtain ⟨j, p, hmj, hlm⟩ := exists_odd hm
  have hlow : m - lowbit m = 2 ^ j * (2 * p) := by
    rw [hlm, hmj, Nat.mul_add, Nat.mul_one, Nat.add_sub_cancel]
  have hnext : x + lowbit x = 2 ^ (k + 1) * (q + 1) := by rw [hlx, hxk]; ring
  rw [Covers, Covers, hlow, hnext]
  rcases Nat.lt_or_ge k j with hkj | hjk
  · -- the bounds of `m` are multiples of `2 ^ (k + 1)`, and `x` lies between two
    obtain ⟨d, rfl⟩ : ∃ d, j = k + 1 + d := ⟨j - (k + 1), by omega⟩
    have hbelow : 2 ^ (k + 1 + d) * (2 * p) = 2 ^ (k + 1) * (2 ^ d * (2 * p)) := by ring
    have habove : m = 2 ^ (k + 1) * (2 ^ d * (2 * p + 1)) := by rw [hmj]; ring
    have hmid : x = 2 ^ (k + 1) * q + 2 ^ k := by rw [hxk]; ring
    have hhalf : 2 ^ (k + 1) = 2 ^ k + 2 ^ k := by ring
    have hpos := Nat.two_pow_pos k
    have hcmp : ∀ c, (c ≤ q → 2 ^ (k + 1) * c ≤ 2 ^ (k + 1) * q) ∧
        (q + 1 ≤ c → 2 ^ (k + 1) * (q + 1) ≤ 2 ^ (k + 1) * c) :=
      fun c => ⟨Nat.mul_le_mul_left _, Nat.mul_le_mul_left _⟩
    have hsucc : 2 ^ (k + 1) * (q + 1) = 2 ^ (k + 1) * q + 2 ^ (k + 1) := Nat.mul_succ _ _
    have hlower := hcmp (2 ^ d * (2 * p))
    have hupper := hcmp (2 ^ d * (2 * p + 1))
    rw [hbelow, habove, hmid]
    omega
  · -- both are multiples of `2 ^ j`, so a node covers only its own
    obtain ⟨d, rfl⟩ : ∃ d, k = j + d := ⟨k - j, by omega⟩
    have hmul : x = 2 ^ j * (2 ^ d * (2 * q + 1)) := by rw [hxk]; ring
    have heven : 2 ^ (j + d + 1) * (q + 1) = 2 ^ j * (2 * (2 ^ d * (q + 1))) := by ring
    have hpos := Nat.two_pow_pos j
    rw [heven, hmul, hmj, Nat.mul_lt_mul_left hpos, Nat.mul_le_mul_left_iff hpos, Nat.mul_lt_mul_left hpos,
      Nat.mul_le_mul_left_iff hpos, Nat.mul_right_inj (Nat.pos_iff_ne_zero.mp hpos)]
    omega

/-! ## Queries and updates -/

section
variable {α : Type}

/-- The sum along `i, i - lowbit i, ..`; `i` turns are enough. -/
def query [Add α] [Zero α] (data : Nat → α) : Nat → Nat → α
  | 0, _ => 0
  | fuel + 1, i => if i = 0 then 0 else data i + query data fuel (i - lowbit i)

/-- Adds to the nodes `i, i + lowbit i, ..` below `size`; `size` turns are
enough. -/
def update [Add α] (size : Nat) (delta : α) : Nat → Nat → (Nat → α) → (Nat → α)
  | 0, _, data => data
  | fuel + 1, i, data =>
    if i < size then update size delta fuel (i + lowbit i) (Function.update data i (data i + delta)) else data

variable [AddCommMonoid α]

theorem update_apply {size delta fuel x} {data : Nat → α} (hx : 0 < x) (hfuel : size ≤ fuel + x) (m : Nat) :
    update size delta fuel x data m = data m + if Covers m x ∧ m < size then delta else 0 := by
  induction fuel generalizing x data with
  | zero =>
    have hno : ¬ (Covers m x ∧ m < size) := fun h => by have := h.1.2; omega
    rw [update, if_neg hno, add_zero]
  | succ fuel ih =>
    rw [update]
    have hlow := lowbit_pos hx
    split
    · next hlt =>
      rw [ih (by omega) (by omega)]
      by_cases hm : m = x
      · subst hm
        have hself : Covers m m := (covers_iff hx).mpr (.inl rfl)
        have hnot : ¬ Covers m (m + lowbit m) := fun h => by have := h.2; omega
        rw [Function.update_self, if_neg (fun h => hnot h.1), if_pos ⟨hself, hlt⟩, add_zero]
      · have hnext : Covers m x ↔ Covers m (x + lowbit x) := by rw [covers_iff hx, or_iff_right hm]
        simp only [Function.update_of_ne hm, hnext]
    · next hge =>
      have hno : ¬ (Covers m x ∧ m < size) := fun h => by have := h.1.2; omega
      rw [if_neg hno, add_zero]

theorem query_add (data data' : Nat → α) (fuel i : Nat) :
    query (fun m => data m + data' m) fuel i = query data fuel i + query data' fuel i := by
  induction fuel generalizing i with
  | zero => rw [query, query, query, add_zero]
  | succ fuel ih =>
    rw [query, query, query]
    split
    · rw [add_zero]
    · rw [ih, add_add_add_comm]

/-- Exactly one of the nodes of a query covers an entry up to its index. -/
theorem query_covers {size x : Nat} (delta : α) (hx : 0 < x) {fuel i : Nat} (hi : i < size) (hfuel : i ≤ fuel) :
    query (fun m => if Covers m x ∧ m < size then delta else 0) fuel i = if x ≤ i then delta else 0 := by
  induction fuel generalizing i with
  | zero => rw [query, if_neg (by omega)]
  | succ fuel ih =>
    rw [query]
    split
    · rw [if_neg (by omega)]
    · next hne =>
      have hlow := lowbit_pos (Nat.pos_of_ne_zero hne)
      have hle := lowbit_le i
      rw [ih (by omega) (by omega)]
      by_cases hc : Covers i x
      · obtain ⟨hlo, hhi⟩ := hc
        rw [if_pos ⟨⟨hlo, hhi⟩, hi⟩, if_neg (by omega), if_pos hhi, add_zero]
      · rw [if_neg (fun h => hc h.1), zero_add]
        unfold Covers at hc
        by_cases hxi : x ≤ i
        · rw [if_pos hxi, if_pos (by omega)]
        · rw [if_neg hxi, if_neg (by omega)]

/-- **An update adds to the prefix sums from its index on**. -/
theorem query_update {size delta fuel fuel' x i} {data : Nat → α} (hx : 0 < x) (hfuel : size ≤ fuel + x)
    (hi : i < size) (hfuel' : i ≤ fuel') :
    query (update size delta fuel x data) fuel' i = query data fuel' i + if x ≤ i then delta else 0 := by
  have hdata : update size delta fuel x data = fun m => data m + if Covers m x ∧ m < size then delta else 0 :=
    funext (update_apply hx hfuel)
  rw [hdata, query_add, query_covers delta hx hi hfuel']

theorem query_zero (fuel i : Nat) : query (fun _ => (0 : α)) fuel i = 0 := by
  induction fuel generalizing i with
  | zero => rfl
  | succ fuel ih =>
    rw [query, ih, add_zero]
    split <;> rfl

end

end Fenwick
