/-
Bytes as bits, least significant bit first.
-/
import Mathlib.Data.UInt

namespace Bits

/-- The eight bits of a byte, least significant first. -/
def ofByte (b : UInt8) : List Bool := (List.range 8).map b.toNat.testBit

def ofBytes (bytes : List UInt8) : List Bool := bytes.flatMap ofByte

/-- The number that the bits denote, least significant first. -/
def toNat : List Bool → Nat
  | [] => 0
  | bit :: bits => bit.toNat + 2 * toNat bits

@[simp] theorem ofByte_length (b : UInt8) : (ofByte b).length = 8 := by simp [ofByte]

@[simp] theorem ofBytes_nil : ofBytes [] = [] := rfl

@[simp] theorem ofBytes_cons (b : UInt8) (bytes : List UInt8) :
    ofBytes (b :: bytes) = ofByte b ++ ofBytes bytes := by simp [ofBytes]

@[simp] theorem ofBytes_append (xs ys : List UInt8) : ofBytes (xs ++ ys) = ofBytes xs ++ ofBytes ys := by
  simp [ofBytes]

@[simp] theorem ofBytes_length (bytes : List UInt8) : (ofBytes bytes).length = 8 * bytes.length := by
  induction bytes with
  | nil => rfl
  | cons b bytes ih => simp only [ofBytes_cons, List.length_append, ofByte_length, ih, List.length_cons]; omega

theorem ofByte_getElem? (b : UInt8) {i : Nat} (hi : i < 8) : (ofByte b)[i]? = some (b.toNat.testBit i) := by
  simp [ofByte, hi]

/-- A small byte has no bits above. -/
theorem ofByte_drop_of_lt {b : UInt8} {m : Nat} (h : b.toNat < 2 ^ m) :
    (ofByte b).drop m = List.replicate (8 - m) false := by
  refine List.ext_getElem (by simp) fun i hi _ => ?_
  rw [List.length_drop, ofByte_length] at hi
  have hget := @ofByte_getElem? b (m + i) (by omega)
  rw [List.getElem_replicate, List.getElem_drop]
  rw [List.getElem?_eq_getElem (by rw [ofByte_length]; omega), Option.some.injEq] at hget
  rw [hget]
  exact Nat.testBit_lt_two_pow (Nat.lt_of_lt_of_le h (Nat.pow_le_pow_right (by decide) (Nat.le_add_right m i)))

/-- A byte is what its bits denote. -/
theorem toNat_ofByte (b : UInt8) : toNat (ofByte b) = b.toNat := by
  have hb : b.toNat < 256 := b.toNat_lt
  simp only [ofByte, List.range, List.range.loop, List.map, toNat, Nat.testBit_eq_decide_div_mod_eq]
  generalize b.toNat = n at hb
  have hbit : ∀ m : Nat, (decide (m % 2 = 1)).toNat = m % 2 := by
    intro m
    rcases Nat.mod_two_eq_zero_or_one m with h | h <;> simp [h]
  simp only [hbit]
  omega

theorem ofByte_injective {a b : UInt8} (h : ofByte a = ofByte b) : a = b := by
  have ht : a.toNat = b.toNat := by rw [← toNat_ofByte a, ← toNat_ofByte b, h]
  exact UInt8.toNat_inj.mp ht

theorem ofBytes_injective {xs ys : List UInt8} (h : ofBytes xs = ofBytes ys) : xs = ys := by
  induction xs generalizing ys with
  | nil =>
    have hl := congrArg List.length h
    simp only [ofBytes_length, List.length_nil] at hl
    exact (List.eq_nil_of_length_eq_zero (by omega)).symm
  | cons x xs ih =>
    cases ys with
    | nil => have hl := congrArg List.length h; simp at hl
    | cons y ys =>
      rw [ofBytes_cons, ofBytes_cons] at h
      obtain ⟨hx, hxs⟩ := List.append_inj h (by simp)
      rw [ofByte_injective hx, ih hxs]

/-- The low bits of a byte. -/
theorem ofByte_take (b : UInt8) {m : Nat} (hm : m ≤ 8) : (ofByte b).take m = (List.range m).map b.toNat.testBit := by
  rw [ofByte, ← List.map_take, List.take_range, Nat.min_eq_left hm]

/-! ## A bit set above others -/

theorem testBit_or_shift {n j : Nat} (bit : Bool) (hn : n < 2 ^ j) (i : Nat) :
    (n ||| (bit.toNat <<< j)).testBit i = if i < j then n.testBit i else if i = j then bit else false := by
  rw [Nat.testBit_or, Nat.testBit_shiftLeft]
  split
  · next hi => simp [Nat.not_le.mpr hi]
  · next hi =>
    rw [Nat.testBit_lt_two_pow (Nat.lt_of_lt_of_le hn (Nat.pow_le_pow_right (by decide) (by omega)))]
    split
    · next he => subst he; cases bit <;> simp
    · next he =>
      have hone : Nat.testBit 1 (i - j) = false := by
        rw [Nat.testBit_eq_decide_div_mod_eq, Nat.div_eq_of_lt (Nat.one_lt_two_pow (by omega))]
        rfl
      cases bit <;> simp [hone]

theorem or_shift_lt {n j : Nat} (bit : Bool) (hn : n < 2 ^ j) : n ||| (bit.toNat <<< j) < 2 ^ (j + 1) := by
  refine Nat.or_lt_two_pow (Nat.lt_of_lt_of_le hn (Nat.pow_le_pow_right (by decide) (by omega))) ?_
  rw [Nat.shiftLeft_eq, Nat.pow_succ]
  have hpos : 0 < 2 ^ j := Nat.two_pow_pos j
  cases bit with
  | false =>
    rw [Bool.toNat_false]
    omega
  | true =>
    rw [Bool.toNat_true]
    omega

theorem or_shift_toNat (b : UInt8) {j : Nat} (bit : Bool) (hj : j < 8) :
    (b ||| (bit.toUInt8 <<< UInt8.ofNat j)).toNat = b.toNat ||| (bit.toNat <<< j) := by
  have hshift : bit.toNat <<< j < 256 := by
    rw [Nat.shiftLeft_eq]
    have hpow : 2 ^ j ≤ 2 ^ 7 := Nat.pow_le_pow_right (by decide) (by omega)
    cases bit
    · simp
    · simp; omega
  have hj8 : (UInt8.ofNat j).toNat % 8 = j := by rw [UInt8.toNat_ofNat']; omega
  have hbit : bit.toUInt8.toNat = bit.toNat := by cases bit <;> rfl
  rw [UInt8.toNat_or, UInt8.toNat_shiftLeft, hj8, hbit, Nat.mod_eq_of_lt hshift]

/-- A bit set above the bits of a partial byte is its next bit. -/
theorem ofByte_or_shift {b : UInt8} {j : Nat} (bit : Bool) (hj : j < 8) (hb : b.toNat < 2 ^ j) :
    (b ||| (bit.toUInt8 <<< UInt8.ofNat j)).toNat < 2 ^ (j + 1) ∧
      (ofByte (b ||| (bit.toUInt8 <<< UInt8.ofNat j))).take (j + 1) = (ofByte b).take j ++ [bit] := by
  have hval := or_shift_toNat b bit hj
  refine ⟨by rw [hval]; exact or_shift_lt bit hb, ?_⟩
  have hbelow : ∀ i ∈ List.range j, (b.toNat ||| (bit.toNat <<< j)).testBit i = b.toNat.testBit i := by
    intro i hi
    rw [testBit_or_shift bit hb, if_pos (List.mem_range.mp hi)]
  rw [ofByte_take _ (Nat.succ_le_of_lt hj), ofByte_take _ (Nat.le_of_lt hj), hval, List.range_succ, List.map_append,
    List.map_congr_left hbelow, List.map_singleton, testBit_or_shift bit hb, if_neg (Nat.lt_irrefl j), if_pos rfl]

/-- The byte at a position, and the bits from there on. -/
theorem drop_ofBytes {bytes : List UInt8} {i : Nat} {b : UInt8} (h : bytes[i]? = some b) :
    (ofBytes bytes).drop (8 * i) = ofByte b ++ (ofBytes bytes).drop (8 * (i + 1)) := by
  induction bytes generalizing i with
  | nil => cases h
  | cons c bytes ih =>
    cases i with
    | zero =>
      cases h
      simp [List.drop_append]
    | succ i =>
      have h8 : ∀ j, (ofByte c ++ ofBytes bytes).drop (8 * (j + 1)) = (ofBytes bytes).drop (8 * j) := by
        intro j
        rw [List.drop_append, ofByte_length, List.drop_of_length_le (by rw [ofByte_length]; omega),
          List.nil_append]
        congr 1
      rw [ofBytes_cons, h8, h8 (i + 1)]
      exact ih h

/-- Dropping and taking whole bytes. -/
theorem ofBytes_drop (bytes : List UInt8) (n : Nat) : ofBytes (bytes.drop n) = (ofBytes bytes).drop (8 * n) := by
  induction bytes generalizing n with
  | nil => simp
  | cons b bytes ih =>
    cases n with
    | zero => rfl
    | succ n =>
      have hb : (ofByte b).drop (8 * (n + 1)) = [] := List.drop_of_length_le (by rw [ofByte_length]; omega)
      rw [List.drop_succ_cons, ih n, ofBytes_cons, List.drop_append, ofByte_length, hb, List.nil_append]
      congr 1

theorem ofBytes_take (bytes : List UInt8) (n : Nat) : ofBytes (bytes.take n) = (ofBytes bytes).take (8 * n) := by
  induction bytes generalizing n with
  | nil => simp
  | cons b bytes ih =>
    cases n with
    | zero => rfl
    | succ n =>
      have hb : (ofByte b).take (8 * (n + 1)) = ofByte b := List.take_of_length_le (by rw [ofByte_length]; omega)
      rw [List.take_succ_cons, ofBytes_cons, ih n, ofBytes_cons, List.take_append, ofByte_length, hb]
      congr 2

/-- The bit at a position. -/
theorem ofBytes_getElem? {bytes : List UInt8} {i : Nat} {b : UInt8} (h : bytes[i / 8]? = some b) :
    (ofBytes bytes)[i]? = some (b.toNat.testBit (i % 8)) := by
  have hi : i = 8 * (i / 8) + i % 8 := (Nat.div_add_mod i 8).symm
  have hlt : i % 8 < 8 := Nat.mod_lt _ (by decide)
  rw [hi, ← List.getElem?_drop, drop_ofBytes h, List.getElem?_append_left (by rw [ofByte_length]; exact hlt),
    ofByte_getElem? b hlt]
  congr 2
  omega

/-- Merging a part of `size` bits above `shift` others. -/
theorem or_shiftLeft_toNat {value part : UInt64} {size shift : Nat} (hv : value.toNat < 2 ^ shift)
    (hp : part.toNat < 2 ^ size) (hfits : size + shift ≤ 64) (hshift : shift < 64) :
    (value ||| (part <<< UInt64.ofNat shift)).toNat = part.toNat * 2 ^ shift + value.toNat := by
  have hpow : part.toNat * 2 ^ shift < 2 ^ 64 := by
    calc part.toNat * 2 ^ shift < 2 ^ size * 2 ^ shift := Nat.mul_lt_mul_of_pos_right hp (Nat.two_pow_pos _)
      _ = 2 ^ (size + shift) := (Nat.pow_add 2 size shift).symm
      _ ≤ 2 ^ 64 := Nat.pow_le_pow_right (by decide) hfits
  have hmod : (UInt64.ofNat shift).toNat % 64 = shift := by
    rw [UInt64.toNat_ofNat']
    omega
  rw [UInt64.toNat_or, UInt64.toNat_shiftLeft, hmod, Nat.shiftLeft_eq, Nat.mod_eq_of_lt hpow, Nat.or_comm,
    ← Nat.shiftLeft_eq, ← Nat.shiftLeft_add_eq_or_of_lt hv]

end Bits
