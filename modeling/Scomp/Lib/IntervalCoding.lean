/-
Coding by nested intervals, without a machine word.

A bit stream is a binary fraction; an interval is a range of its first
`bits` digits. Narrowing an interval to a share `[a, b)` of a total picks a
symbol, looking at one more digit changes nothing, and the position of the
stream in the interval gives the share back.
-/
import Mathlib.Algebra.Order.Ring.Nat
import Mathlib.Data.List.Induction
import Mathlib.Logic.Function.Iterate
import Mathlib.Tactic.Ring

namespace IntervalCoding

/-! ## Bit streams as numbers -/

/-- The number that the first `n` bits of a stream denote. -/
def value (stream : Nat → Bool) : Nat → Nat
  | 0 => 0
  | n + 1 => 2 * value stream n + (stream n).toNat

/-- The number that some bits denote, the most significant first. -/
def ofBits (bits : List Bool) : Nat := bits.foldl (fun v b => 2 * v + b.toNat) 0

theorem ofBits_snoc (bits : List Bool) (b : Bool) : ofBits (bits ++ [b]) = 2 * ofBits bits + b.toNat := by
  simp [ofBits]

theorem ofBits_replicate_false (bits : List Bool) (n : Nat) :
    ofBits (bits ++ List.replicate n false) = ofBits bits * 2 ^ n := by
  induction n with
  | zero => simp
  | succ n ih =>
    rw [List.replicate_succ', ← List.append_assoc, ofBits_snoc, ih, Nat.pow_succ, Bool.toNat_false]
    ring

theorem ofBits_replicate_true (bits : List Bool) (n : Nat) :
    ofBits (bits ++ List.replicate n true) + 1 = (ofBits bits + 1) * 2 ^ n := by
  induction n with
  | zero => simp
  | succ n ih =>
    have hdouble : (ofBits bits + 1) * 2 ^ (n + 1) = 2 * ((ofBits bits + 1) * 2 ^ n) := by ring
    rw [List.replicate_succ', ← List.append_assoc, ofBits_snoc, hdouble, ← ih, Bool.toNat_true]
    omega

theorem value_lt (stream : Nat → Bool) (n : Nat) : value stream n < 2 ^ n := by
  induction n with
  | zero => exact Nat.one_pos
  | succ n ih =>
    have hbit : (stream n).toNat ≤ 1 := Bool.toNat_le _
    rw [value, Nat.pow_succ]
    omega

theorem value_add (stream : Nat → Bool) (m n : Nat) :
    value stream (m + n) = value stream m * 2 ^ n + value (fun i => stream (m + i)) n := by
  induction n with
  | zero => simp [value]
  | succ n ih =>
    rw [← Nat.add_assoc, value, ih, value, Nat.pow_succ]
    ring

/-- Zeroes to the end only shift the number. -/
theorem value_zeroes {stream : Nat → Bool} {n : Nat} (h : ∀ k, n ≤ k → stream k = false) (m : Nat) :
    value stream (n + m) = value stream n * 2 ^ m := by
  induction m with
  | zero => simp
  | succ m ih =>
    rw [← Nat.add_assoc, value, ih, h _ (Nat.le_add_right n m), Bool.toNat_false, Nat.pow_succ]
    ring

/-- The stream of some bits and then zeroes. -/
def streamOf (bits : List Bool) : Nat → Bool := fun i => bits.getD i false

theorem streamOf_zeroes {bits : List Bool} {n : Nat} (h : bits.length ≤ n) : ∀ k, n ≤ k → streamOf bits k = false := by
  intro k hk
  simp [streamOf, Nat.le_trans h hk]

theorem value_streamOf {bits : List Bool} (rest : List Bool) : value (streamOf (bits ++ rest)) bits.length = ofBits bits := by
  induction bits using List.reverseRecOn generalizing rest with
  | nil => rfl
  | append_singleton bits b ih =>
    rw [List.length_append, List.length_singleton, value, List.append_assoc, ih, ofBits_snoc, streamOf]
    simp

/-! ## Intervals -/

/-- The streams whose first `bits` bits denote a number from `low` to
`high`. -/
structure Interval where
  low : Nat
  high : Nat
  bits : Nat

def Interval.Contains (i : Interval) (stream : Nat → Bool) : Prop :=
  i.low ≤ value stream i.bits ∧ value stream i.bits ≤ i.high

def Interval.width (i : Interval) : Nat := i.high - i.low + 1

/-- The same interval, with one bit more. -/
def Interval.zoom (i : Interval) : Interval := { low := 2 * i.low, high := 2 * i.high + 1, bits := i.bits + 1 }

/-- The share from `a` to `b` of a total. -/
def Interval.narrow (i : Interval) (a b total : Nat) : Interval :=
  { low := i.low + a * i.width / total, high := i.low + b * i.width / total - 1, bits := i.bits }

@[simp] theorem Interval.zoom_bits (i : Interval) : i.zoom.bits = i.bits + 1 := rfl
@[simp] theorem Interval.narrow_bits (i : Interval) (a b total : Nat) : (i.narrow a b total).bits = i.bits := rfl

theorem Interval.zoom_iterate_bits (i : Interval) (n : Nat) : (Interval.zoom^[n] i).bits = i.bits + n := by
  induction n generalizing i with
  | zero => rfl
  | succ n ih => rw [Function.iterate_succ_apply, ih, zoom_bits]; omega

theorem Interval.zoom_iterate_low (i : Interval) (n : Nat) : (Interval.zoom^[n] i).low = i.low * 2 ^ n := by
  induction n generalizing i with
  | zero => simp
  | succ n ih =>
    rw [Function.iterate_succ_apply, ih, zoom, Nat.pow_succ]
    ring

theorem Interval.zoom_iterate_width {i : Interval} (hi : i.low ≤ i.high) (n : Nat) :
    (Interval.zoom^[n] i).width = i.width * 2 ^ n := by
  induction n generalizing i with
  | zero => simp
  | succ n ih =>
    have hzoom : i.zoom.low ≤ i.zoom.high := by simp only [zoom]; omega
    have hwidth : i.zoom.width = i.width * 2 := by simp only [zoom, width]; omega
    rw [Function.iterate_succ_apply, ih hzoom, hwidth, Nat.pow_succ]
    ring

theorem Interval.contains_zoom {i : Interval} {stream : Nat → Bool} : i.zoom.Contains stream ↔ i.Contains stream := by
  have hbit : (stream i.bits).toNat ≤ 1 := Bool.toNat_le _
  simp only [Contains, zoom, value]
  omega

theorem Interval.contains_zoom_iterate {i : Interval} {stream : Nat → Bool} {n : Nat} :
    (Interval.zoom^[n] i).Contains stream ↔ i.Contains stream := by
  induction n generalizing i with
  | zero => rfl
  | succ n ih => rw [Function.iterate_succ_apply, ih, contains_zoom]

/-- A share of a wide enough interval is not empty. -/
theorem share_lt {a b total width : Nat} (hab : a < b) (hpos : 0 < total) (htotal : total ≤ width) :
    a * width / total < b * width / total := by
  rw [Nat.lt_iff_add_one_le, ← Nat.add_div_right _ hpos]
  apply Nat.div_le_div_right
  calc a * width + total ≤ a * width + width := Nat.add_le_add_left htotal _
    _ = (a + 1) * width := by ring
    _ ≤ b * width := Nat.mul_le_mul_right _ hab

theorem share_le {b total width : Nat} (hb : b ≤ total) : b * width / total ≤ width :=
  Nat.div_le_of_le_mul (Nat.mul_le_mul_right _ hb)

/-- A share that is not the whole total is smaller than the interval. -/
theorem Interval.narrow_width_lt {i : Interval} {a b total : Nat} (hab : a < b) (hb : b ≤ total) (hproper : b - a < total)
    (htotal : total ≤ i.width) : (i.narrow a b total).width < i.width := by
  have hpos : 0 < total := Nat.lt_of_le_of_lt (Nat.zero_le _) (Nat.lt_of_lt_of_le hab hb)
  have hlt := share_lt hab hpos htotal
  have hle := @share_le b total i.width hb
  have hinner : 0 < a * i.width / total ∨ b * i.width / total < i.width := by
    rcases Nat.eq_zero_or_pos a with rfl | ha
    · right
      have hshare := @share_lt b total total i.width (by omega) hpos htotal
      rwa [Nat.mul_div_cancel_left _ hpos] at hshare
    · left
      have hshare := @share_lt 0 a total i.width ha hpos htotal
      rwa [Nat.zero_mul, Nat.zero_div] at hshare
  unfold narrow
  generalize i.width = w at *
  generalize a * w / total = x at *
  generalize b * w / total = y at *
  simp only [width]
  omega

/-! ## Streams at the low end -/

/-- Nothing of the interval is below the stream. -/
def Interval.AtBottom (i : Interval) (stream : Nat → Bool) : Prop := value stream i.bits = i.low

theorem Interval.AtBottom.zoom_iterate {i : Interval} {stream : Nat → Bool} (h : i.AtBottom stream)
    (hzeroes : ∀ k, i.bits ≤ k → stream k = false) (n : Nat) : (Interval.zoom^[n] i).AtBottom stream := by
  rw [AtBottom, zoom_iterate_bits, zoom_iterate_low, value_zeroes hzeroes, h]

/-- The first share owns such a stream. -/
theorem Interval.AtBottom.narrow {i : Interval} {stream : Nat → Bool} {b total : Nat} (h : i.AtBottom stream) (hb : 0 < b)
    (hpos : 0 < total) (htotal : total ≤ i.width) :
    (i.narrow 0 b total).AtBottom stream ∧ (i.narrow 0 b total).Contains stream := by
  have hlt := @share_lt 0 b total i.width hb hpos htotal
  have hbottom : value stream i.bits = i.low := h
  rw [Nat.zero_mul, Nat.zero_div] at hlt
  constructor
  · rw [AtBottom, narrow_bits, hbottom]
    simp [Interval.narrow]
  · rw [Contains, narrow_bits, hbottom]
    simp only [Interval.narrow, Nat.zero_mul, Nat.zero_div]
    omega

section
variable {i : Interval} {a b total : Nat} {stream : Nat → Bool}

theorem Interval.contains_of_narrow (hb : b ≤ total) (hle : i.low ≤ i.high)
    (h : (i.narrow a b total).Contains stream) : i.Contains stream := by
  obtain ⟨hlow, hhigh⟩ := h
  have hshare := @share_le b total i.width hb
  rw [narrow_bits] at hlow hhigh
  simp only [narrow] at hlow hhigh
  generalize a * i.width / total = x at hlow
  generalize b * i.width / total = y at hhigh hshare
  unfold width at hshare
  exact ⟨by omega, by omega⟩

/-- **The share is found again** from the position of the stream in the
interval. -/
theorem Interval.owner_of_narrow (hab : a < b) (hpos : 0 < total) (htotal : total ≤ i.width)
    (h : (i.narrow a b total).Contains stream) :
    a ≤ ((value stream i.bits - i.low + 1) * total - 1) / i.width ∧
      ((value stream i.bits - i.low + 1) * total - 1) / i.width < b := by
  obtain ⟨hlow, hhigh⟩ := h
  have hlt := share_lt hab hpos htotal
  have hwidth : 0 < i.width := Nat.succ_pos _
  rw [narrow_bits] at hlow hhigh
  simp only [narrow] at hlow hhigh
  obtain ⟨offset, hoffset⟩ : ∃ offset, value stream i.bits = i.low + offset :=
    ⟨_, (Nat.add_sub_cancel' (Nat.le_trans (Nat.le_add_right _ _) hlow)).symm⟩
  rw [hoffset] at hlow hhigh ⊢
  rw [Nat.add_sub_cancel_left]
  have hfrom : a * i.width < (offset + 1) * total := by
    rw [← Nat.div_lt_iff_lt_mul hpos]
    exact Nat.lt_succ_of_le (Nat.le_of_add_le_add_left hlow)
  have hto : (offset + 1) * total ≤ b * i.width := by
    rw [← Nat.le_div_iff_mul_le hpos]
    generalize a * i.width / total = x at hlt
    generalize b * i.width / total = y at hhigh hlt ⊢
    omega
  constructor
  · rw [Nat.le_div_iff_mul_le hwidth]
    omega
  · rw [Nat.div_lt_iff_lt_mul hwidth]
    omega

/-- And the other way round: a share that owns the position contains the
stream. -/
theorem Interval.narrow_of_owner (hpos : 0 < total) (hi : i.Contains stream)
    (hlow : a ≤ ((value stream i.bits - i.low + 1) * total - 1) / i.width)
    (hhigh : ((value stream i.bits - i.low + 1) * total - 1) / i.width < b) : (i.narrow a b total).Contains stream := by
  obtain ⟨hfrom, -⟩ := hi
  have hwidth : 0 < i.width := Nat.succ_pos _
  obtain ⟨offset, hoffset⟩ : ∃ offset, value stream i.bits = i.low + offset := ⟨_, (Nat.add_sub_cancel' hfrom).symm⟩
  rw [hoffset, Nat.add_sub_cancel_left, Nat.le_div_iff_mul_le hwidth] at hlow
  rw [hoffset, Nat.add_sub_cancel_left, Nat.div_lt_iff_lt_mul hwidth] at hhigh
  have hmul : 0 < (offset + 1) * total := Nat.mul_pos (Nat.succ_pos _) hpos
  have hbefore : a * i.width / total < offset + 1 := (Nat.div_lt_iff_lt_mul hpos).mpr (by omega)
  have hafter : offset + 1 ≤ b * i.width / total := (Nat.le_div_iff_mul_le hpos).mpr (by omega)
  unfold Contains narrow
  dsimp only
  rw [hoffset]
  omega

end

end IntervalCoding
