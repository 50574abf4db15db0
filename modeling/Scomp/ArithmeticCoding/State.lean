/-
The interval of the coder (`arithmetic_coding_base.c`): 64-bit words whose
values stay below `2^32`.

The assertions `low < high` are not part of the functions; what holds of the
interval is stated below.
-/
import Scomp.ArithmeticCoding.FrequencyTable
import Scomp.Lib.IntervalCoding

namespace Scomp

structure AcodState where
  high : SymbolFrequency
  low : SymbolFrequency
deriving DecidableEq, Repr

def acodStateInit : AcodState := { low := 0, high := ACOD_STATE_MASK }

/-- The top bits of low and high are the same. -/
def acodIsShiftable (state : AcodState) : Bool := (state.low ^^^ state.high) &&& ACOD_HALF_RANGE = 0

def acodIsUnderflowable (state : AcodState) : Bool := state.low &&& (~~~state.high) &&& ACOD_QUARTER_RANGE ≠ 0

def acodShrinkTheRange (state : AcodState) (frequencies : Ftable) (symbol : Symbol) : AcodState :=
  let valueRange := state.high - state.low + 1
  let total := frequencies.total
  let symbolLow := ftableGetLow frequencies symbol
  let symbolHigh := ftableGetHigh frequencies symbol
  { low := state.low + (symbolLow * valueRange) / total
    high := state.low + (symbolHigh * valueRange) / total - 1 }

def acodPerformShift (state : AcodState) : AcodState :=
  { low := (state.low <<< 1) &&& ACOD_STATE_MASK
    high := ((state.high <<< 1) &&& ACOD_STATE_MASK) ||| 1 }

/-- Low's top two bits are 01 and high's are 10: the second bit of both is
deleted. -/
def acodPerformUnderflow (state : AcodState) : AcodState :=
  { low := (state.low <<< 1) ^^^ ACOD_HALF_RANGE
    high := ((state.high ^^^ ACOD_HALF_RANGE) <<< 1) ||| ACOD_HALF_RANGE ||| 1 }

/-! ## The words as numbers -/

theorem and_two_pow_toNat {x : UInt64} {k : Nat} (mask : UInt64) (hmask : mask.toNat = 2 ^ k) :
    (x &&& mask).toNat = x.toNat / 2 ^ k % 2 * 2 ^ k := by
  rw [UInt64.toNat_and, hmask, Nat.and_two_pow, Nat.testBit_eq_decide_div_mod_eq]
  rcases Nat.mod_two_eq_zero_or_one (x.toNat / 2 ^ k) with h | h <;> simp [h]

theorem shiftLeft_one_toNat (x : UInt64) : (x <<< 1).toNat = 2 * x.toNat % 2 ^ 64 := by
  rw [UInt64.toNat_shiftLeft, show UInt64.toNat 1 % 64 = 1 from rfl, Nat.shiftLeft_eq, Nat.pow_one, Nat.mul_comm]

theorem and_mask_toNat (x : UInt64) : (x &&& ACOD_STATE_MASK).toNat = x.toNat % 2 ^ 32 := by
  rw [UInt64.toNat_and, show ACOD_STATE_MASK.toNat = 2 ^ 32 - 1 from rfl, Nat.and_two_pow_sub_one_eq_mod]

/-- Adding a bit that is not there yet. -/
theorem or_two_pow_toNat {x mask : UInt64} {k : Nat} (hmask : mask.toNat = 2 ^ k) (hx : x.toNat / 2 ^ k % 2 = 0) :
    (x ||| mask).toNat = x.toNat + 2 ^ k := by
  rw [UInt64.toNat_or, hmask]
  have hdiv := Nat.div_add_mod x.toNat (2 ^ k)
  have hor : x.toNat ||| 2 ^ k = 2 ^ k * (x.toNat / 2 ^ k + 1) + x.toNat % 2 ^ k := by
    rw [← Nat.div_add_mod (x.toNat ||| 2 ^ k) (2 ^ k), Nat.or_div_two_pow, Nat.or_mod_two_pow, Nat.mod_self,
      Nat.or_zero, Nat.div_self (Nat.two_pow_pos k)]
    have hone : x.toNat / 2 ^ k ||| 1 = x.toNat / 2 ^ k + 1 := by
      generalize x.toNat / 2 ^ k = q at hx
      obtain ⟨m, rfl⟩ : ∃ m, q = 2 * m := ⟨q / 2, by omega⟩
      rw [← Nat.div_add_mod (2 * m ||| 1) 2, ← Nat.pow_one 2, Nat.or_div_two_pow, Nat.or_mod_two_pow]
      simp
    rw [hone]
  rw [hor, Nat.mul_add, Nat.mul_one]
  omega

/-- Flipping a bit. -/
theorem xor_two_pow_toNat {x mask : UInt64} {k : Nat} (hmask : mask.toNat = 2 ^ k) :
    (x ^^^ mask).toNat = if x.toNat / 2 ^ k % 2 = 0 then x.toNat + 2 ^ k else x.toNat - 2 ^ k := by
  rw [UInt64.toNat_xor, hmask]
  have hdiv := Nat.div_add_mod x.toNat (2 ^ k)
  have hxor : x.toNat ^^^ 2 ^ k = 2 ^ k * (x.toNat / 2 ^ k ^^^ 1) + x.toNat % 2 ^ k := by
    rw [← Nat.div_add_mod (x.toNat ^^^ 2 ^ k) (2 ^ k), Nat.xor_div_two_pow, Nat.xor_mod_two_pow, Nat.mod_self,
      Nat.xor_zero, Nat.div_self (Nat.two_pow_pos k)]
  have hflip : x.toNat / 2 ^ k ^^^ 1 = if x.toNat / 2 ^ k % 2 = 0 then x.toNat / 2 ^ k + 1 else x.toNat / 2 ^ k - 1 := by
    generalize x.toNat / 2 ^ k = q
    rw [← Nat.div_add_mod (q ^^^ 1) 2, ← Nat.pow_one 2, Nat.xor_div_two_pow, Nat.xor_mod_two_pow, Nat.pow_one]
    rcases Nat.mod_two_eq_zero_or_one q with h | h <;> simp [h] <;> omega
  rw [hxor, hflip]
  split
  · rw [Nat.mul_add, Nat.mul_one]
    omega
  · next hodd =>
    generalize x.toNat / 2 ^ k = q at *
    obtain ⟨m, rfl⟩ : ∃ m, q = m + 1 := ⟨q - 1, by omega⟩
    rw [Nat.mul_succ] at hdiv
    rw [Nat.add_sub_cancel]
    omega

/-- What holds of every state of a coder. -/
structure AcodStateOK (state : AcodState) : Prop where
  low_le : state.low.toNat ≤ state.high.toNat
  high_lt : state.high.toNat < 2 ^ 32

theorem acodStateInit_ok : AcodStateOK acodStateInit := ⟨by decide, by decide⟩

section
variable {state : AcodState} (h : AcodStateOK state)
include h

theorem acodIsShiftable_iff :
    acodIsShiftable state = true ↔ state.high.toNat < 2 ^ 31 ∨ 2 ^ 31 ≤ state.low.toNat := by
  have hle := h.low_le
  have hlt := h.high_lt
  rw [acodIsShiftable, decide_eq_true_iff, ← UInt64.toNat_inj, and_two_pow_toNat ACOD_HALF_RANGE (rfl : _ = 2 ^ 31),
    UInt64.toNat_xor, Nat.xor_div_two_pow, show UInt64.toNat 0 = 0 from rfl]
  have hlow : state.low.toNat / 2 ^ 31 = 0 ∨ state.low.toNat / 2 ^ 31 = 1 := by omega
  have hhigh : state.high.toNat / 2 ^ 31 = 0 ∨ state.high.toNat / 2 ^ 31 = 1 := by omega
  rcases hlow with hl | hl <;> rcases hhigh with hh | hh <;> rw [hl, hh] <;> simp <;> omega

theorem acodPerformShift_toNat :
    (acodPerformShift state).low.toNat = 2 * state.low.toNat % 2 ^ 32 ∧
      (acodPerformShift state).high.toNat = 2 * state.high.toNat % 2 ^ 32 + 1 := by
  have hle := h.low_le
  have hlt := h.high_lt
  have hhigh : ((state.high <<< 1) &&& ACOD_STATE_MASK).toNat = 2 * state.high.toNat % 2 ^ 32 := by
    rw [and_mask_toNat, shiftLeft_one_toNat]
    omega
  constructor
  · rw [acodPerformShift, and_mask_toNat, shiftLeft_one_toNat]
    omega
  · rw [acodPerformShift, @or_two_pow_toNat _ 1 0 rfl (by rw [hhigh]; omega), hhigh, Nat.pow_zero]

/-- Shifting doubles, up to a common offset. -/
theorem acodPerformShift_spec (hs : acodIsShiftable state = true) :
    ∃ offset, (offset = 0 ∧ state.low.toNat < 2 ^ 31 ∨ offset = 2 ^ 32 ∧ 2 ^ 31 ≤ state.low.toNat) ∧
      (acodPerformShift state).low.toNat + offset = 2 * state.low.toNat ∧
      (acodPerformShift state).high.toNat + offset = 2 * state.high.toNat + 1 ∧
      AcodStateOK (acodPerformShift state) := by
  obtain ⟨hlow, hhigh⟩ := acodPerformShift_toNat h
  have hle := h.low_le
  have hlt := h.high_lt
  rw [acodIsShiftable_iff h] at hs
  rcases Nat.lt_or_ge state.low.toNat (2 ^ 31) with hsmall | hlarge
  · exact ⟨0, .inl ⟨rfl, hsmall⟩, by omega, by omega, by omega, by omega⟩
  · exact ⟨2 ^ 32, .inr ⟨rfl, hlarge⟩, by omega, by omega, by omega, by omega⟩

theorem acodIsUnderflowable_iff (hs : ¬ acodIsShiftable state = true) :
    acodIsUnderflowable state = true ↔ 2 ^ 30 ≤ state.low.toNat ∧ state.high.toNat < 3 * 2 ^ 30 := by
  have hlt := h.high_lt
  rw [acodIsShiftable_iff h, not_or, Nat.not_lt, Nat.not_le] at hs
  have hnot : (~~~state.high).toNat / 2 ^ 30 % 2 = 1 - state.high.toNat / 2 ^ 30 % 2 := by
    rw [UInt64.toNat_not]
    have hword := state.high.toNat_lt
    show (2 ^ 64 - 1 - state.high.toNat) / 2 ^ 30 % 2 = _
    omega
  rw [acodIsUnderflowable, decide_eq_true_iff, Ne, ← UInt64.toNat_inj,
    and_two_pow_toNat ACOD_QUARTER_RANGE (rfl : _ = 2 ^ 30), UInt64.toNat_and, Nat.and_div_two_pow,
    show UInt64.toNat 0 = 0 from rfl]
  have hbit : (state.low.toNat / 2 ^ 30 &&& (~~~state.high).toNat / 2 ^ 30) % 2 =
      (state.low.toNat / 2 ^ 30 % 2) * (1 - state.high.toNat / 2 ^ 30 % 2) := by
    rw [← hnot, ← Nat.pow_one 2, Nat.and_mod_two_pow, Nat.pow_one]
    rcases Nat.mod_two_eq_zero_or_one (state.low.toNat / 2 ^ 30) with hl | hl <;>
      rcases Nat.mod_two_eq_zero_or_one ((~~~state.high).toNat / 2 ^ 30) with hh | hh <;> rw [hl, hh] <;> rfl
  rw [hbit]
  have hlow : state.low.toNat / 2 ^ 30 % 2 = 0 ∨ state.low.toNat / 2 ^ 30 % 2 = 1 := Nat.mod_two_eq_zero_or_one _
  have hhigh : state.high.toNat / 2 ^ 30 % 2 = 0 ∨ state.high.toNat / 2 ^ 30 % 2 = 1 := Nat.mod_two_eq_zero_or_one _
  rcases hlow with hl | hl <;> rcases hhigh with hh | hh <;> rw [hl, hh] <;> omega

/-- Deleting the second bit doubles, up to an offset. -/
theorem acodPerformUnderflow_spec (hs : ¬ acodIsShiftable state = true) (hu : acodIsUnderflowable state = true) :
    (acodPerformUnderflow state).low.toNat + 2 ^ 31 = 2 * state.low.toNat ∧
      (acodPerformUnderflow state).high.toNat + 2 ^ 31 = 2 * state.high.toNat + 1 ∧
      AcodStateOK (acodPerformUnderflow state) ∧ ¬ acodIsShiftable (acodPerformUnderflow state) = true := by
  have hu' := (acodIsUnderflowable_iff h hs).mp hu
  rw [acodIsShiftable_iff h, not_or, Nat.not_lt, Nat.not_le] at hs
  have hlow : (acodPerformUnderflow state).low.toNat + 2 ^ 31 = 2 * state.low.toNat := by
    rw [acodPerformUnderflow, @xor_two_pow_toNat _ ACOD_HALF_RANGE 31 rfl, shiftLeft_one_toNat, if_neg (by omega)]
    omega
  have hflip : (state.high ^^^ ACOD_HALF_RANGE).toNat = state.high.toNat - 2 ^ 31 := by
    rw [@xor_two_pow_toNat _ ACOD_HALF_RANGE 31 rfl, if_neg (by omega)]
  have hdouble : ((state.high ^^^ ACOD_HALF_RANGE) <<< 1).toNat = 2 * (state.high.toNat - 2 ^ 31) := by
    rw [shiftLeft_one_toNat, hflip]
    omega
  have htop : ((state.high ^^^ ACOD_HALF_RANGE) <<< 1 ||| ACOD_HALF_RANGE).toNat =
      2 * (state.high.toNat - 2 ^ 31) + 2 ^ 31 := by
    rw [@or_two_pow_toNat _ ACOD_HALF_RANGE 31 rfl (by rw [hdouble]; omega), hdouble]
  have hhigh : (acodPerformUnderflow state).high.toNat + 2 ^ 31 = 2 * state.high.toNat + 1 := by
    rw [acodPerformUnderflow, @or_two_pow_toNat _ 1 0 rfl (by rw [htop]; omega), htop]
    omega
  have hok : AcodStateOK (acodPerformUnderflow state) := ⟨by omega, by omega⟩
  refine ⟨hlow, hhigh, hok, ?_⟩
  rw [acodIsShiftable_iff hok]
  omega

/-- A state that needs no renormalising has at least a quarter of the range
and two more. -/
theorem range_of_normalized (hs : ¬ acodIsShiftable state = true) (hu : ¬ acodIsUnderflowable state = true) :
    2 ^ 30 + 2 ≤ state.high.toNat - state.low.toNat + 1 := by
  rw [acodIsUnderflowable_iff h hs, not_and, Nat.not_lt] at hu
  rw [acodIsShiftable_iff h, not_or, Nat.not_lt, Nat.not_le] at hs
  omega

/-- **Shrinking narrows the interval** to the symbol's share. -/
theorem acodShrinkTheRange_spec {table : Ftable} {symbol : Symbol} (ht : FtableOK table)
    (hs : symbol < table.length) (hpos : 0 < table.freq symbol)
    (hrange : 2 ^ 30 + 2 ≤ state.high.toNat - state.low.toNat + 1) :
    let width := state.high.toNat - state.low.toNat + 1
    let a := table.below symbol * width / table.total.toNat
    let b := (table.below symbol + table.freq symbol) * width / table.total.toNat
    a < b ∧ b ≤ width ∧ (acodShrinkTheRange state table symbol).low.toNat = state.low.toNat + a ∧
      (acodShrinkTheRange state table symbol).high.toNat = state.low.toNat + b - 1 ∧
      AcodStateOK (acodShrinkTheRange state table symbol) := by
  have hle := h.low_le
  have hlt := h.high_lt
  have hhigh_le := ht.exact.below_le (Nat.succ_le_of_lt hs)
  rw [table.below_succ] at hhigh_le
  have htotal := ht.total_le
  have hwidth : (state.high - state.low + 1).toNat = state.high.toNat - state.low.toNat + 1 := by
    rw [UInt64.toNat_add, UInt64.toNat_sub_of_le _ _ (UInt64.le_iff_toNat_le.mpr hle), show UInt64.toNat 1 = 1 from rfl]
    omega
  intro width a b
  have hwidth_le : width ≤ 2 ^ 32 := by omega
  have hab : a < b := IntervalCoding.share_lt (by omega) (by omega) (by omega)
  have hb : b ≤ width := IntervalCoding.share_le hhigh_le
  have hproduct : ∀ x : UInt64, x.toNat ≤ table.total.toNat →
      (x * (state.high - state.low + 1) / table.total).toNat = x.toNat * width / table.total.toNat := by
    intro x hx
    have hmul : x.toNat * width ≤ (2 ^ 30 + 2) * 2 ^ 32 := Nat.mul_le_mul (Nat.le_trans hx htotal) hwidth_le
    rw [UInt64.toNat_div, UInt64.toNat_mul, hwidth, Nat.mod_eq_of_lt (Nat.lt_of_le_of_lt hmul (by decide))]
  have hlow : (acodShrinkTheRange state table symbol).low.toNat = state.low.toNat + a := by
    rw [acodShrinkTheRange, UInt64.toNat_add, hproduct _ (by rw [ht.exact.low_toNat (Nat.le_of_lt hs)]; omega),
      ht.exact.low_toNat (Nat.le_of_lt hs)]
    exact Nat.mod_eq_of_lt (show state.low.toNat + a < 2 ^ 64 by omega)
  have hhigh : (acodShrinkTheRange state table symbol).high.toNat = state.low.toNat + b - 1 := by
    have hsum : (state.low + ftableGetHigh table symbol * (state.high - state.low + 1) / table.total).toNat =
        state.low.toNat + b := by
      rw [UInt64.toNat_add, hproduct _ (by rw [ht.exact.high_toNat hs]; exact hhigh_le), ht.exact.high_toNat hs]
      exact Nat.mod_eq_of_lt (show state.low.toNat + b < 2 ^ 64 by omega)
    rw [acodShrinkTheRange, UInt64.toNat_sub_of_le, hsum]
    · rfl
    · rw [UInt64.le_iff_toNat_le, hsum, show UInt64.toNat 1 = 1 from rfl]
      omega
  exact ⟨hab, hb, hlow, hhigh, by omega, by omega⟩

end

/-! ## Renormalising -/

/-- The two loops on the state alone: how many turns, and the state after
them. `high - low + 1` doubles with each turn and is at most `2^32`, so 32
turns are enough for both. -/
def acodShifts : Nat → AcodState → Nat × AcodState
  | 0, state => (0, state)
  | turns + 1, state =>
    if acodIsShiftable state then
      ((acodShifts turns (acodPerformShift state)).1 + 1, (acodShifts turns (acodPerformShift state)).2)
    else (0, state)

def acodUnderflows : Nat → AcodState → Nat × AcodState
  | 0, state => (0, state)
  | turns + 1, state =>
    if acodIsUnderflowable state then
      ((acodUnderflows turns (acodPerformUnderflow state)).1 + 1,
        (acodUnderflows turns (acodPerformUnderflow state)).2)
    else (0, state)

theorem acodShifts_done {turns : Nat} {state : AcodState} (h : AcodStateOK state)
    (hturns : 2 ^ 32 ≤ (state.high.toNat - state.low.toNat + 1) * 2 ^ turns) :
    AcodStateOK (acodShifts turns state).2 ∧ ¬ acodIsShiftable (acodShifts turns state).2 = true := by
  induction turns generalizing state with
  | zero =>
    refine ⟨h, ?_⟩
    have hle := h.low_le
    have hlt := h.high_lt
    rw [acodShifts, acodIsShiftable_iff h]
    omega
  | succ turns ih =>
    rw [acodShifts]
    split
    · next hs =>
      obtain ⟨offset, -, hlow, hhigh, hok⟩ := acodPerformShift_spec h hs
      have hle := h.low_le
      have hdouble : (acodPerformShift state).high.toNat - (acodPerformShift state).low.toNat + 1 =
          (state.high.toNat - state.low.toNat + 1) * 2 := by omega
      refine ih hok ?_
      rw [hdouble, Nat.mul_assoc, ← Nat.pow_succ']
      exact hturns
    · next hs => exact ⟨h, hs⟩

theorem acodUnderflows_done {turns : Nat} {state : AcodState} (h : AcodStateOK state)
    (hs : ¬ acodIsShiftable state = true)
    (hturns : 2 ^ 32 ≤ (state.high.toNat - state.low.toNat + 1) * 2 ^ turns) :
    AcodStateOK (acodUnderflows turns state).2 ∧ ¬ acodIsShiftable (acodUnderflows turns state).2 = true ∧
      ¬ acodIsUnderflowable (acodUnderflows turns state).2 = true := by
  induction turns generalizing state with
  | zero =>
    refine ⟨h, hs, ?_⟩
    have hle := h.low_le
    have hlt := h.high_lt
    rw [acodUnderflows, acodIsUnderflowable_iff h hs]
    omega
  | succ turns ih =>
    rw [acodUnderflows]
    split
    · next hu =>
      obtain ⟨hlow, hhigh, hok, hs'⟩ := acodPerformUnderflow_spec h hs hu
      have hle := h.low_le
      have hdouble : (acodPerformUnderflow state).high.toNat - (acodPerformUnderflow state).low.toNat + 1 =
          (state.high.toNat - state.low.toNat + 1) * 2 := by omega
      refine ih hok hs' ?_
      rw [hdouble, Nat.mul_assoc, ← Nat.pow_succ']
      exact hturns
    · next hu => exact ⟨h, hs, hu⟩

/-- Shifts and then underflows. -/
def acodRenormalized (state : AcodState) : AcodState := (acodUnderflows 32 (acodShifts 32 state).2).2

/-- A state the coder shrinks. -/
structure AcodStateReady (state : AcodState) : Prop extends AcodStateOK state where
  range : 2 ^ 30 + 2 ≤ state.high.toNat - state.low.toNat + 1
  notShiftable : ¬ acodIsShiftable state = true
  notUnderflowable : ¬ acodIsUnderflowable state = true

theorem acodRenormalized_ready {state : AcodState} (h : AcodStateOK state) : AcodStateReady (acodRenormalized state) := by
  have hone : 2 ^ 32 ≤ (state.high.toNat - state.low.toNat + 1) * 2 ^ 32 := Nat.le_mul_of_pos_left _ (Nat.succ_pos _)
  obtain ⟨hok, hs⟩ := acodShifts_done h hone
  obtain ⟨hok', hs', hu'⟩ := acodUnderflows_done hok hs (Nat.le_mul_of_pos_left _ (Nat.succ_pos _))
  exact ⟨hok', range_of_normalized hok' hs' hu', hs', hu'⟩

theorem acodStateInit_ready : AcodStateReady acodStateInit := ⟨acodStateInit_ok, by decide, by decide, by decide⟩

end Scomp
