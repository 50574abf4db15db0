/-
What coding by nested intervals costs, in bits.

An interval of `width` points among those of `bits` digits stands for
`bits - logb 2 width` bits of information. Looking at one more digit costs
nothing; a share costs the logarithm of its inverse probability, up to an
error from rounding to whole points.
-/
import Mathlib.Analysis.SpecialFunctions.Log.Base
import Mathlib.Analysis.Complex.ExponentialBounds
import Scomp.Lib.IntervalCoding

namespace IntervalCoding

/-! ## Logarithms -/

noncomputable abbrev log2 (x : ℝ) : ℝ := Real.logb 2 x

theorem logb_two_pow (n : Nat) : Real.logb 2 ((2 : ℝ) ^ n) = n := by
  rw [Real.logb_pow, Real.logb_self_eq_one one_lt_two, mul_one]

theorem abs_log_one_add_le {x : ℝ} (h : |x| ≤ 1 / 2) : |Real.log (1 + x)| ≤ 2 * |x| := by
  obtain ⟨hlow, hhigh⟩ := abs_le.mp h
  have hpos : 0 < 1 + x := by linarith
  have hupper : Real.log (1 + x) ≤ |x| := by
    have hlog := Real.log_le_sub_one_of_pos hpos
    have habs := le_abs_self x
    linarith
  have hlower : -(2 * |x|) ≤ Real.log (1 + x) := by
    have hlog := Real.one_sub_inv_le_log_of_pos hpos
    have hratio : -(2 * |x|) ≤ 1 - (1 + x)⁻¹ := by
      have hfraction : 1 - (1 + x)⁻¹ = x / (1 + x) := by field_simp; ring
      rw [hfraction, le_div_iff₀ hpos]
      have habs := neg_abs_le x
      nlinarith [abs_nonneg x]
    linarith
  have hnonneg := abs_nonneg x
  exact abs_le.mpr ⟨hlower, by linarith⟩

theorem abs_logb_one_add_le {x : ℝ} (h : |x| ≤ 1 / 2) : |Real.logb 2 (1 + x)| ≤ 3 * |x| := by
  have htwo : 2 / 3 < Real.log 2 := by
    have hdigits := Real.log_two_gt_d9
    linarith
  have hpos : 0 < Real.log 2 := by linarith
  rw [Real.logb, abs_div, abs_of_pos hpos, div_le_iff₀ hpos]
  have hlog := abs_log_one_add_le h
  have hnonneg := abs_nonneg x
  nlinarith

/-! ## The cost of an interval -/

noncomputable def Interval.cost (i : Interval) : ℝ := i.bits - log2 i.width

theorem Interval.zoom_iterate_cost {i : Interval} (hi : i.low ≤ i.high) (n : Nat) :
    (Interval.zoom^[n] i).cost = i.cost := by
  have hwidth : (0 : ℝ) < i.width := by exact_mod_cast Nat.succ_pos _
  have hpow : (0 : ℝ) < 2 ^ n := by positivity
  unfold cost log2
  rw [zoom_iterate_bits, zoom_iterate_width hi]
  push_cast
  rw [Real.logb_mul hwidth.ne' hpow.ne', logb_two_pow]
  ring

/-- The points of a share are its part of the width, give or take less than
one. -/
theorem Interval.narrow_width {i : Interval} {a f total : Nat} (hf : 0 < f) (hpos : 0 < total) (htotal : total ≤ i.width) :
    f * i.width < (i.narrow a (a + f) total).width * total + total ∧
      (i.narrow a (a + f) total).width * total < f * i.width + total := by
  have hlt := @share_lt a (a + f) total i.width (Nat.lt_add_of_pos_right hf) hpos htotal
  have hwidth : (i.narrow a (a + f) total).width = (a + f) * i.width / total - a * i.width / total := by
    unfold narrow
    generalize i.width = w at *
    generalize a * w / total = x at *
    generalize (a + f) * w / total = y at *
    simp only [width]
    omega
  have hfrom := Nat.div_add_mod (a * i.width) total
  have hto := Nat.div_add_mod ((a + f) * i.width) total
  have hfromLt := Nat.mod_lt (a * i.width) hpos
  have htoLt := Nat.mod_lt ((a + f) * i.width) hpos
  have hsum : (a + f) * i.width = a * i.width + f * i.width := Nat.add_mul ..
  have hsplit : total * ((a + f) * i.width / total) =
      total * (a * i.width / total) + ((a + f) * i.width / total - a * i.width / total) * total := by
    rw [Nat.sub_mul, Nat.mul_comm _ total, Nat.mul_comm _ total]
    have hle := Nat.mul_le_mul_left total (Nat.le_of_lt hlt)
    omega
  rw [hwidth]
  omega

/-- **What a share costs**: `logb 2 (total / f)` bits, up to rounding. -/
theorem Interval.narrow_cost {i : Interval} {a f total : Nat} (hf : 0 < f) (hpos : 0 < total) (htotal : total ≤ i.width)
    (hwide : 2 * total ≤ f * i.width) :
    |(i.narrow a (a + f) total).cost - i.cost - Real.logb 2 (total / f)| ≤ 3 * (total / (f * i.width)) := by
  obtain ⟨hlower, hupper⟩ := @Interval.narrow_width i a f total hf hpos htotal
  have hnarrow : (0 : ℝ) < (i.narrow a (a + f) total).width := by exact_mod_cast Nat.succ_pos _
  have hwidth : (0 : ℝ) < i.width := by exact_mod_cast Nat.succ_pos _
  have hlowerR : (f * i.width : ℝ) < (i.narrow a (a + f) total).width * total + total := by exact_mod_cast hlower
  have hupperR : ((i.narrow a (a + f) total).width * total : ℝ) < f * i.width + total := by exact_mod_cast hupper
  have hwideR : (2 * total : ℝ) ≤ f * i.width := by exact_mod_cast hwide
  have hfR : (0 : ℝ) < f := by exact_mod_cast hf
  have htotalR : (0 : ℝ) < total := by exact_mod_cast hpos
  unfold cost log2
  rw [narrow_bits]
  generalize ((i.narrow a (a + f) total).width : ℝ) = w' at *
  generalize (i.width : ℝ) = w at *
  -- the share's width is its exact part, times a factor near one
  have hprod : 0 < (f : ℝ) * w := mul_pos hfR hwidth
  have hfactor : w' = f * w / total * (1 + (w' * total - f * w) / (f * w)) := by field_simp; ring
  have herror : |(w' * total - f * w) / (f * w)| ≤ total / (f * w) := by
    rw [abs_div, abs_of_pos hprod]
    refine div_le_div_of_nonneg_right (abs_le.mpr ⟨?_, ?_⟩) hprod.le <;> linarith
  have hsmall : (total : ℝ) / (f * w) ≤ 1 / 2 := by
    rw [div_le_div_iff₀ hprod two_pos]
    linarith
  have hlog := abs_logb_one_add_le (herror.trans hsmall)
  generalize hx : (w' * total - f * w) / (f * w) = x at *
  have hone : 0 < 1 + x := by
    have hx' := (abs_le.mp (herror.trans hsmall)).1
    linarith
  have hsplit : Real.logb 2 w' = Real.logb 2 w - Real.logb 2 (total / f) + Real.logb 2 (1 + x) := by
    rw [hfactor, Real.logb_mul (by positivity) hone.ne', mul_div_right_comm, Real.logb_mul (by positivity) hwidth.ne',
      Real.logb_div hfR.ne' htotalR.ne', Real.logb_div htotalR.ne' hfR.ne']
    ring
  rw [hsplit]
  have hdifference : ∀ bits l₁ l₂ l₃ : ℝ, bits - (l₁ - l₂ + l₃) - (bits - l₁) - l₂ = -l₃ := by intros; ring
  rw [hdifference, abs_neg]
  linarith

end IntervalCoding
