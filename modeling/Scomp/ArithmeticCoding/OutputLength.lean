/-
How many bits the encoder writes.

Each symbol costs the logarithm of its inverse frequency, up to the rounding
of its share to whole code words, and the final bits are at most two.
-/
import Scomp.ArithmeticCoding.RoundTrip
import Scomp.Lib.CodeLength

namespace Scomp

open IntervalCoding

/-- What the symbols of an input would cost without rounding. -/
noncomputable def acodIdealBits (input : List (Ftable × Symbol)) : ℝ :=
  (input.map fun (table, symbol) => log2 (table.total.toNat / table.freq symbol)).sum

/-- What rounding can add or save. -/
noncomputable def acodRoundingBits (input : List (Ftable × Symbol)) : ℝ :=
  (input.map fun (table, symbol) =>
    3 * ((table.total.toNat : ℝ) / (table.freq symbol * (ACOD_MIN_RANGE.toNat : ℝ)))).sum

/-- A share of at least two code words of the smallest range. -/
def AcodShareOfTwo (table : Ftable) (symbol : Symbol) : Prop :=
  2 * table.total.toNat ≤ table.freq symbol * ACOD_MIN_RANGE.toNat

theorem AcodEncoder.interval_width {encoder : AcodEncoder} (h : AcodStateReady encoder.state) :
    2 ^ 30 + 2 ≤ encoder.interval.width ∧ encoder.interval.width ≤ 2 ^ 32 := by
  have hrange := h.range
  have hlt := h.high_lt
  rw [AcodEncoder.interval, acodInterval_width h.toAcodStateOK]
  omega

/-- **One symbol** costs its ideal number of bits, up to rounding. -/
theorem acodEncoderWrite_cost {encoder : AcodEncoder} {table : Ftable} {symbol : Symbol} (h : AcodEncoderReady encoder)
    (he : Encodable table symbol) (hshare : AcodShareOfTwo table symbol) :
    |(acodEncoderWrite encoder table symbol).interval.cost - encoder.interval.cost -
        Real.logb 2 (table.total.toNat / table.freq symbol)| ≤
      3 * ((table.total.toNat : ℝ) / (table.freq symbol * (ACOD_MIN_RANGE.toNat : ℝ))) := by
  obtain ⟨hmin, -⟩ := AcodEncoder.interval_width h.state
  obtain ⟨-, -, hinterval⟩ := acodEncoderWrite_spec h he
  have hbelow := he.ok.exact.below_le (Nat.succ_le_of_lt he.lt)
  rw [table.below_succ] at hbelow
  have htotal := he.ok.total_le
  have hfreq := he.pos
  have hpos : 0 < table.total.toNat := by omega
  have hminRange : ACOD_MIN_RANGE.toNat = 2 ^ 30 + 2 := rfl
  have hwide : 2 * table.total.toNat ≤ table.freq symbol * encoder.interval.width :=
    Nat.le_trans hshare (Nat.mul_le_mul_left _ (by rw [hminRange]; exact hmin))
  have hle : (acodShare encoder.interval table symbol).low ≤ (acodShare encoder.interval table symbol).high := by
    have hlt := @share_lt (table.below symbol) (table.below symbol + table.freq symbol) table.total.toNat
      encoder.interval.width (by omega) hpos (by omega)
    simp only [acodShare, Interval.narrow]
    omega
  have hcost := @Interval.narrow_cost encoder.interval (table.below symbol) (table.freq symbol) table.total.toNat hfreq hpos
    (by omega) hwide
  rw [hinterval, Interval.zoom_iterate_cost hle]
  refine hcost.trans (mul_le_mul_of_nonneg_left ?_ (by norm_num))
  have hfreqR : (0 : ℝ) < table.freq symbol := by exact_mod_cast hfreq
  have hminR : (0 : ℝ) < (ACOD_MIN_RANGE.toNat : ℝ) := by rw [hminRange]; norm_num
  have hwidthR : (ACOD_MIN_RANGE.toNat : ℝ) ≤ encoder.interval.width := by
    rw [hminRange]
    exact_mod_cast hmin
  exact div_le_div_of_nonneg_left (Nat.cast_nonneg _) (mul_pos hfreqR hminR) (mul_le_mul_of_nonneg_left hwidthR hfreqR.le)

/-- **A run** costs the sum. -/
theorem acodEncodeAll_cost {encoder : AcodEncoder} {input : List (Ftable × Symbol)} (h : AcodEncoderReady encoder)
    (he : ∀ pair ∈ input, Encodable pair.1 pair.2) (hshares : ∀ pair ∈ input, AcodShareOfTwo pair.1 pair.2) :
    |(acodEncodeAll encoder input).interval.cost - encoder.interval.cost - acodIdealBits input| ≤
      acodRoundingBits input := by
  induction input generalizing encoder with
  | nil => simp [acodEncodeAll, acodIdealBits, acodRoundingBits]
  | cons pair input ih =>
    obtain ⟨table, symbol⟩ := pair
    obtain ⟨hpair, hrest⟩ := List.forall_mem_cons.mp he
    obtain ⟨hshare, hshares⟩ := List.forall_mem_cons.mp hshares
    obtain ⟨hready, -, -⟩ := acodEncoderWrite_spec h hpair
    obtain ⟨hlow, hhigh⟩ := abs_le.mp (acodEncoderWrite_cost h hpair hshare)
    obtain ⟨hlow', hhigh'⟩ := abs_le.mp (ih hready hrest hshares)
    simp only [acodEncodeAll, acodIdealBits, acodRoundingBits, List.map_cons, List.sum_cons] at hlow' hhigh' ⊢
    refine abs_le.mpr ⟨?_, ?_⟩ <;> linarith

/-- The final bits: at most two more than the cost. -/
theorem acodEncoderDeinit_cost {encoder : AcodEncoder} (h : AcodEncoderReady encoder) :
    encoder.interval.cost ≤ ((acodEncoderDeinit encoder).bits.length : ℝ) ∧
      ((acodEncoderDeinit encoder).bits.length : ℝ) ≤ encoder.interval.cost + 2 := by
  obtain ⟨hmin, hmax⟩ := AcodEncoder.interval_width h.state
  obtain ⟨-, hlength, -⟩ := acodEncoderDeinit_spec h
  have hbits : ((acodEncoderDeinit encoder).bits.length : ℝ) + 30 = encoder.interval.bits := by exact_mod_cast hlength
  have hfrom : (30 : ℝ) ≤ Real.logb 2 encoder.interval.width := by
    have hpower := logb_two_pow 30
    have hle : (2 : ℝ) ^ 30 ≤ encoder.interval.width := by exact_mod_cast (by omega : 2 ^ 30 ≤ encoder.interval.width)
    have hlog := Real.logb_le_logb_of_le one_lt_two (by positivity) hle
    rw [hpower] at hlog
    exact_mod_cast hlog
  have hto : Real.logb 2 encoder.interval.width ≤ 32 := by
    have hpower := logb_two_pow 32
    have hle : (encoder.interval.width : ℝ) ≤ 2 ^ 32 := by exact_mod_cast hmax
    have hpos : (0 : ℝ) < encoder.interval.width := by exact_mod_cast Nat.succ_pos _
    have hlog := Real.logb_le_logb_of_le one_lt_two hpos hle
    rw [hpower] at hlog
    exact_mod_cast hlog
  unfold Interval.cost
  constructor <;> linarith

/-- A fresh encoder has cost nothing yet. -/
theorem acodEncoderInit_cost {w : Writer} (hw : w.bits = []) : (acodEncoderInit w).interval.cost = 0 := by
  have hinterval : (acodEncoderInit w).interval = acodFullInterval := by
    simp only [AcodEncoder.interval, acodEncoderInit, hw]
    rfl
  have hwidth : acodFullInterval.width = 2 ^ 32 := rfl
  have hpower := logb_two_pow 32
  rw [hinterval, Interval.cost, hwidth, show acodFullInterval.bits = 32 from rfl, Nat.cast_pow]
  exact sub_eq_zero.mpr hpower.symm

/-- A run that goes on from any encoder, final bits and all. -/
theorem acodEncodeAll_length {encoder : AcodEncoder} (h : AcodEncoderReady encoder) {input : List (Ftable × Symbol)}
    (he : ∀ pair ∈ input, Encodable pair.1 pair.2) (hshares : ∀ pair ∈ input, AcodShareOfTwo pair.1 pair.2) :
    let length : ℝ := (acodEncoderDeinit (acodEncodeAll encoder input)).bits.length
    encoder.interval.cost + acodIdealBits input - acodRoundingBits input ≤ length ∧
      length ≤ encoder.interval.cost + acodIdealBits input + acodRoundingBits input + 2 := by
  intro length
  obtain ⟨hready, -, -⟩ := acodEncodeAll_spec h he
  obtain ⟨hfrom, hto⟩ := acodEncoderDeinit_cost hready
  obtain ⟨hlow, hhigh⟩ := abs_le.mp (acodEncodeAll_cost h he hshares)
  constructor <;> linarith

/-- **The output has the ideal length**, up to the rounding of the shares and
two bits at the end. -/
theorem acod_output_length {staleBytes : List Byte} (hsize : 0 < staleBytes.length) {input : List (Ftable × Symbol)}
    (hinput : ∀ pair ∈ input, FtableOK pair.1 ∧ pair.2 < pair.1.length ∧ 0 < pair.1.freq pair.2 ∧
      AcodShareOfTwo pair.1 pair.2) :
    let length : ℝ := (acodEncoderDeinit (acodEncodeAll (acodEncoderInit (writerInit staleBytes)) input)).bits.length
    acodIdealBits input - acodRoundingBits input ≤ length ∧
      length ≤ acodIdealBits input + acodRoundingBits input + 2 := by
  intro length
  have hfresh : AcodEncoderReady (acodEncoderInit (writerInit staleBytes)) := .init (.init hsize)
  have hstart := acodEncoderInit_cost (writerInit_bits staleBytes)
  obtain ⟨hlower, hupper⟩ := acodEncodeAll_length hfresh
    (fun pair hmem => ⟨(hinput pair hmem).1, (hinput pair hmem).2.1, (hinput pair hmem).2.2.1⟩)
    fun pair hmem => (hinput pair hmem).2.2.2
  constructor <;> linarith

/-- Totals of at most half the smallest range leave every share two code
words. -/
theorem acodShareOfTwo_of_total_le {table : Ftable} {symbol : Symbol} (hpos : 0 < table.freq symbol)
    (htotal : table.total.toNat ≤ 2 ^ 29 + 1) : AcodShareOfTwo table symbol := by
  have hfreq : ACOD_MIN_RANGE.toNat ≤ table.freq symbol * ACOD_MIN_RANGE.toNat := Nat.le_mul_of_pos_left _ hpos
  rw [show ACOD_MIN_RANGE.toNat = 2 ^ 30 + 2 from rfl] at hfreq
  unfold AcodShareOfTwo
  rw [show ACOD_MIN_RANGE.toNat = 2 ^ 30 + 2 from rfl]
  omega

/-- Small totals round little. -/
theorem acodRoundingBits_le {input : List (Ftable × Symbol)} {bound : Nat}
    (h : ∀ pair ∈ input, 0 < pair.1.freq pair.2 ∧ pair.1.total.toNat ≤ bound) :
    acodRoundingBits input ≤ input.length * (3 * ((bound : ℝ) / (ACOD_MIN_RANGE.toNat : ℝ))) := by
  induction input with
  | nil => simp [acodRoundingBits]
  | cons pair input ih =>
    obtain ⟨⟨hpos, hle⟩, hrest⟩ := List.forall_mem_cons.mp h
    have hih := ih hrest
    have hterm : (pair.1.total.toNat : ℝ) / (pair.1.freq pair.2 * (ACOD_MIN_RANGE.toNat : ℝ)) ≤
        (bound : ℝ) / (ACOD_MIN_RANGE.toNat : ℝ) := by
      have hmin : (0 : ℝ) < (ACOD_MIN_RANGE.toNat : ℝ) := by
        exact_mod_cast (show 0 < ACOD_MIN_RANGE.toNat from by decide)
      have hone : (1 : ℝ) ≤ pair.1.freq pair.2 := by exact_mod_cast hpos
      have hleR : (pair.1.total.toNat : ℝ) ≤ bound := by exact_mod_cast hle
      exact div_le_div₀ (Nat.cast_nonneg _) hleR hmin (le_mul_of_one_le_left hmin.le hone)
    simp only [acodRoundingBits, List.map_cons, List.sum_cons, List.length_cons] at hih ⊢
    push_cast
    linarith

/-- Two symbols, each with a table of its own. -/
theorem acod_output_length_two :
    let input := [(ftableInit 2 FTABLE_INIT_ONE, 1), (ftableInit 3 FTABLE_INIT_ONE, 0)]
    let length : ℝ := (acodEncoderDeinit (acodEncodeAll (acodEncoderInit (writerInit [0xaa])) input)).bits.length
    acodIdealBits input - acodRoundingBits input ≤ length ∧
      length ≤ acodIdealBits input + acodRoundingBits input + 2 := by
  have htwo := (ftableInit_ready 2 FTABLE_INIT_ONE (by decide) (by decide)).1.encodable (show 1 < 2 by decide)
  have hthree := (ftableInit_ready 3 FTABLE_INIT_ONE (by decide) (by decide)).1.encodable (show 0 < 3 by decide)
  intro input
  refine acod_output_length (by decide) fun pair hmem => ?_
  simp only [input, List.mem_cons, List.not_mem_nil, or_false] at hmem
  obtain rfl | rfl := hmem
  · exact ⟨htwo.ok, htwo.lt, htwo.pos, acodShareOfTwo_of_total_le htwo.pos (by decide)⟩
  · exact ⟨hthree.ok, hthree.lt, hthree.pos, acodShareOfTwo_of_total_le hthree.pos (by decide)⟩

end Scomp
