/-
How many bits a block of the asymmetric-numerals coder takes.

The state only forgets whole bits, so each symbol costs the logarithm of its
inverse frequency to within one bit.
-/
import Scomp.AsymmetricalNumericSystem.AnsRoundTrip
import Scomp.Lib.CodeLength

namespace Scomp

open AsymmetricNumerals

/-- The bits shed by a number that ends between a frequency and twice the
frequency. -/
theorem shed_length {freq total x k : Nat} (hpos : 0 < freq) (hle : total ≤ x) (hlt : x < 2 * total)
    (hfrom : freq ≤ x / 2 ^ k) (hto : x / 2 ^ k < 2 * freq) : |(k : ℝ) - IntervalCoding.log2 (total / freq)| < 1 := by
  have hpow : 0 < 2 ^ k := Nat.two_pow_pos k
  have hlower : freq * 2 ^ k ≤ x := (Nat.le_div_iff_mul_le hpow).mp hfrom
  have hupper : x < 2 * freq * 2 ^ k := (Nat.div_lt_iff_lt_mul hpow).mp hto
  have hfreqR : (0 : ℝ) < freq := by exact_mod_cast hpos
  have htotalR : (0 : ℝ) < total := by exact_mod_cast (show 0 < total by omega)
  have hpowR : (0 : ℝ) < 2 ^ k := by positivity
  have hfewer : (freq : ℝ) * 2 ^ k < 2 * total := by exact_mod_cast Nat.lt_of_le_of_lt hlower hlt
  have hmore : (total : ℝ) < 2 * freq * 2 ^ k := by exact_mod_cast Nat.lt_of_le_of_lt hle hupper
  have hk := IntervalCoding.logb_two_pow k
  have hone : Real.logb 2 2 = 1 := Real.logb_self_eq_one one_lt_two
  have hless : Real.logb 2 (2 ^ k) < Real.logb 2 (2 * (total / freq)) := by
    refine Real.logb_lt_logb one_lt_two hpowR ?_
    rw [← mul_div_assoc, lt_div_iff₀ hfreqR, mul_comm]
    exact hfewer
  have hgreater : Real.logb 2 (total / freq) < Real.logb 2 (2 * 2 ^ k) := by
    refine Real.logb_lt_logb one_lt_two (div_pos htotalR hfreqR) ?_
    rw [div_lt_iff₀ hfreqR]
    linarith
  rw [Real.logb_mul two_ne_zero (div_pos htotalR hfreqR).ne', hone] at hless
  rw [Real.logb_mul two_ne_zero hpowR.ne', hone] at hgreater
  unfold IntervalCoding.log2
  rw [abs_lt]
  constructor <;> linarith

section

variable {table : Ftable} {s : Symbol}

/-- **One symbol** costs its ideal number of bits to within one. -/
theorem ansEncoderWriteSymbol_length {w : Writer} {state : UInt64} (he : Encodable table s) (hw : WriterOK w)
    (hle : table.total.toNat ≤ state.toNat) (hlt : state.toNat < 2 * table.total.toNat) :
    ∃ w' state', ansEncoderWriteSymbol w state table table.total s false = some (w', state', table) ∧ WriterOK w' ∧
      table.total.toNat ≤ state'.toNat ∧ state'.toNat < 2 * table.total.toNat ∧
      |(w'.bits.length : ℝ) - w.bits.length - IntervalCoding.log2 (table.total.toNat / table.freq s)| < 1 := by
  have hshare := he.share_le
  have htotal := he.ok.total_le
  obtain ⟨bits, w', state', hwrite, hok, hbits, hsafe, -⟩ := ansEncoderWriteSymbol_spec he hw hle hlt
  refine ⟨w', state', hwrite, hok, hsafe.total_le, hsafe.lt_total, ?_⟩
  obtain ⟨predicted, hnext, -, hpredicted⟩ := ansCalcNextState_spec he hlt
  obtain ⟨k, w₁, state₁, hloop, -, hshed, hfrom, hto, -⟩ := @ansShedBits_spec _ _ 65 _ _ _ he hw (by omega) hlt hpredicted
    (by omega)
  have hsame : w' = w₁ := by
    simp only [ansEncoderWriteSymbol, hnext, hloop, Option.bind_eq_bind, Option.bind_some] at hwrite
    cases hwrite
    rfl
  have hlength : (w'.bits.length : ℝ) = w.bits.length + k := by
    rw [hsame, hshed, List.length_append, lowBits, List.length_map, List.length_range, Nat.cast_add]
  rw [hlength, add_sub_cancel_left]
  exact shed_length he.pos hle hlt hfrom hto

theorem ansEncoderWriteSymbols_length {w : Writer} {block : List Symbol} (htotal : 0 < table.total.toNat) (hw : WriterOK w)
    (hblock : ∀ s ∈ block, Encodable table s) :
    ∃ w' state, ansEncoderWriteSymbols w table table.total false block = some (w', state, table) ∧ WriterOK w' ∧
      table.total.toNat ≤ state.toNat ∧ state.toNat < 2 * table.total.toNat ∧
      |(w'.bits.length : ℝ) - w.bits.length -
        (block.map fun s => IntervalCoding.log2 (table.total.toNat / table.freq s)).sum| ≤ block.length := by
  induction block with
  | nil => exact ⟨w, table.total, rfl, hw, Nat.le_refl _, by omega, by simp⟩
  | cons s block ih =>
    obtain ⟨hs, hrest⟩ := List.forall_mem_cons.mp hblock
    obtain ⟨w₁, state₁, hwrite, hok, hle, hlt, hlength⟩ := ih hrest
    obtain ⟨w', state', hwrite', hok', hle', hlt', hlength'⟩ := ansEncoderWriteSymbol_length hs hok hle hlt
    refine ⟨w', state', by simp [ansEncoderWriteSymbols, hwrite, hwrite'], hok', hle', hlt', ?_⟩
    obtain ⟨hlower, hupper⟩ := abs_le.mp hlength
    obtain ⟨hlower', hupper'⟩ := abs_lt.mp hlength'
    rw [List.map_cons, List.sum_cons, List.length_cons, Nat.cast_add, Nat.cast_one]
    refine abs_le.mpr ⟨?_, ?_⟩ <;> linarith

end

/-- **A block takes its ideal number of bits, to within one for each
symbol**; what is left is a state of one bit more than the total has. -/
theorem ans_block_length {table : Ftable} {block : List Symbol} {w : Writer} (ht : FtableOK table) (hblock : block ≠ [])
    (hs : ∀ s ∈ block, s < table.length ∧ 0 < ftableGetFrequency table s) (hw : WriterOK w) :
    ∃ state w', ansEncoderWriteBlock w block table false = some (state, w', table) ∧
      state.toNat < 2 * table.total.toNat ∧
      |(w'.bits.length : ℝ) - w.bits.length -
        (block.map fun s => IntervalCoding.log2 (table.total.toNat / table.freq s)).sum| ≤ block.length := by
  have he : ∀ s ∈ block, Encodable table s := fun s hmem => ⟨ht, (hs s hmem).1, UInt64.lt_iff_toNat_lt.mp (hs s hmem).2⟩
  obtain ⟨first, hfirst⟩ := List.exists_mem_of_ne_nil block hblock
  have htotal : 0 < table.total.toNat := by
    have hpos := (he first hfirst).pos
    have hshare := (he first hfirst).share_le
    omega
  obtain ⟨w', state, hwrite, -, -, hlt, hlength⟩ := ansEncoderWriteSymbols_length htotal hw he
  refine ⟨state, w', ?_, hlt, hlength⟩
  rw [ansEncoderWriteBlock, if_pos (List.length_pos_iff.mpr hblock), ftableGetTotal, hwrite]
  rfl

/-- A block of two symbols, one of them counted twice. -/
theorem ans_block_length_two :
    ∃ state w', ansEncoderWriteBlock (writerInit [0]) [1, 0] (ftableRun 2 FTABLE_INIT_ONE [1]) false =
        some (state, w', ftableRun 2 FTABLE_INIT_ONE [1]) ∧
      |(w'.bits.length : ℝ) - (writerInit [0]).bits.length - ([1, 0].map fun s =>
        IntervalCoding.log2 ((ftableRun 2 FTABLE_INIT_ONE [1]).total.toNat / (ftableRun 2 FTABLE_INIT_ONE [1]).freq s)).sum| ≤
          ([1, 0] : List Symbol).length := by
  have htable : FtableReachable (ftableRun 2 FTABLE_INIT_ONE [1]) := ⟨2, FTABLE_INIT_ONE, [1], by decide, by decide, rfl⟩
  obtain ⟨state, w', hwrite, -, hlength⟩ := @ans_block_length (ftableRun 2 FTABLE_INIT_ONE [1]) [1, 0] (writerInit [0])
    htable.ok (by decide) (by
      simp only [List.forall_mem_cons, List.not_mem_nil, false_implies, implies_true, and_true, UInt64.lt_iff_toNat_lt]
      decide) (.init (by decide))
  exact ⟨state, w', hwrite, hlength⟩

end Scomp
