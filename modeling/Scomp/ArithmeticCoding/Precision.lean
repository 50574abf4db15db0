/-
What the coder's interval keeps over a whole run: its precision always, its
own assertions `low < high` only while the written shares are wide enough.

A symbol's share of the interval may be a single code word; then `low` and
`high` are equal until the next shift, which the assertion in
`_acod_shrink_the_range` does not allow.
-/
import Scomp.ArithmeticCoding.RoundTrip
import Scomp.ArithmeticCoding.TableRuns
import Scomp.Lib.While

namespace Scomp

open IntervalCoding

/-! ## The loops end -/

theorem acodShifts_while {turns : Nat} {state : AcodState} (h : acodIsShiftable (acodShifts turns state).2 = false) :
    WhileEnds acodIsShiftable acodPerformShift state (acodShifts turns state).1 (acodShifts turns state).2 := by
  induction turns generalizing state with
  | zero => exact .zero h
  | succ turns ih =>
    rw [acodShifts] at h ⊢
    split
    · next hs =>
      rw [if_pos hs] at h
      exact .turn hs (ih h)
    · next hs => exact .zero (Bool.eq_false_iff.mpr hs)

theorem acodUnderflows_while {turns : Nat} {state : AcodState}
    (h : acodIsUnderflowable (acodUnderflows turns state).2 = false) :
    WhileEnds acodIsUnderflowable acodPerformUnderflow state (acodUnderflows turns state).1
      (acodUnderflows turns state).2 := by
  induction turns generalizing state with
  | zero => exact .zero h
  | succ turns ih =>
    rw [acodUnderflows] at h ⊢
    split
    · next hu =>
      rw [if_pos hu] at h
      exact .turn hu (ih h)
    · next hu => exact .zero (Bool.eq_false_iff.mpr hu)

/-- Both loops of a renormalisation. -/
structure AcodRenormalizes (state : AcodState) (shifts underflows : Nat) (final : AcodState) : Prop where
  shifted : ∃ shifted, WhileEnds acodIsShiftable acodPerformShift state shifts shifted ∧
    WhileEnds acodIsUnderflowable acodPerformUnderflow shifted underflows final

theorem acodRenormalizes_of_ok {state : AcodState} (h : AcodStateOK state) :
    AcodRenormalizes state (acodShifts 32 state).1 (acodUnderflows 32 (acodShifts 32 state).2).1
      (acodRenormalized state) := by
  have hone : 2 ^ 32 ≤ (state.high.toNat - state.low.toNat + 1) * 2 ^ 32 := Nat.le_mul_of_pos_left _ (Nat.succ_pos _)
  obtain ⟨hok, hs⟩ := acodShifts_done h hone
  obtain ⟨-, -, hu⟩ := acodUnderflows_done hok hs (Nat.le_mul_of_pos_left _ (Nat.succ_pos _))
  exact ⟨_, acodShifts_while (Bool.eq_false_iff.mpr hs), acodUnderflows_while (Bool.eq_false_iff.mpr hu)⟩

/-! ## Precision -/

/-- How many shift and underflow steps a run performs. -/
def acodStepsPerformed : AcodEncoder → List (Ftable × Symbol) → Nat
  | _, [] => 0
  | encoder, (table, symbol) :: input =>
    acodRenormalizeTurns (acodShrinkTheRange encoder.state table symbol) +
      acodStepsPerformed (acodEncoderWrite encoder table symbol) input

theorem acodEncodeAll_append (encoder : AcodEncoder) (first second : List (Ftable × Symbol)) :
    acodEncodeAll encoder (first ++ second) = acodEncodeAll (acodEncodeAll encoder first) second := by
  induction first generalizing encoder with
  | nil => rfl
  | cons pair first ih => exact ih _

/-- Every step puts one bit out, or one on the account of the underflows. -/
theorem acodEncodeAll_steps {encoder : AcodEncoder} {input : List (Ftable × Symbol)} (h : AcodEncoderReady encoder)
    (he : ∀ pair ∈ input, Encodable pair.1 pair.2) :
    AcodEncoderReady (acodEncodeAll encoder input) ∧
      (acodEncodeAll encoder input).writer.bits.length + (acodEncodeAll encoder input).underflows =
        encoder.writer.bits.length + encoder.underflows + acodStepsPerformed encoder input := by
  induction input generalizing encoder with
  | nil => exact ⟨h, rfl⟩
  | cons pair input ih =>
    obtain ⟨table, symbol⟩ := pair
    obtain ⟨hpair, hrest⟩ := List.forall_mem_cons.mp he
    obtain ⟨hready, -, hinterval⟩ := acodEncoderWrite_spec h hpair
    obtain ⟨hready', hsteps⟩ := ih hready hrest
    have hbits := congrArg Interval.bits hinterval
    rw [Interval.zoom_iterate_bits] at hbits
    simp only [AcodEncoder.interval, acodInterval, acodShare, Interval.narrow_bits] at hbits
    refine ⟨hready', ?_⟩
    rw [acodStepsPerformed]
    simp only [acodEncodeAll] at hsteps ⊢
    rw [hsteps]
    omega

/-- What holds between two symbols. -/
structure AcodFullPrecision (encoder : AcodEncoder) : Prop where
  lt : encoder.state.low < encoder.state.high
  high_lt : encoder.state.high < ACOD_FULL_RANGE
  topBits : encoder.state.low &&& ACOD_HALF_RANGE ≠ encoder.state.high &&& ACOD_HALF_RANGE
  notUnderflow : acodIsUnderflowable encoder.state = false
  range : ACOD_MIN_RANGE ≤ encoder.state.high - encoder.state.low + 1

theorem AcodEncoderReady.fullPrecision {encoder : AcodEncoder} (h : AcodEncoderReady encoder) :
    AcodFullPrecision encoder := by
  have hstate := h.state
  have hle := hstate.low_le
  have hlt := hstate.high_lt
  have hrange := hstate.range
  have hs := hstate.notShiftable
  rw [acodIsShiftable_iff hstate.toAcodStateOK, not_or, Nat.not_lt, Nat.not_le] at hs
  constructor
  · rw [UInt64.lt_iff_toNat_lt]
    omega
  · rw [UInt64.lt_iff_toNat_lt]
    exact hlt
  · rw [Ne, ← UInt64.toNat_inj, and_two_pow_toNat ACOD_HALF_RANGE (rfl : _ = 2 ^ 31),
      and_two_pow_toNat ACOD_HALF_RANGE (rfl : _ = 2 ^ 31)]
    omega
  · exact Bool.eq_false_iff.mpr hstate.notUnderflowable
  · rw [UInt64.le_iff_toNat_le, UInt64.toNat_add, UInt64.toNat_sub_of_le _ _ (UInt64.le_iff_toNat_le.mpr hle),
      show UInt64.toNat 1 = 1 from rfl, show ACOD_MIN_RANGE.toNat = 2 ^ 30 + 2 from rfl]
    omega

/-- Cumulative frequencies times the range stay far below `2^64`. -/
theorem acodProduct_lt {state : AcodState} {table : Ftable} {symbol : Symbol} (h : AcodStateOK state)
    (he : Encodable table symbol) :
    (ftableGetHigh table symbol).toNat * (state.high - state.low + 1).toNat < 2 ^ 64 := by
  have hle := h.low_le
  have hlt := h.high_lt
  have htotal := he.ok.total_le
  have hbelow := he.ok.exact.below_le (Nat.succ_le_of_lt he.lt)
  rw [table.below_succ] at hbelow
  have hrange : (state.high - state.low + 1).toNat ≤ 2 ^ 32 := by
    rw [UInt64.toNat_add, UInt64.toNat_sub_of_le _ _ (UInt64.le_iff_toNat_le.mpr hle), show UInt64.toNat 1 = 1 from rfl]
    omega
  rw [he.ok.exact.high_toNat he.lt]
  calc (table.below symbol + table.freq symbol) * (state.high - state.low + 1).toNat
      ≤ (2 ^ 30 + 2) * 2 ^ 32 := Nat.mul_le_mul (Nat.le_trans hbelow htotal) hrange
    _ < 2 ^ 64 := by decide

/-- **Renormalisation keeps full precision.** Before and after every symbol
the state has its precision, the products of the symbol's update do not wrap,
both loops end, and each of their steps is a bit written or an underflow
owed. -/
theorem acod_encoder_full_precision (staleBytes : List Byte) (hsize : 0 < staleBytes.length)
    (before after : List (Ftable × Symbol)) (table : Ftable) (symbol : Symbol)
    (hinput : ∀ pair ∈ before ++ (table, symbol) :: after,
      FtableOK pair.1 ∧ pair.2 < pair.1.length ∧ 0 < ftableGetFrequency pair.1 pair.2) :
    let fresh := acodEncoderInit (writerInit staleBytes)
    let encoder := acodEncodeAll fresh before
    let shrunk := acodShrinkTheRange encoder.state table symbol
    let encoder' := acodEncoderWrite encoder table symbol
    AcodFullPrecision encoder ∧
      (ftableGetHigh table symbol).toNat * (encoder.state.high - encoder.state.low + 1).toNat < 2 ^ 64 ∧
      (∃ shifts underflows, AcodRenormalizes shrunk shifts underflows encoder'.state ∧
        encoder'.writer.bits.length + encoder'.underflows =
          encoder.writer.bits.length + encoder.underflows + (shifts + underflows)) ∧
      AcodFullPrecision encoder' ∧
      encoder'.writer.bits.length + encoder'.underflows = acodStepsPerformed fresh (before ++ [(table, symbol)]) := by
  intro fresh encoder shrunk encoder'
  have he : ∀ pair ∈ before ++ (table, symbol) :: after, Encodable pair.1 pair.2 := fun pair hmem =>
    ⟨(hinput pair hmem).1, (hinput pair hmem).2.1, UInt64.lt_iff_toNat_lt.mp (hinput pair hmem).2.2⟩
  obtain ⟨hbefore, hafter⟩ := List.forall_mem_append.mp he
  have hpair : Encodable table symbol := (List.forall_mem_cons.mp hafter).1
  have hfresh : AcodEncoderReady fresh := .init (.init hsize)
  obtain ⟨hready, -⟩ := acodEncodeAll_steps hfresh hbefore
  have hlast : encoder' = acodEncodeAll fresh (before ++ [(table, symbol)]) := by
    rw [acodEncodeAll_append]
    rfl
  obtain ⟨hready', hsteps⟩ := @acodEncodeAll_steps fresh (before ++ [(table, symbol)]) hfresh
    (List.forall_mem_append.mpr ⟨hbefore, by simpa using hpair⟩)
  obtain ⟨-, hone⟩ := @acodEncodeAll_steps encoder [(table, symbol)] hready (by simpa using hpair)
  obtain ⟨hok, -⟩ := @acodInterval_shrink encoder.writer.bits encoder.underflows _ _ _ hready.state hpair
  obtain ⟨-, hstate, -⟩ := acodEncoderWrite_spec hready hpair
  have hempty : fresh.writer.bits.length + fresh.underflows = 0 := by
    rw [show fresh.writer.bits = [] from writerInit_bits staleBytes]
    rfl
  rw [← hlast, hempty, Nat.zero_add] at hsteps
  rw [← hlast] at hready'
  have hloops := acodRenormalizes_of_ok hok
  rw [← hstate] at hloops
  exact ⟨hready.fullPrecision, acodProduct_lt hready.state.toAcodStateOK hpair, ⟨_, _, hloops, hone⟩,
    hready'.fullPrecision, hsteps⟩

/-- The second of two symbols, each with a table of its own. -/
theorem acod_encoder_full_precision_two :
    let encoder := acodEncodeAll (acodEncoderInit (writerInit [0xaa])) [(ftableInit 2 FTABLE_INIT_ONE, 1)]
    AcodFullPrecision encoder ∧ AcodFullPrecision (acodEncoderWrite encoder (ftableInit 3 FTABLE_INIT_ONE) 0) := by
  have htwo := (ftableInit_ready 2 FTABLE_INIT_ONE (by decide) (by decide)).1.encodable (show 1 < 2 by decide)
  have hthree := (ftableInit_ready 3 FTABLE_INIT_ONE (by decide) (by decide)).1.encodable (show 0 < 3 by decide)
  obtain ⟨hbefore, -, -, hafter, -⟩ := acod_encoder_full_precision [0xaa] (by decide)
    [(ftableInit 2 FTABLE_INIT_ONE, 1)] [] (ftableInit 3 FTABLE_INIT_ONE) 0 (by
      simp only [List.cons_append, List.nil_append, List.forall_mem_cons, UInt64.lt_iff_toNat_lt]
      exact ⟨⟨htwo.ok, htwo.lt, htwo.pos⟩, ⟨hthree.ok, hthree.lt, hthree.pos⟩, by simp⟩)
  exact ⟨hbefore, hafter⟩

/-! ## The assertions -/

/-- What legal use passes to the encoder. -/
def AcodLegal (input : List (Ftable × Symbol)) : Prop :=
  ∀ pair ∈ input, FtableReachable pair.1 ∧ pair.2 < pair.1.length ∧ 0 < ftableGetFrequency pair.1 pair.2

theorem AcodLegal.encodable {input : List (Ftable × Symbol)} (h : AcodLegal input) :
    ∀ pair ∈ input, Encodable pair.1 pair.2 := fun pair hmem =>
  ⟨(h pair hmem).1.ok, (h pair hmem).2.1, UInt64.lt_iff_toNat_lt.mp (h pair hmem).2.2⟩

end Scomp
