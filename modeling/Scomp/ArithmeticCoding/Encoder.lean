/-
The arithmetic encoder (`encoder.c`), and the interval it stands for.

The bits written and the underflow bits still owed fix all digits of the
code before the 32 that `low` and `high` are about; `acodBase` is their
value, so the encoder's interval runs from `acodBase + low` to
`acodBase + high`.
-/
import Scomp.ArithmeticCoding.State
import Scomp.DataStructures.WriterFacts

namespace Scomp

open IntervalCoding

structure AcodEncoder where
  state : AcodState
  /-- Number of saved underflow bits; a `uint64` in the source, unbounded here. -/
  underflows : Nat
  writer : Writer

def acodEncoderInit (writer : Writer) : AcodEncoder := { state := acodStateInit, underflows := 0, writer := writer }

/-- The loop that writes out the saved underflow bits. -/
def acodWriteUnderflows : Nat → Bool → Writer → Writer
  | 0, _, w => w
  | underflows + 1, bit, w => acodWriteUnderflows underflows bit (writerWriteBit w (!bit))

def acodEncoderWriteShiftBit (encoder : AcodEncoder) (bit : Bool) : AcodEncoder :=
  { encoder with
    writer := acodWriteUnderflows encoder.underflows bit (writerWriteBit encoder.writer bit)
    underflows := 0 }

def acodEncoderFinalize (encoder : AcodEncoder) : AcodEncoder :=
  -- this makes the final interval unambiguous
  let encoder := { encoder with underflows := encoder.underflows + 1 }
  acodEncoderWriteShiftBit encoder (if encoder.state.low < ACOD_QUARTER_RANGE then false else true)

/-- What remains of a finished encoder is its writer. -/
def acodEncoderDeinit (encoder : AcodEncoder) : Writer := (acodEncoderFinalize encoder).writer

/-- The top bit of `low`. -/
def acodTopBit (state : AcodState) : Bool := state.low >>> UInt64.ofNat (ACOD_STATE_SIZE_BITS - 1) ≠ 0

def acodEncoderShiftLoop : Nat → AcodEncoder → AcodEncoder
  | 0, encoder => encoder
  | turns + 1, encoder =>
    if acodIsShiftable encoder.state then
      acodEncoderShiftLoop turns
        { acodEncoderWriteShiftBit encoder (acodTopBit encoder.state) with state := acodPerformShift encoder.state }
    else encoder

def acodEncoderUnderflowLoop : Nat → AcodEncoder → AcodEncoder
  | 0, encoder => encoder
  | turns + 1, encoder =>
    if acodIsUnderflowable encoder.state then
      acodEncoderUnderflowLoop turns
        { encoder with underflows := encoder.underflows + 1, state := acodPerformUnderflow encoder.state }
    else encoder

def acodEncoderWrite (encoder : AcodEncoder) (frequencies : Ftable) (symbol : Symbol) : AcodEncoder :=
  acodEncoderUnderflowLoop 32
    (acodEncoderShiftLoop 32 { encoder with state := acodShrinkTheRange encoder.state frequencies symbol })

/-! ## The interval of an encoder -/

def acodBase (written : List Bool) (underflows : Nat) : Nat :=
  ofBits written * 2 ^ (underflows + 32) + (2 ^ underflows - 1) * 2 ^ 31

def acodInterval (written : List Bool) (underflows : Nat) (state : AcodState) : Interval :=
  { low := acodBase written underflows + state.low.toNat
    high := acodBase written underflows + state.high.toNat
    bits := written.length + underflows + 32 }

theorem acodInterval_width {written underflows state} (h : AcodStateOK state) :
    (acodInterval written underflows state).width = state.high.toNat - state.low.toNat + 1 := by
  have hle := h.low_le
  simp only [acodInterval, Interval.width]
  omega

/-- The digits owed are 0111.. or 1000.., after the bit that decides. -/
theorem acodBase_writeShiftBit (written : List Bool) (underflows : Nat) (bit : Bool) :
    acodBase (written ++ bit :: List.replicate underflows (!bit)) 0 =
      2 * acodBase written underflows + bit.toNat * 2 ^ 32 := by
  have hpos := Nat.two_pow_pos underflows
  obtain ⟨p, hp⟩ : ∃ p, 2 ^ underflows = p + 1 := ⟨2 ^ underflows - 1, by omega⟩
  have hcons : written ++ bit :: List.replicate underflows (!bit) =
      (written ++ [bit]) ++ List.replicate underflows (!bit) := by simp
  have hzero : acodBase (written ++ bit :: List.replicate underflows (!bit)) 0 =
      ofBits (written ++ bit :: List.replicate underflows (!bit)) * 2 ^ 32 := by simp [acodBase]
  rw [hzero, hcons]
  unfold acodBase
  rw [Nat.pow_add, hp, Nat.add_sub_cancel]
  cases bit with
  | false =>
    have hall := ofBits_replicate_true (written ++ [false]) underflows
    rw [ofBits_snoc, hp, Bool.toNat_false] at hall
    simp only [Nat.add_zero] at hall
    have hsum : ofBits (written ++ [false] ++ List.replicate underflows (!false)) =
        2 * ofBits written * (p + 1) + p := by
      have hexpand : (2 * ofBits written + 1) * (p + 1) = 2 * ofBits written * (p + 1) + p + 1 := by ring
      rw [Bool.not_false]
      omega
    rw [hsum, Bool.toNat_false]
    ring
  | true =>
    rw [Bool.not_true, ofBits_replicate_false, ofBits_snoc, hp, Bool.toNat_true]
    ring

theorem acodBase_succ (written : List Bool) (underflows : Nat) :
    acodBase written (underflows + 1) = 2 * acodBase written underflows + 2 ^ 31 := by
  have hpos := Nat.two_pow_pos underflows
  obtain ⟨p, hp⟩ : ∃ p, 2 ^ underflows = p + 1 := ⟨2 ^ underflows - 1, by omega⟩
  have hwide : 2 ^ (underflows + 32) = (p + 1) * 2 ^ 32 := by rw [Nat.pow_add, hp]
  have hnext : 2 ^ (underflows + 1) = 2 * p + 1 + 1 := by rw [Nat.pow_succ, hp]; omega
  rw [acodBase, acodBase, Nat.pow_add _ (underflows + 1), hnext, hwide, hp, Nat.add_sub_cancel, Nat.add_sub_cancel]
  ring

theorem acodTopBit_toNat {state : AcodState} (h : AcodStateOK state) :
    (acodTopBit state).toNat = state.low.toNat / 2 ^ 31 := by
  have hle := h.low_le
  have hlt := h.high_lt
  have hshift : (state.low >>> UInt64.ofNat (ACOD_STATE_SIZE_BITS - 1)).toNat = state.low.toNat / 2 ^ 31 := by
    rw [UInt64.toNat_shiftRight, show (UInt64.ofNat (ACOD_STATE_SIZE_BITS - 1)).toNat % 64 = 31 from rfl,
      Nat.shiftRight_eq_div_pow]
  have hbit : state.low.toNat / 2 ^ 31 = 0 ∨ state.low.toNat / 2 ^ 31 = 1 := by omega
  have hiff : acodTopBit state = true ↔ state.low.toNat / 2 ^ 31 ≠ 0 := by
    rw [acodTopBit, decide_eq_true_iff, Ne, ← UInt64.toNat_inj, hshift]
    rfl
  cases htop : acodTopBit state with
  | true =>
    rw [htop] at hiff
    have := hiff.mp rfl
    rw [Bool.toNat_true]
    omega
  | false =>
    rw [htop] at hiff
    have hzero : ¬ state.low.toNat / 2 ^ 31 ≠ 0 := fun hne => Bool.noConfusion (hiff.mpr hne)
    rw [Bool.toNat_false]
    omega

theorem acodInterval_shift (written : List Bool) (underflows : Nat) {state : AcodState} (h : AcodStateOK state)
    (hs : acodIsShiftable state = true) :
    acodInterval (written ++ acodTopBit state :: List.replicate underflows (!acodTopBit state)) 0
      (acodPerformShift state) = (acodInterval written underflows state).zoom := by
  obtain ⟨offset, hcases, hlow, hhigh, -⟩ := acodPerformShift_spec h hs
  have hle := h.low_le
  have hlt := h.high_lt
  have htop := acodTopBit_toNat h
  have hoffset : (acodTopBit state).toNat * 2 ^ 32 = offset := by
    rw [htop]
    rcases hcases with ⟨rfl, hsmall⟩ | ⟨rfl, hlarge⟩ <;> omega
  unfold acodInterval Interval.zoom
  rw [acodBase_writeShiftBit, hoffset]
  generalize acodBase written underflows = base
  simp only [List.length_append, List.length_cons, List.length_replicate, Interval.mk.injEq]
  omega

theorem acodInterval_underflow (written : List Bool) (underflows : Nat) {state : AcodState} (h : AcodStateOK state)
    (hs : ¬ acodIsShiftable state = true) (hu : acodIsUnderflowable state = true) :
    acodInterval written (underflows + 1) (acodPerformUnderflow state) =
      (acodInterval written underflows state).zoom := by
  obtain ⟨hlow, hhigh, -, -⟩ := acodPerformUnderflow_spec h hs hu
  unfold acodInterval Interval.zoom
  rw [acodBase_succ]
  generalize acodBase written underflows = base
  simp only [Interval.mk.injEq]
  omega

/-! ## The encoder's steps -/

theorem acodWriteUnderflows_spec {w : Writer} (h : WriterOK w) (underflows : Nat) (bit : Bool) :
    WriterOK (acodWriteUnderflows underflows bit w) ∧
      (acodWriteUnderflows underflows bit w).bits = w.bits ++ List.replicate underflows (!bit) := by
  induction underflows generalizing w with
  | zero => exact ⟨h, by simp [acodWriteUnderflows]⟩
  | succ underflows ih =>
    obtain ⟨hok, hbits⟩ := @writerWriteBit_spec w (!bit) h
    obtain ⟨hok', hbits'⟩ := ih hok
    refine ⟨hok', ?_⟩
    rw [acodWriteUnderflows, hbits', hbits, List.append_assoc, List.replicate_succ]
    rfl

theorem acodEncoderWriteShiftBit_spec {encoder : AcodEncoder} (h : WriterOK encoder.writer) (bit : Bool) :
    WriterOK (acodEncoderWriteShiftBit encoder bit).writer ∧
      (acodEncoderWriteShiftBit encoder bit).writer.bits =
        encoder.writer.bits ++ bit :: List.replicate encoder.underflows (!bit) := by
  obtain ⟨hok, hbits⟩ := @writerWriteBit_spec _ bit h
  obtain ⟨hok', hbits'⟩ := acodWriteUnderflows_spec hok encoder.underflows bit
  exact ⟨hok', by rw [acodEncoderWriteShiftBit, hbits', hbits, List.append_assoc]; rfl⟩

def AcodEncoder.interval (encoder : AcodEncoder) : Interval :=
  acodInterval encoder.writer.bits encoder.underflows encoder.state

theorem acodEncoderShiftLoop_spec {turns : Nat} {encoder : AcodEncoder} (h : AcodStateOK encoder.state)
    (hw : WriterOK encoder.writer) :
    (acodEncoderShiftLoop turns encoder).state = (acodShifts turns encoder.state).2 ∧
      WriterOK (acodEncoderShiftLoop turns encoder).writer ∧
      (acodEncoderShiftLoop turns encoder).interval =
        Interval.zoom^[(acodShifts turns encoder.state).1] encoder.interval := by
  induction turns generalizing encoder with
  | zero => exact ⟨rfl, hw, rfl⟩
  | succ turns ih =>
    rw [acodEncoderShiftLoop, acodShifts]
    split
    · next hs =>
      obtain ⟨_, -, -, -, hok⟩ := acodPerformShift_spec h hs
      obtain ⟨hw', hbits⟩ := acodEncoderWriteShiftBit_spec hw (acodTopBit encoder.state)
      obtain ⟨hstate, hw₂, hinterval⟩ := @ih
        { acodEncoderWriteShiftBit encoder (acodTopBit encoder.state) with state := acodPerformShift encoder.state } hok hw'
      refine ⟨hstate, hw₂, ?_⟩
      rw [hinterval, Function.iterate_succ_apply, AcodEncoder.interval, AcodEncoder.interval,
        ← acodInterval_shift _ _ h hs]
      simp only [hbits]
      rfl
    · exact ⟨rfl, hw, rfl⟩

theorem acodEncoderUnderflowLoop_spec {turns : Nat} {encoder : AcodEncoder} (h : AcodStateOK encoder.state)
    (hs : ¬ acodIsShiftable encoder.state = true) :
    (acodEncoderUnderflowLoop turns encoder).state = (acodUnderflows turns encoder.state).2 ∧
      (acodEncoderUnderflowLoop turns encoder).writer = encoder.writer ∧
      (acodEncoderUnderflowLoop turns encoder).interval =
        Interval.zoom^[(acodUnderflows turns encoder.state).1] encoder.interval := by
  induction turns generalizing encoder with
  | zero => exact ⟨rfl, rfl, rfl⟩
  | succ turns ih =>
    rw [acodEncoderUnderflowLoop, acodUnderflows]
    split
    · next hu =>
      obtain ⟨-, -, hok, hs'⟩ := acodPerformUnderflow_spec h hs hu
      obtain ⟨hstate, hw, hinterval⟩ := @ih
        { encoder with underflows := encoder.underflows + 1, state := acodPerformUnderflow encoder.state } hok hs'
      refine ⟨hstate, hw, ?_⟩
      rw [hinterval, Function.iterate_succ_apply, AcodEncoder.interval, AcodEncoder.interval,
        ← acodInterval_underflow _ _ h hs hu]
    · exact ⟨rfl, rfl, rfl⟩

/-- How many turns the two loops take together. -/
def acodRenormalizeTurns (state : AcodState) : Nat :=
  (acodShifts 32 state).1 + (acodUnderflows 32 (acodShifts 32 state).2).1

/-- A symbol's share of the encoder's interval. -/
def acodShare (i : Interval) (table : Ftable) (symbol : Symbol) : Interval :=
  i.narrow (table.below symbol) (table.below symbol + table.freq symbol) table.total.toNat

/-- An encoder between two symbols. -/
structure AcodEncoderReady (encoder : AcodEncoder) : Prop where
  state : AcodStateReady encoder.state
  writer : WriterOK encoder.writer

/-- What a table must offer for a symbol to be written or read with it. -/
structure Encodable (table : Ftable) (symbol : Symbol) : Prop where
  ok : FtableOK table
  lt : symbol < table.length
  pos : 0 < table.freq symbol

/-- What the decoder's search needs as well: a `symbol` can hold the table's
number of symbols, or the search stays where it starts. -/
structure Codable (table : Ftable) (symbol : Symbol) : Prop extends Encodable table symbol where
  findable : table.length < 2 ^ 15 ∨ table.length = 2 ^ 15 ∧ symbol = 0

theorem FtableReady.encodable {table : Ftable} {limit : Nat} (h : FtableReady table limit) {symbol : Symbol}
    (hs : symbol < limit) : Encodable table symbol :=
  ⟨h.ok, by rw [h.limit_eq]; exact hs, h.positive symbol hs⟩

theorem FtableReady.codable {table : Ftable} {limit : Nat} (h : FtableReady table limit) {symbol : Symbol}
    (hs : symbol < limit) : Codable table symbol :=
  ⟨h.encodable hs, .inl h.length_lt⟩

theorem acodInterval_shrink {written : List Bool} {underflows : Nat} {state : AcodState} {table : Ftable}
    {symbol : Symbol} (h : AcodStateReady state) (he : Encodable table symbol) :
    AcodStateOK (acodShrinkTheRange state table symbol) ∧
      acodInterval written underflows (acodShrinkTheRange state table symbol) =
        acodShare (acodInterval written underflows state) table symbol := by
  obtain ⟨hab, hb, hlow, hhigh, hok⟩ := acodShrinkTheRange_spec h.toAcodStateOK he.ok he.lt he.pos h.range
  refine ⟨hok, ?_⟩
  unfold acodShare Interval.narrow
  rw [acodInterval_width h.toAcodStateOK]
  simp only [acodInterval, hlow, hhigh, Interval.mk.injEq]
  generalize table.below symbol * (state.high.toNat - state.low.toNat + 1) / table.total.toNat = a at *
  generalize (table.below symbol + table.freq symbol) * (state.high.toNat - state.low.toNat + 1) /
    table.total.toNat = b at *
  generalize acodBase written underflows = base
  exact ⟨by omega, by omega, trivial⟩

/-- **Writing a symbol** narrows the interval to its share; renormalising
does not change it. -/
theorem acodEncoderWrite_spec {encoder : AcodEncoder} {table : Ftable} {symbol : Symbol}
    (h : AcodEncoderReady encoder) (he : Encodable table symbol) :
    AcodEncoderReady (acodEncoderWrite encoder table symbol) ∧
      (acodEncoderWrite encoder table symbol).state =
        acodRenormalized (acodShrinkTheRange encoder.state table symbol) ∧
      (acodEncoderWrite encoder table symbol).interval =
        Interval.zoom^[acodRenormalizeTurns (acodShrinkTheRange encoder.state table symbol)]
          (acodShare encoder.interval table symbol) := by
  obtain ⟨hok, hshrink⟩ := @acodInterval_shrink encoder.writer.bits encoder.underflows _ _ _ h.state he
  obtain ⟨hstate₁, hw₁, hinterval₁⟩ := @acodEncoderShiftLoop_spec 32
    { encoder with state := acodShrinkTheRange encoder.state table symbol } hok h.writer
  obtain ⟨hok₁, hs₁⟩ := acodShifts_done hok (Nat.le_mul_of_pos_left _ (Nat.succ_pos _))
  obtain ⟨hstate₂, hw₂, hinterval₂⟩ := @acodEncoderUnderflowLoop_spec 32
    (acodEncoderShiftLoop 32 { encoder with state := acodShrinkTheRange encoder.state table symbol })
    (by rw [hstate₁]; exact hok₁) (by rw [hstate₁]; exact hs₁)
  rw [hstate₁] at hstate₂ hinterval₂
  have hready := acodRenormalized_ready hok
  refine ⟨⟨?_, ?_⟩, hstate₂, ?_⟩
  · rw [acodEncoderWrite, hstate₂]
    exact hready
  · rw [acodEncoderWrite, hw₂]
    exact hw₁
  · rw [acodEncoderWrite, hinterval₂, hinterval₁, ← Function.iterate_add_apply, Nat.add_comm]
    exact congrArg _ hshrink

theorem AcodEncoderReady.init {w : Writer} (h : WriterOK w) : AcodEncoderReady (acodEncoderInit w) :=
  ⟨acodStateInit_ready, h⟩

/-- **The final bits are unambiguous**: whatever follows them, the stream is
in the encoder's interval. -/
theorem acodEncoderDeinit_spec {encoder : AcodEncoder} (h : AcodEncoderReady encoder) :
    WriterOK (acodEncoderDeinit encoder) ∧
      (acodEncoderDeinit encoder).bits.length + 30 = encoder.interval.bits ∧
      ∀ following, encoder.interval.Contains (streamOf ((acodEncoderDeinit encoder).bits ++ following)) := by
  have hstate := h.state
  have hs := hstate.notShiftable
  have hu := hstate.notUnderflowable
  rw [acodIsUnderflowable_iff hstate.toAcodStateOK hs, not_and, Nat.not_lt] at hu
  rw [acodIsShiftable_iff hstate.toAcodStateOK, not_or, Nat.not_lt, Nat.not_le] at hs
  obtain ⟨hok, hbits⟩ := @acodEncoderWriteShiftBit_spec { encoder with underflows := encoder.underflows + 1 } h.writer
    (if encoder.state.low < ACOD_QUARTER_RANGE then false else true)
  refine ⟨hok, ?_, ?_⟩
  · show (acodEncoderWriteShiftBit _ _).writer.bits.length + 30 = _
    rw [hbits]
    simp only [AcodEncoder.interval, acodInterval, List.length_append, List.length_cons, List.length_replicate]
    omega
  · intro following
    show encoder.interval.Contains (streamOf ((acodEncoderWriteShiftBit _ _).writer.bits ++ following))
    rw [hbits]
    have hquarter : encoder.state.low < ACOD_QUARTER_RANGE ↔ encoder.state.low.toNat < 2 ^ 30 := UInt64.lt_iff_toNat_lt
    generalize hfinal : (if encoder.state.low < ACOD_QUARTER_RANGE then false else true) = bit
    have hbase := acodBase_writeShiftBit encoder.writer.bits (encoder.underflows + 1) bit
    generalize hall : encoder.writer.bits ++ bit :: List.replicate (encoder.underflows + 1) (!bit) = all at hbase ⊢
    have hlength : all.length = encoder.writer.bits.length + encoder.underflows + 2 := by
      rw [← hall]
      simp only [List.length_append, List.length_cons, List.length_replicate]
      omega
    have hvalue := value_add (streamOf (all ++ following)) all.length 30
    have hrest := value_lt (fun i => streamOf (all ++ following) (all.length + i)) 30
    rw [value_streamOf] at hvalue
    have hshort : acodBase all 0 = ofBits all * 2 ^ 32 := by simp [acodBase]
    rw [hshort, acodBase_succ] at hbase
    have hbits : encoder.interval.bits = all.length + 30 := by
      rw [hlength]
      rfl
    rw [Interval.Contains, hbits, hvalue]
    show acodBase encoder.writer.bits encoder.underflows + encoder.state.low.toNat ≤ _ ∧
      _ ≤ acodBase encoder.writer.bits encoder.underflows + encoder.state.high.toNat
    -- the stream goes on with 01 or with 10
    by_cases hlow : encoder.state.low < ACOD_QUARTER_RANGE
    · rw [if_pos hlow] at hfinal
      rw [hquarter] at hlow
      rw [← hfinal, Bool.toNat_false] at hbase
      omega
    · rw [if_neg hlow] at hfinal
      rw [hquarter] at hlow
      rw [← hfinal, Bool.toNat_true] at hbase
      omega

end Scomp
