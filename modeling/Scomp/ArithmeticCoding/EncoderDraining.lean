/-
Output that is taken out of an encoder while it still writes.

What an encoder writes depends on its state and on the bits it owes, not on
its writer: two encoders that differ by the bytes already taken go on alike.
-/
import Scomp.ArithmeticCoding.RoundTrip
import Scomp.DataStructures.WriterRun

namespace Scomp

/-- The same output, of which other bytes have been taken so far. -/
structure EncodersAlike (taken taken' : List Byte) (encoder encoder' : AcodEncoder) : Prop where
  state : encoder'.state = encoder.state
  underflows : encoder'.underflows = encoder.underflows
  ok : WriterOK encoder.writer
  ok' : WriterOK encoder'.writer
  bits : Bits.ofBytes taken' ++ encoder'.writer.bits = Bits.ofBytes taken ++ encoder.writer.bits

/-- Fresh encoders, before any output. -/
theorem EncodersAlike.init {staleBytes staleBytes' : List Byte} (hsize : 0 < staleBytes.length)
    (hsize' : 0 < staleBytes'.length) :
    EncodersAlike [] [] (acodEncoderInit (writerInit staleBytes)) (acodEncoderInit (writerInit staleBytes')) := by
  refine ⟨rfl, rfl, .init hsize, .init hsize', ?_⟩
  show Bits.ofBytes [] ++ (writerInit staleBytes').bits = Bits.ofBytes [] ++ (writerInit staleBytes).bits
  rw [writerInit_bits, writerInit_bits]

variable {taken taken' : List Byte} {encoder encoder' : AcodEncoder}

theorem EncodersAlike.writeShiftBit (h : EncodersAlike taken taken' encoder encoder') (bit : Bool) :
    EncodersAlike taken taken' (acodEncoderWriteShiftBit encoder bit) (acodEncoderWriteShiftBit encoder' bit) := by
  obtain ⟨hok, hbits⟩ := acodEncoderWriteShiftBit_spec h.ok bit
  obtain ⟨hok', hbits'⟩ := acodEncoderWriteShiftBit_spec h.ok' bit
  refine ⟨h.state, rfl, hok, hok', ?_⟩
  rw [hbits, hbits', h.underflows, ← List.append_assoc, h.bits, List.append_assoc]

theorem EncodersAlike.withState (h : EncodersAlike taken taken' encoder encoder') (state : AcodState) :
    EncodersAlike taken taken' { encoder with state := state } { encoder' with state := state } :=
  ⟨rfl, h.underflows, h.ok, h.ok', h.bits⟩

theorem EncodersAlike.shiftLoop (h : EncodersAlike taken taken' encoder encoder') (turns : Nat) :
    EncodersAlike taken taken' (acodEncoderShiftLoop turns encoder) (acodEncoderShiftLoop turns encoder') := by
  induction turns generalizing encoder encoder' with
  | zero => exact h
  | succ turns ih =>
    rw [acodEncoderShiftLoop, acodEncoderShiftLoop, h.state]
    split
    · exact ih ((h.writeShiftBit _).withState _)
    · exact h

theorem EncodersAlike.underflowLoop (h : EncodersAlike taken taken' encoder encoder') (turns : Nat) :
    EncodersAlike taken taken' (acodEncoderUnderflowLoop turns encoder) (acodEncoderUnderflowLoop turns encoder') := by
  induction turns generalizing encoder encoder' with
  | zero => exact h
  | succ turns ih =>
    rw [acodEncoderUnderflowLoop, acodEncoderUnderflowLoop, h.state, h.underflows]
    split
    · exact ih ⟨rfl, rfl, h.ok, h.ok', h.bits⟩
    · exact h

/-- **One symbol** on both, in any state. -/
theorem EncodersAlike.write (h : EncodersAlike taken taken' encoder encoder') (table : Ftable) (symbol : Symbol) :
    EncodersAlike taken taken' (acodEncoderWrite encoder table symbol) (acodEncoderWrite encoder' table symbol) := by
  rw [acodEncoderWrite, acodEncoderWrite, h.state]
  exact ((h.withState _).shiftLoop 32).underflowLoop 32

/-- **Any input** on both. -/
theorem EncodersAlike.encodeAll (h : EncodersAlike taken taken' encoder encoder') (input : List (Ftable × Symbol)) :
    EncodersAlike taken taken' (acodEncodeAll encoder input) (acodEncodeAll encoder' input) := by
  induction input generalizing encoder encoder' with
  | nil => exact h
  | cons pair input ih => exact ih (h.write pair.1 pair.2)

/-- Output taken from one of them. -/
theorem EncodersAlike.takes (h : EncodersAlike taken taken' encoder encoder') {op : WriterOp} {size : Nat}
    (hsize : 0 < size) (hbits : op.bits = []) (hlegal : op.Legal size 0) :
    ∃ consumed w, writerApply encoder'.writer op = some (consumed, w) ∧
      EncodersAlike taken (taken' ++ consumed) encoder { encoder' with writer := w } := by
  obtain ⟨consumed, w, happly, hok, hall⟩ := writerApply_takes h.ok' hsize hbits hlegal
  refine ⟨consumed, w, happly, h.state, h.underflows, h.ok, hok, ?_⟩
  rw [Bits.ofBytes_append, List.append_assoc, hall]
  exact h.bits

/-- Whole bytes from the same bits: the zeroes that fill the last byte are
fewer than eight. -/
theorem Bits.ofBytes_padded {bytes bytes' : List Byte} {bits : List Bool} {padding padding' : Nat}
    (h : Bits.ofBytes bytes = bits ++ List.replicate padding false)
    (h' : Bits.ofBytes bytes' = bits ++ List.replicate padding' false) (hpadding : padding < 8) (hpadding' : padding' < 8) :
    bytes = bytes' := by
  have hlen := congrArg List.length h
  have hlen' := congrArg List.length h'
  rw [Bits.ofBytes_length, List.length_append, List.length_replicate] at hlen hlen'
  have hsame : padding = padding' := by omega
  refine Bits.ofBytes_injective ?_
  rw [h, h', hsame]

theorem EncodersAlike.finalize (h : EncodersAlike taken taken' encoder encoder') :
    EncodersAlike taken taken' (acodEncoderFinalize encoder) (acodEncoderFinalize encoder') := by
  have howed : EncodersAlike taken taken' { encoder with underflows := encoder.underflows + 1 }
      { encoder' with underflows := encoder'.underflows + 1 } :=
    ⟨h.state, congrArg Nat.succ h.underflows, h.ok, h.ok', h.bits⟩
  have hbit : (if encoder'.state.low < ACOD_QUARTER_RANGE then false else true) =
      (if encoder.state.low < ACOD_QUARTER_RANGE then false else true) := by rw [h.state]
  unfold acodEncoderFinalize
  dsimp only
  rw [hbit]
  exact howed.writeShiftBit _

/-- **At the end** the output of both is the same, however much of it has
been taken before. -/
theorem EncodersAlike.finish (h : EncodersAlike taken taken' encoder encoder') {context : Context}
    (hcontext : contextIsErrored context = false) :
    ∃ rest rest',
      (writerConsumeAllBuffers context (acodEncoderDeinit encoder)).1 = { isError := false, buffer := bufferMake rest } ∧
      (writerConsumeAllBuffers context (acodEncoderDeinit encoder')).1 = { isError := false, buffer := bufferMake rest' } ∧
      taken' ++ rest' = taken ++ rest := by
  have hlast := h.finalize
  obtain ⟨rest, padding, w, hconsume, hbytes, hpadding, -⟩ := writerConsumeAllBuffers_spec hlast.ok hcontext
  obtain ⟨rest', padding', w', hconsume', hbytes', hpadding', -⟩ := writerConsumeAllBuffers_spec hlast.ok' hcontext
  refine ⟨rest, rest', congrArg Prod.fst hconsume, congrArg Prod.fst hconsume', ?_⟩
  have hall' : Bits.ofBytes (taken' ++ rest') =
      Bits.ofBytes taken ++ (acodEncoderFinalize encoder).writer.bits ++ List.replicate padding' false := by
    rw [Bits.ofBytes_append, hbytes', ← List.append_assoc]
    exact congrArg (· ++ _) hlast.bits
  have hall : Bits.ofBytes (taken ++ rest) =
      Bits.ofBytes taken ++ (acodEncoderFinalize encoder).writer.bits ++ List.replicate padding false := by
    rw [Bits.ofBytes_append, hbytes, ← List.append_assoc]
  exact Bits.ofBytes_padded hall' hall hpadding' hpadding

end Scomp
