/-
Sessions with a compressor or a decompressor: input that arrives in buffers,
output that is taken while there is more to come.

The bytes taken out of a writer in between change nothing but where they are.
-/
import Scomp.DataStructures.WriterRun
import Scomp.DataStructures.ReaderRun
import Scomp.DataStructures.ReaderBytes

namespace Scomp

/-- What a caller does, in any order; the operations on the output write
nothing. -/
inductive StreamOp
  | pushBuffer (b : Buffer)
  | recoverExhaustedBuffer
  | output (op : WriterOp)
  | processNextToken
deriving DecidableEq, Repr

/-- `size` is that of an allocated output buffer. -/
def StreamOp.Legal (size : Nat) : StreamOp → Prop
  | .pushBuffer b => 0 < b.length
  | .output op => op.bits = [] ∧ op.Legal size 0
  | _ => True

/-- The bytes that a session pushes. -/
def streamInput : List StreamOp → List Byte
  | [] => []
  | .pushBuffer b :: ops => b.bytes ++ streamInput ops
  | _ :: ops => streamInput ops

/-- A reader without the buffers that are exhausted. -/
def readerRecoverAny (r : Reader) : Option Reader :=
  if readerHasExhaustedBuffer r then do return (← readerRecoverExhaustedBuffer r).2 else some r

theorem readerRecoverAny_spec {r : Reader} (h : ReaderOK r) :
    ∃ r', readerRecoverAny r = some r' ∧ ReaderOK r' ∧ r'.unread = r.unread ∧ r'.context = r.context := by
  unfold readerRecoverAny
  split
  · next hexhausted =>
    obtain ⟨b, r', hrecover⟩ := readerRecover_of_exhausted h hexhausted
    obtain ⟨hok, hunread, -, hcontext⟩ := readerRecover_spec h hrecover
    exact ⟨r', by rw [hrecover]; rfl, hok, hunread, hcontext⟩
  · exact ⟨r, rfl, h, rfl, rfl⟩

/-- The same where the reader stands at a byte. -/
theorem Reader.AtByte.recoverAny {r : Reader} (h : r.AtByte) :
    ∃ r', readerRecoverAny r = some r' ∧ r'.AtByte ∧ r'.unreadBytes = r.unreadBytes ∧ r'.context = r.context := by
  unfold readerRecoverAny
  split
  · next hexhausted =>
    obtain ⟨b, r', hrecover, hat, hbytes⟩ := h.recover hexhausted
    obtain ⟨-, -, -, hcontext⟩ := readerRecover_spec h.ok hrecover
    exact ⟨r', by rw [hrecover]; rfl, hat, hbytes, hcontext⟩
  · exact ⟨r, rfl, h, rfl, rfl⟩

/-- A reader with any bytes at hand. -/
theorem exists_reader (context : Context) (bytes : List Byte) :
    ∃ r : Reader, r.AtByte ∧ r.unreadBytes = bytes ∧ r.context = context := by
  rcases List.eq_nil_or_concat bytes with rfl | ⟨front, b, rfl⟩
  · exact ⟨readerInit context, .init context, readerInit_unreadBytes context, rfl⟩
  · have hpos : 0 < (bufferMake (front.concat b)).length := List.length_pos_iff.mpr (by simp)
    obtain ⟨r, hpush, hat, hbytes, -⟩ := (Reader.AtByte.init context).push hpos
    rw [readerInit_unreadBytes, List.nil_append, bufferMake_bytes] at hbytes
    refine ⟨r, hat, hbytes, ?_⟩
    rw [readerPushBuffer, if_pos hpos] at hpush
    cases hpush
    rfl

/-- Taking output leaves the rest of the bytes. -/
theorem WriterAtByte.takes {w : Writer} {op : WriterOp} {size : Nat} (h : WriterAtByte w) (hsize : 0 < size)
    (hbits : op.bits = []) (hlegal : op.Legal size 0) :
    ∃ taken w', writerApply w op = some (taken, w') ∧ WriterAtByte w' ∧ taken ++ w'.bytes = w.bytes := by
  obtain ⟨taken, w', happly, hok, hall⟩ := writerApply_takes h.ok hsize hbits hlegal
  have haligned : w'.currentBitIndex % 8 = 0 := by
    have hlen := congrArg List.length hall
    rw [List.length_append, Bits.ofBytes_length, Writer.bits_length hok.toWriterReady,
      Writer.bits_length h.ok.toWriterReady] at hlen
    have hbefore := h.aligned
    omega
  refine ⟨taken, w', happly, ⟨hok, haligned⟩, Bits.ofBytes_injective ?_⟩
  rw [Bits.ofBytes_append, ← Writer.bits_eq_ofBytes haligned, hall, Writer.bits_eq_ofBytes h.aligned]

end Scomp
