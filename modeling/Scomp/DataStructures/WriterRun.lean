/-
Whole runs of writer operations: what is consumed, then what is still
stored, are the bits written.
-/
import Scomp.DataStructures.WriterFacts

namespace Scomp

/-- The calls on a writer. `allocationsHold` is none of them: it is the
environment, which decides what the next allocations contain. -/
inductive WriterOp
  | writeBit (bit : Bool)
  | writeByte (value : Byte)
  | consumeFullBuffer
  | supplyBuffer (b : Buffer)
  | allocationsHold (staleBytes : List Byte)
deriving DecidableEq, Repr

/-- One operation: the bytes it consumed, and the writer after it. -/
def writerApply (w : Writer) : WriterOp → Option (List Byte × Writer)
  | .writeBit bit => some ([], writerWriteBit w bit)
  | .writeByte value => do return ([], ← writerWriteByte w value)
  | .consumeFullBuffer =>
    let (b, w) := writerConsumeFullBuffer w
    some (b.bytes, w)
  | .supplyBuffer b => do return ([], ← writerSupplyBuffer w b)
  | .allocationsHold staleBytes => some ([], { w with staleBytes := staleBytes })

def writerRun : Writer → List WriterOp → Option (List Byte × Writer)
  | w, [] => some ([], w)
  | w, op :: ops => do
    let (consumed, w) ← writerApply w op
    let (rest, w) ← writerRun w ops
    return (consumed ++ rest, w)

def WriterOp.bits : WriterOp → List Bool
  | .writeBit bit => [bit]
  | .writeByte value => Bits.ofByte value
  | _ => []

/-- The bits written by the operations. -/
def writtenBits (ops : List WriterOp) : List Bool := ops.flatMap WriterOp.bits

/-- What an operation asks of its caller, after some number of bits: bytes on
byte boundaries, supplied buffers with room. Allocations are of one size. -/
def WriterOp.Legal (size written : Nat) : WriterOp → Prop
  | .writeByte _ => written % 8 = 0
  | .supplyBuffer b => 0 < b.allocatedLength
  | .allocationsHold staleBytes => staleBytes.length = size
  | _ => True

def WriterCalls (size : Nat) : Nat → List WriterOp → Prop
  | _, [] => True
  | written, op :: ops => op.Legal size written ∧ WriterCalls size (written + op.bits.length) ops

theorem WriterCalls.before {size written : Nat} {before after : List WriterOp}
    (h : WriterCalls size written (before ++ after)) : WriterCalls size written before := by
  induction before generalizing written with
  | nil => trivial
  | cons op before ih => exact ⟨h.1, ih h.2⟩

theorem WriterCalls.after {size written : Nat} {before after : List WriterOp}
    (h : WriterCalls size written (before ++ after)) :
    WriterCalls size (written + (writtenBits before).length) after := by
  induction before generalizing written with
  | nil => exact h
  | cons op before ih =>
    rw [writtenBits, List.flatMap_cons, List.length_append, ← Nat.add_assoc]
    exact ih h.2

/-! ## One operation -/

/-- A consumed full buffer is the first of the stored bytes. -/
theorem writerConsumeFullBuffer_spec {w : Writer} (h : WriterOK w) :
    WriterOK (writerConsumeFullBuffer w).2 ∧
      Bits.ofBytes (writerConsumeFullBuffer w).1.bytes ++ (writerConsumeFullBuffer w).2.bits = w.bits := by
  obtain ⟨full, last, stored, index, stale, free⟩ := w
  cases full with
  | nil => exact ⟨h, rfl⟩
  | cons slot rest =>
    have hstored := h.stored
    simp only [List.map_cons, List.sum_cons] at hstored
    refine ⟨⟨⟨fun b hb => h.full b (List.mem_cons_of_mem _ hb), h.free, h.stale, h.last, ?_, h.index_le,
      h.partialByte⟩, h.index_lt⟩, ?_⟩
    · simp only [writerConsumeFullBuffer]
      omega
    · simp [writerConsumeFullBuffer, Writer.bits, Buffer.bytes, Buffer.withLength, Buffer.allocatedLength]

theorem writerSupplyBuffer_spec {w : Writer} {b : Buffer} (h : WriterOK w) (hb : 0 < b.allocatedLength) :
    ∃ w', writerSupplyBuffer w b = some w' ∧ WriterOK w' ∧ w'.bits = w.bits := by
  refine ⟨_, if_pos hb, ⟨⟨h.full, fun c hc => ?_, h.stale, h.last, h.stored, h.index_le, h.partialByte⟩,
    h.index_lt⟩, rfl⟩
  rcases List.mem_append.mp hc with hc | hc
  · exact h.free c hc
  · rw [List.mem_singleton.mp hc]
    exact hb

/-- **An operation appends its bits and takes what it consumes off the
front.** -/
theorem writerApply_spec {w : Writer} {op : WriterOp} {size : Nat} (h : WriterOK w) (hsize : 0 < size)
    (hop : op.Legal size w.bits.length) :
    ∃ consumed w', writerApply w op = some (consumed, w') ∧ WriterOK w' ∧
      Bits.ofBytes consumed ++ w'.bits = w.bits ++ op.bits := by
  cases op with
  | writeBit bit =>
    obtain ⟨hok, hbits⟩ := @writerWriteBit_spec w bit h
    exact ⟨_, _, rfl, hok, hbits⟩
  | writeByte value =>
    have haligned : w.currentBitIndex % 8 = 0 := by
      have hop : w.bits.length % 8 = 0 := hop
      rw [Writer.bits_length h.toWriterReady] at hop
      omega
    obtain ⟨w', hw, hok, hbits⟩ := @writerWriteByte_spec w value h haligned
    exact ⟨[], w', by simp [writerApply, hw], hok, hbits⟩
  | consumeFullBuffer =>
    obtain ⟨hok, hbits⟩ := writerConsumeFullBuffer_spec h
    exact ⟨_, _, rfl, hok, hbits.trans (List.append_nil _).symm⟩
  | supplyBuffer b =>
    obtain ⟨w', hw, hok, hbits⟩ := writerSupplyBuffer_spec h hop
    exact ⟨[], w', by simp [writerApply, hw], hok, by simp [hbits, WriterOp.bits]⟩
  | allocationsHold staleBytes =>
    have hstale : 0 < staleBytes.length := by
      rw [show staleBytes.length = size from hop]
      exact hsize
    exact ⟨[], _, rfl, ⟨⟨h.full, h.free, hstale, h.last, h.stored, h.index_le, h.partialByte⟩, h.index_lt⟩,
      (List.append_nil _).symm⟩

/-- **Taking output** leaves the rest of the bits. -/
theorem writerApply_takes {w : Writer} {op : WriterOp} {size : Nat} (h : WriterOK w) (hsize : 0 < size)
    (hbits : op.bits = []) (hlegal : op.Legal size 0) :
    ∃ taken w', writerApply w op = some (taken, w') ∧ WriterOK w' ∧ Bits.ofBytes taken ++ w'.bits = w.bits := by
  have hanywhere : op.Legal size w.bits.length := by
    cases op with
    | writeByte value => exact absurd hbits (List.cons_ne_nil _ _)
    | writeBit bit => exact absurd hbits (List.cons_ne_nil _ _)
    | consumeFullBuffer | supplyBuffer | allocationsHold => exact hlegal
  obtain ⟨taken, w', happly, hok, hall⟩ := writerApply_spec h hsize hanywhere
  exact ⟨taken, w', happly, hok, by rw [hall, hbits, List.append_nil]⟩

/-- The stored bytes are those the stored bits need. -/
theorem writerGetBytesStored_eq {w : Writer} (h : WriterReady w) :
    writerGetBytesStored w = ((w.bits.length + 7) / 8 : Nat) := by
  have hsum : (w.fullBuffers.flatMap Buffer.data).length = (w.fullBuffers.map Buffer.allocatedLength).sum := by
    rw [List.length_flatMap]
    rfl
  rw [writerGetBytesStored, Writer.bits_length h, h.stored, hsum]
  omega

/-! ## Whole runs -/

theorem writerRun_spec {w : Writer} {ops : List WriterOp} {size written : Nat} (h : WriterOK w) (hsize : 0 < size)
    (hwritten : w.bits.length % 8 = written % 8) (hops : WriterCalls size written ops) :
    ∃ consumed w', writerRun w ops = some (consumed, w') ∧ WriterOK w' ∧
      Bits.ofBytes consumed ++ w'.bits = w.bits ++ writtenBits ops := by
  induction ops generalizing w written with
  | nil => exact ⟨[], w, rfl, h, by simp [writtenBits]⟩
  | cons op ops ih =>
    obtain ⟨hop, hrest⟩ := hops
    have hlegal : op.Legal size w.bits.length := by
      cases op with
      | writeByte value => exact hwritten.trans hop
      | writeBit | consumeFullBuffer | supplyBuffer | allocationsHold => exact hop
    obtain ⟨consumed, w₁, hw, hok, hbits⟩ := writerApply_spec h hsize hlegal
    have hlen := congrArg List.length hbits
    simp only [List.length_append, Bits.ofBytes_length] at hlen
    obtain ⟨consumed', w', hrun, hok', hbits'⟩ := ih hok (by omega) hrest
    refine ⟨consumed ++ consumed', w', by simp [writerRun, hw, hrun], hok', ?_⟩
    rw [Bits.ofBytes_append, List.append_assoc, hbits', ← List.append_assoc, hbits, List.append_assoc]
    rfl

/-- **The writer is a faithful bit stream.** After every call the bits not yet
consumed are counted exactly, and all the consumed bytes together are the
written bits, zeroes filling the last byte. -/
theorem writer_faithful (context : Context) (staleBytes : List Byte) (ops : List WriterOp)
    (hcontext : contextIsErrored context = false) (hsize : 0 < staleBytes.length)
    (hops : WriterCalls staleBytes.length 0 ops) :
    (∀ before after, ops = before ++ after → ∃ consumed w unconsumed,
        writerRun (writerInit staleBytes) before = some (consumed, w) ∧
          Bits.ofBytes consumed ++ unconsumed = writtenBits before ∧
          writerGetBytesStored w = ((unconsumed.length + 7) / 8 : Nat)) ∧
      ∃ consumed w buffer w' padding, writerRun (writerInit staleBytes) ops = some (consumed, w) ∧
        writerConsumeAllBuffers context w = ({ isError := false, buffer := buffer }, w') ∧
        Bits.ofBytes (consumed ++ buffer.bytes) = writtenBits ops ++ List.replicate padding false ∧ padding < 8 ∧
        writerGetBytesStored w' = 0 := by
  constructor
  · rintro before after rfl
    obtain ⟨consumed, w, hrun, hok, hbits⟩ := writerRun_spec (.init hsize) hsize (by simp) hops.before
    rw [writerInit_bits, List.nil_append] at hbits
    exact ⟨consumed, w, w.bits, hrun, hbits, writerGetBytesStored_eq hok.toWriterReady⟩
  · obtain ⟨consumed, w, hrun, hok, hbits⟩ := writerRun_spec (.init hsize) hsize (by simp) hops
    rw [writerInit_bits, List.nil_append] at hbits
    obtain ⟨bytes, padding, w', hall, hbytes, hpadding, hstored⟩ := writerConsumeAllBuffers_spec hok hcontext
    refine ⟨consumed, w, bufferMake bytes, w', padding, hrun, hall, ?_, hpadding, hstored⟩
    rw [bufferMake_bytes, Bits.ofBytes_append, hbytes, ← List.append_assoc, hbits]

/-- A supplied buffer with stale bytes, consumed before the last write. -/
def suppliedCalls : List WriterOp :=
  [.supplyBuffer (bufferMake [1, 2, 3]), .writeByte 0xa5, .writeBit true, .consumeFullBuffer, .allocationsHold [0x5a],
    .writeBit true]

theorem writer_faithful_supplied :
    ∃ consumed w buffer w' padding, writerRun (writerInit [0xff]) suppliedCalls = some (consumed, w) ∧
      writerConsumeAllBuffers contextInit w = ({ isError := false, buffer := buffer }, w') ∧
      Bits.ofBytes (consumed ++ buffer.bytes) =
        Bits.ofByte 0xa5 ++ [true, true] ++ List.replicate padding false ∧ padding < 8 ∧
      writerGetBytesStored w' = 0 :=
  (writer_faithful contextInit [0xff] suppliedCalls rfl (by decide)
    ⟨(by decide : 0 < 3), (rfl : 0 % 8 = 0), trivial, trivial, (rfl : 1 = 1), trivial, trivial⟩).2

end Scomp
