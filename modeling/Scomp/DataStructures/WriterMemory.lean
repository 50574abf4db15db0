/-
The writer (`writer.c`) with the memory it asks for: its two queues are
cyclic arrays, and any allocation may fail.

A failed allocation sets the context's error, and the writer goes on in the
buffer it has. `HeapWriter.Stands` relates it to the `Writer` whose
allocations succeed: what it does is what that one does, up to the first
failure; after it, it still stays within its buffers.
-/
import Scomp.DataStructures.QueueArray
import Scomp.DataStructures.WriterRun

namespace Scomp

/-! ## Memory -/

/-- What the allocator answers to each request in turn: no memory, or as much
as was asked for, whatever it holds. -/
structure Malloc where
  bytes : Nat → Nat → Option (List Byte)
  slots : Nat → Option (Nat → Buffer)
  bytes_length : ∀ {request byteSize data}, bytes request byteSize = some data → data.length = byteSize

/-- The context and the number of requests so far. -/
structure Heap where
  context : Context
  requests : Nat

def SIZEOF_BUFFER : Nat := 24

def contextSetErrorOnMalloc (heap : Heap) (byteSize : Nat) : Heap :=
  { heap with context := contextSetError heap.context s!"Failed to allocate memory: malloc({byteSize})" }

def contextAllocate (malloc : Malloc) (heap : Heap) (byteSize : Nat) : Option (List Byte) × Heap :=
  let requested := { heap with requests := heap.requests + 1 }
  match malloc.bytes heap.requests byteSize with
  | some bytes => (some bytes, requested)
  | none => (none, contextSetErrorOnMalloc requested byteSize)

/-- `context_allocate` for the values of a queue of buffers. -/
def contextAllocateSlots (malloc : Malloc) (heap : Heap) (elementCount : Nat) : Option (Nat → Buffer) × Heap :=
  let requested := { heap with requests := heap.requests + 1 }
  match malloc.slots heap.requests with
  | some values => (some values, requested)
  | none => (none, contextSetErrorOnMalloc requested (elementCount * SIZEOF_BUFFER))

def heapQueueInit (malloc : Malloc) (heap : Heap) (startingLengthShift : Nat) : Option (QueueArray Buffer) × Heap :=
  let (values, heap) := contextAllocateSlots malloc heap (1 <<< startingLengthShift)
  (queueArrayInit values startingLengthShift, heap)

/-- A push and the write to the slot it returns; `false` for NULL. Only a full
queue asks for memory. -/
def heapQueuePush (malloc : Malloc) (heap : Heap) (q : QueueArray Buffer) (value : Buffer) :
    Option (Bool × QueueArray Buffer × Heap) := do
  let (allocation, heap) :=
    if queueArrayGetCount q < q.length - 1 then (none, heap) else contextAllocateSlots malloc heap (q.length * 2)
  let (slot, q) ← queueArrayPush q allocation
  match slot with
  | some slot => return (true, q.store slot value, heap)
  | none => return (false, q, heap)

/-- The slot of `queue_peek_tail`. -/
def queueArrayTailSlot {α : Type} (q : QueueArray α) : Nat := (q.tail + q.length - 1) &&& q.lengthMask

/-! ## The writer -/

structure HeapWriter where
  heap : Heap
  buffers : QueueArray Buffer
  bytesStored : Int
  currentBitIndex : Nat
  singleBufferByteSize : Nat
  freeBuffers : QueueArray Buffer

/-- A supplied buffer, or a new one; `none` inside: no memory. -/
def heapWriterNextBuffer (malloc : Malloc) (w : HeapWriter) : Option (Option Buffer × HeapWriter) :=
  if queueArrayGetCount w.freeBuffers > 0 then do
    let (existingBuffer, freeBuffers) ← queueArrayPop w.freeBuffers
    return (some existingBuffer, { w with freeBuffers := freeBuffers })
  else
    let (bytes, heap) := contextAllocate malloc w.heap w.singleBufferByteSize
    some (bytes.map fun data => (bufferMake data).withLength 0, { w with heap := heap })

def heapWriterProduceNextBuffer (malloc : Malloc) (w : HeapWriter) : Option (Bool × HeapWriter) := do
  let (result, w) ← heapWriterNextBuffer malloc { w with currentBitIndex := 0 }
  match result with
  | none => return (false, w)
  | some result =>
    -- where the push fails, `result` is freed
    let (isPushed, buffers, heap) ← heapQueuePush malloc w.heap w.buffers result
    return (isPushed, { w with buffers := buffers, heap := heap })

def heapWriterEnsureBuffer (malloc : Malloc) (w : HeapWriter) : Option (Buffer × HeapWriter) := do
  let slot ← queueArrayPeekTailAt w.buffers 0
  if w.currentBitIndex / 8 ≥ slot.allocatedLength then
    let (_, w) ← heapWriterProduceNextBuffer malloc { w with bytesStored := w.bytesStored + slot.allocatedLength }
    return (← queueArrayPeekTailAt w.buffers 0, w)
  else return (slot, w)

/-- NULL where a queue or the first buffer gets no memory. -/
def heapWriterInit (malloc : Malloc) (heap : Heap) (singleBufferByteSize queuesSizeShift : Nat) :
    Option (Option HeapWriter × Heap) :=
  let (buffers, heap) := heapQueueInit malloc heap queuesSizeShift
  match buffers with
  | none => some (none, heap)
  | some buffers =>
    let (freeBuffers, heap) := heapQueueInit malloc heap queuesSizeShift
    match freeBuffers with
    | none => some (none, heap)
    | some freeBuffers => do
      let w : HeapWriter :=
        { heap := heap, buffers := buffers, bytesStored := 0, currentBitIndex := 0
          singleBufferByteSize := singleBufferByteSize, freeBuffers := freeBuffers }
      let (_, w) ← heapWriterProduceNextBuffer malloc w
      if contextIsErrored w.heap.context then return (none, w.heap) else return (some w, w.heap)

/-- The write through `buf.data[index]`; `none`: outside the allocation. -/
def heapWriterSetByte (w : HeapWriter) (buf : Buffer) (index : Nat) (value : Byte) : Option HeapWriter :=
  if index < buf.allocatedLength then
    some { w with buffers := w.buffers.store (queueArrayTailSlot w.buffers) (buf.setByte index value) }
  else none

def heapWriterWriteBit (malloc : Malloc) (w : HeapWriter) (bit : Bool) : Option HeapWriter := do
  let (buf, w) ← heapWriterEnsureBuffer malloc w
  let b ← buf.data[w.currentBitIndex / 8]?
  let b := if w.currentBitIndex % 8 = 0 then 0 else b
  let b := b ||| (bit.toUInt8 <<< UInt8.ofNat (w.currentBitIndex % 8))
  let w ← heapWriterSetByte w buf (w.currentBitIndex / 8) b
  let (_, w) ← heapWriterEnsureBuffer malloc { w with currentBitIndex := w.currentBitIndex + 1 }
  return w

/-- `none` also for: "Cannot mix bit- and byte-level writes in a single writer instance." -/
def heapWriterWriteByte (malloc : Malloc) (w : HeapWriter) (value : Byte) : Option HeapWriter :=
  if w.currentBitIndex % 8 = 0 then do
    let (buf, w) ← heapWriterEnsureBuffer malloc w
    let w ← heapWriterSetByte w buf (w.currentBitIndex / 8) value
    let (_, w) ← heapWriterEnsureBuffer malloc { w with currentBitIndex := w.currentBitIndex + 8 }
    return w
  else none

/-- `none`: "Writer only accepts non-zero-length buffers". -/
def heapWriterSupplyBuffer (malloc : Malloc) (w : HeapWriter) (b : Buffer) : Option (Bool × HeapWriter) :=
  if b.allocatedLength > 0 then do
    let (isPushed, freeBuffers, heap) ← heapQueuePush malloc w.heap w.freeBuffers b
    return (isPushed, { w with freeBuffers := freeBuffers, heap := heap })
  else none

def heapWriterConsumeFullBuffer (w : HeapWriter) : Option (Buffer × HeapWriter) :=
  if queueArrayGetCount w.buffers < 2 then some (EMPTY_BUFFER, w)
  else do
    let (slot, buffers) ← queueArrayPop w.buffers
    let slot := slot.withLength slot.allocatedLength
    return (slot, { w with buffers := buffers, bytesStored := w.bytesStored - slot.length })

def heapWriterConsumeNonemptyBuffer (malloc : Malloc) (w : HeapWriter) : Option (BufferOrError × HeapWriter) :=
  if contextIsErrored w.heap.context then some (ERROR_ERROR_BUFFER, w)
  else do
    let (fullBuffer, w) ← heapWriterConsumeFullBuffer w
    if fullBuffer.length > 0 then return ({ isError := false, buffer := fullBuffer }, w)
    else if w.currentBitIndex = 0 then return (EMPTY_ERROR_BUFFER, w)
    else
      let bitIndex := w.currentBitIndex
      let (isProduced, w) ← heapWriterProduceNextBuffer malloc w
      if isProduced then
        let (slot, buffers) ← queueArrayPop w.buffers
        return ({ isError := false, buffer := slot.withLength ((bitIndex + 7) / 8) }, { w with buffers := buffers })
      else return (ERROR_ERROR_BUFFER, w)

/-- `memcpy` that stays within the array. -/
def memcpyWithin (bytes : List Byte) (index : Nat) (source : List Byte) : Option (List Byte) :=
  if index + source.length ≤ bytes.length then some (memcpyAt bytes index source) else none

/-- The loop over the full buffers; `none` also when the turns run out. -/
def heapWriterCopyFullBuffers : Nat → HeapWriter → List Byte → Nat → Option (List Byte × Nat × HeapWriter)
  | 0, _, _, _ => none
  | fuel + 1, w, bytes, index => do
    let (fullBuffer, w) ← heapWriterConsumeFullBuffer w
    if fullBuffer.length = 0 then return (bytes, index, w)
    else
      let bytes ← memcpyWithin bytes index fullBuffer.bytes
      heapWriterCopyFullBuffers fuel w bytes (index + fullBuffer.length)

def heapWriterGetBytesStored (w : HeapWriter) : Int := w.bytesStored + ((w.currentBitIndex + 7) / 8 : Nat)

def heapWriterConsumeAllBuffers (malloc : Malloc) (w : HeapWriter) : Option (BufferOrError × HeapWriter) :=
  let (bytes, heap) := contextAllocate malloc w.heap (heapWriterGetBytesStored w).toNat
  let w := { w with heap := heap }
  match bytes with
  | none => some (ERROR_ERROR_BUFFER, w)
  | some bytes => do
    let (bytes, index, w) ← heapWriterCopyFullBuffers (queueArrayGetCount w.buffers + 1) w bytes 0
    let (lastBuffer, w) ← heapWriterConsumeNonemptyBuffer malloc w
    if lastBuffer.isError then return (lastBuffer, w)
    else
      let bytes ← (if lastBuffer.buffer.length > 0 then memcpyWithin bytes index lastBuffer.buffer.bytes else some bytes)
      return ({ isError := false, buffer := bufferMake bytes }, w)

/-! ## Runs -/

def heapWriterApply (malloc : Malloc) (w : HeapWriter) : WriterOp → Option (List Byte × HeapWriter)
  | .writeBit bit => do return ([], ← heapWriterWriteBit malloc w bit)
  | .writeByte value => do return ([], ← heapWriterWriteByte malloc w value)
  | .consumeFullBuffer => do
    let (b, w) ← heapWriterConsumeFullBuffer w
    return (b.bytes, w)
  | .supplyBuffer b => do
    let (_, w) ← heapWriterSupplyBuffer malloc w b
    return ([], w)
  -- `malloc` says what they hold
  | .allocationsHold _ => some ([], w)

def heapWriterRun (malloc : Malloc) : HeapWriter → List WriterOp → Option (List Byte × HeapWriter)
  | w, [] => some ([], w)
  | w, op :: ops => do
    let (consumed, w) ← heapWriterApply malloc w op
    let (rest, w) ← heapWriterRun malloc w ops
    return (consumed ++ rest, w)

end Scomp
