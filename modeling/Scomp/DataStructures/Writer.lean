/-
The writer (`writer.c`): bits and bytes collected in buffers of a fixed size.

The source keeps one queue whose tail is the buffer being written; the tail
always exists, so it is a field of its own here and the queue holds the full
buffers before it. Allocations succeed. What a fresh allocation holds is not
defined by the source: `staleBytes` is that content, any at all.
-/
import Scomp.DataStructures.Buffer
import Scomp.DataStructures.Queue

namespace Scomp

structure Writer where
  fullBuffers : Queue Buffer
  lastBuffer : Buffer
  bytesStored : Int
  currentBitIndex : Nat
  staleBytes : List Byte
  freeBuffers : Queue Buffer
deriving DecidableEq, Repr

structure BufferOrError where
  isError : Bool
  buffer : Buffer
deriving DecidableEq, Repr

def ERROR_ERROR_BUFFER : BufferOrError := { isError := true, buffer := EMPTY_BUFFER }
def EMPTY_ERROR_BUFFER : BufferOrError := { isError := false, buffer := EMPTY_BUFFER }

/-- The write through `buf.data[index]`. -/
def Buffer.setByte (b : Buffer) (index : Nat) (value : Byte) : Buffer :=
  { data := b.data.set index value, length := b.length,
    length_le := by rw [List.length_set]; exact b.length_le }

/-- The write through `slot->length`; no length passes the allocation. -/
def Buffer.withLength (b : Buffer) (length : Nat) : Buffer :=
  { data := b.data, length := min length b.data.length, length_le := Nat.min_le_right _ _ }

/-- The next buffer to write into, a supplied one if there is one. -/
def writerNextBuffer (w : Writer) : Buffer × Queue Buffer :=
  match w.freeBuffers with
  | b :: rest => (b, rest)
  | [] => ({ data := w.staleBytes, length := 0, length_le := Nat.zero_le _ }, [])

def writerProduceNextBuffer (w : Writer) : Writer :=
  { w with
    currentBitIndex := 0
    fullBuffers := queuePush w.fullBuffers w.lastBuffer
    lastBuffer := (writerNextBuffer w).1
    freeBuffers := (writerNextBuffer w).2 }

def writerEnsureBuffer (w : Writer) : Writer :=
  if w.currentBitIndex / 8 ≥ w.lastBuffer.allocatedLength then
    writerProduceNextBuffer { w with bytesStored := w.bytesStored + w.lastBuffer.allocatedLength }
  else w

def writerGetBytesStored (w : Writer) : Int := w.bytesStored + ((w.currentBitIndex + 7) / 8 : Nat)

/-- `single_buffer_byte_size` is the length of what an allocation hands out. -/
def writerInit (staleBytes : List Byte) : Writer :=
  { fullBuffers := []
    lastBuffer := { data := staleBytes, length := 0, length_le := Nat.zero_le _ }
    bytesStored := 0, currentBitIndex := 0, staleBytes := staleBytes, freeBuffers := [] }

/-- The bit is a boolean, as the source asserts. -/
def writerWriteBit (w : Writer) (bit : Bool) : Writer :=
  let w := writerEnsureBuffer w
  let b := w.lastBuffer.data.getD (w.currentBitIndex / 8) 0
  let b := if w.currentBitIndex % 8 = 0 then 0 else b
  let b := b ||| (bit.toUInt8 <<< UInt8.ofNat (w.currentBitIndex % 8))
  writerEnsureBuffer { w with
    lastBuffer := w.lastBuffer.setByte (w.currentBitIndex / 8) b
    currentBitIndex := w.currentBitIndex + 1 }

/-- `none`: "Cannot mix bit- and byte-level writes in a single writer instance." -/
def writerWriteByte (w : Writer) (value : Byte) : Option Writer :=
  if w.currentBitIndex % 8 = 0 then
    let w := writerEnsureBuffer w
    some (writerEnsureBuffer { w with
      lastBuffer := w.lastBuffer.setByte (w.currentBitIndex / 8) value
      currentBitIndex := w.currentBitIndex + 8 })
  else none

/-- `none`: "Writer only accepts non-zero-length buffers". -/
def writerSupplyBuffer (w : Writer) (b : Buffer) : Option Writer :=
  if b.allocatedLength > 0 then some { w with freeBuffers := queuePush w.freeBuffers b } else none

/-- The oldest full buffer, or a buffer of length zero. -/
def writerConsumeFullBuffer (w : Writer) : Buffer × Writer :=
  match w.fullBuffers with
  | [] => (EMPTY_BUFFER, w)
  | slot :: rest =>
    (slot.withLength slot.allocatedLength,
      { w with fullBuffers := rest, bytesStored := w.bytesStored - slot.allocatedLength })

/-- The oldest buffer with bytes in it, the last one included. -/
def writerConsumeNonemptyBuffer (context : Context) (w : Writer) : BufferOrError × Writer :=
  if contextIsErrored context then (ERROR_ERROR_BUFFER, w)
  else
    let (fullBuffer, w) := writerConsumeFullBuffer w
    if fullBuffer.length > 0 then ({ isError := false, buffer := fullBuffer }, w)
    else if w.currentBitIndex = 0 then (EMPTY_ERROR_BUFFER, w)
    else
      let bitIndex := w.currentBitIndex
      let w := writerProduceNextBuffer w
      match w.fullBuffers with
      | [] => (ERROR_ERROR_BUFFER, w)
      | slot :: rest =>
        ({ isError := false, buffer := slot.withLength ((bitIndex + 7) / 8) }, { w with fullBuffers := rest })

/-- `memcpy` into an array at an index. -/
def memcpyAt (bytes : List Byte) (index : Nat) (source : List Byte) : List Byte :=
  bytes.take index ++ source ++ bytes.drop (index + source.length)

/-- The loop that copies the full buffers; each turn takes one off, so their
number bounds the turns. -/
def writerCopyFullBuffers : Nat → Writer → List Byte → Nat → List Byte × Nat × Writer
  | 0, w, bytes, index => (bytes, index, w)
  | fuel + 1, w, bytes, index =>
    let (fullBuffer, w) := writerConsumeFullBuffer w
    if fullBuffer.length = 0 then (bytes, index, w)
    else writerCopyFullBuffers fuel w (memcpyAt bytes index fullBuffer.bytes) (index + fullBuffer.length)

/-- One array with all the bytes, which are consumed. -/
def writerConsumeAllBuffers (context : Context) (w : Writer) : BufferOrError × Writer :=
  let length := (writerGetBytesStored w).toNat
  let (bytes, index, w) := writerCopyFullBuffers (w.fullBuffers.length + 1) w (List.replicate length 0) 0
  let (lastBuffer, w) := writerConsumeNonemptyBuffer context w
  if lastBuffer.isError then (lastBuffer, w)
  else
    let bytes := if lastBuffer.buffer.length > 0 then memcpyAt bytes index lastBuffer.buffer.bytes else bytes
    ({ isError := false, buffer := bufferMake bytes }, w)

end Scomp
