/-
The reader (`reader.c`): a queue of buffers read byte by byte or bit by bit.

The queue keeps the exhausted buffers until they are recovered; the buffer
being read is a copy of the one at index `exhaustedBuffersCount`. The reader
owns the part of the context it touches, the error.
-/
import Scomp.DataStructures.Buffer
import Scomp.DataStructures.Queue

namespace Scomp

/-- "safe" amount of data: no single token needs more. -/
def READER_SAFE_SIZE : Int := 512

structure Reader where
  buffers : Queue Buffer
  currentBuffer : Buffer
  exhaustedBuffersCount : Nat
  /-- Index of the first not consumed bit in `currentBuffer`. -/
  bitPointer : Nat
  unconsumedBufferBytesCount : Int
  context : Context
  isAtInitialBuffer : Bool
deriving DecidableEq, Repr

structure ReaderSnapshot where
  exhaustedBuffersCount : Int
  bitPointer : Nat
deriving DecidableEq, Repr

def readerInit (context : Context) : Reader :=
  { buffers := [], currentBuffer := EMPTY_BUFFER, exhaustedBuffersCount := 0, bitPointer := 0,
    unconsumedBufferBytesCount := 0, context := context, isAtInitialBuffer := true }

def readerGetBitsAvailable (r : Reader) : Int := r.unconsumedBufferBytesCount * 8 - r.bitPointer

/-- `none`: "Cannot mix bitwise and byte-wise read modes". -/
def readerGetBytesAvailable (r : Reader) : Option Int :=
  if r.bitPointer % 8 = 0 then some (r.unconsumedBufferBytesCount - (r.bitPointer / 8 : Nat)) else none

def readerHasSafeAmountOfData (r : Reader) : Option Bool := do
  return READER_SAFE_SIZE ≤ (← readerGetBytesAvailable r)

/-- `none`: "Reader only accepts buffers with data". -/
def readerPushBuffer (r : Reader) (b : Buffer) : Option Reader :=
  if b.length > 0 then
    some { r with buffers := queuePush r.buffers b
                  unconsumedBufferBytesCount := r.unconsumedBufferBytesCount + b.length }
  else none

def readerHasExhaustedBuffer (r : Reader) : Bool := r.exhaustedBuffersCount > 0

def readerRecoverExhaustedBuffer (r : Reader) : Option (Buffer × Reader) :=
  if readerHasExhaustedBuffer r then do
    let (b, buffers) ← queuePop r.buffers
    return (b, { r with buffers := buffers, exhaustedBuffersCount := r.exhaustedBuffersCount - 1 })
  else none

def readerSetUnderflowError (r : Reader) : Reader :=
  { r with context := contextSetError r.context "Reader underflow" }

def readerGetNextBuffer (r : Reader) : Option (Bool × Reader) :=
  let totalBufferCount : Int := queueGetCount r.buffers + (if r.isAtInitialBuffer then 1 else 0)
  if totalBufferCount - 1 = r.exhaustedBuffersCount then
    some (false, readerSetUnderflowError r)
  else do
    let exhausted := r.exhaustedBuffersCount + (if r.isAtInitialBuffer then 0 else 1)
    let slot ← queuePeekAt r.buffers exhausted
    return (true, { r with
      exhaustedBuffersCount := exhausted
      unconsumedBufferBytesCount := r.unconsumedBufferBytesCount - r.currentBuffer.length
      currentBuffer := slot
      isAtInitialBuffer := false
      bitPointer := 0 })

def readerEnsureBuffer (r : Reader) : Option (Bool × Reader) :=
  if r.currentBuffer.length ≤ r.bitPointer / 8 then readerGetNextBuffer r else some (true, r)

def readerPeekByte (r : Reader) : Option (Byte × Reader) :=
  if r.bitPointer % 8 = 0 then do
    let (isEnsured, r) ← readerEnsureBuffer r
    if isEnsured then return (← r.currentBuffer.bytes[r.bitPointer / 8]?, r) else return (0, r)
  else none

def readerReadByte (r : Reader) : Option (Byte × Reader) := do
  let (result, r) ← readerPeekByte r
  return (result, { r with bitPointer := r.bitPointer + 8 })

def readerReadBit (r : Reader) : Option (Byte × Reader) := do
  let (isEnsured, r) ← if r.bitPointer % 8 = 0 then readerEnsureBuffer r else some (true, r)
  if isEnsured then
    let b ← r.currentBuffer.bytes[r.bitPointer / 8]?
    let bit := (b >>> UInt8.ofNat (r.bitPointer % 8)) &&& 1
    return (bit, { r with bitPointer := r.bitPointer + 1 })
  else return (0, r)

def readerTakeSnapshot (r : Reader) : ReaderSnapshot :=
  { bitPointer := r.bitPointer
    exhaustedBuffersCount := if r.isAtInitialBuffer then -1 else r.exhaustedBuffersCount }

/-- The loop that adds the crossed buffers' lengths back, over the indices
`i, .., i + count - 1`. -/
def readerAddTailLengths (buffers : Queue Buffer) (i : Nat) : Nat → Int → Option Int
  | 0, bytes => some bytes
  | count + 1, bytes => do
    let slot ← queuePeekTailAt buffers i
    readerAddTailLengths buffers (i + 1) count (bytes + slot.length)

def readerRestoreSnapshot (r : Reader) (snapshot : ReaderSnapshot) : Option Reader :=
  let r := { r with bitPointer := snapshot.bitPointer }
  if (r.exhaustedBuffersCount : Int) = snapshot.exhaustedBuffersCount then
    some r
  else if snapshot.exhaustedBuffersCount = -1 then
    some { r with isAtInitialBuffer := true, currentBuffer := EMPTY_BUFFER, exhaustedBuffersCount := 0 }
  else if r.exhaustedBuffersCount > snapshot.exhaustedBuffersCount then do
    let start := snapshot.exhaustedBuffersCount.toNat
    let slot ← queuePeekTailAt r.buffers r.exhaustedBuffersCount
    let unconsumed ← readerAddTailLengths r.buffers start (r.exhaustedBuffersCount - start)
      r.unconsumedBufferBytesCount
    return { r with
      currentBuffer := slot
      unconsumedBufferBytesCount := unconsumed
      exhaustedBuffersCount := start }
  else none

end Scomp
