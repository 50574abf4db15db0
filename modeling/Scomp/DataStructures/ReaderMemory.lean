/-
The reader (`reader.c`) with the memory it asks for: its queue is a cyclic
array, and any allocation may fail.

A refused buffer stays its owner's; the context gets an error, and the reader
is as it was. `HeapReader.Stands` relates it to the `Reader` over the list of
its buffers.
-/
import Scomp.DataStructures.WriterFailure
import Scomp.DataStructures.ReaderDelivery
import Scomp.DataStructures.ReaderSnapshot
import Scomp.Lib.Simulation

open Simulation

namespace Scomp

def READER_QUEUE_DEFAULT_SHIFT : Nat := 4

structure HeapReader where
  heap : Heap
  buffers : QueueArray Buffer
  currentBuffer : Buffer
  exhaustedBuffersCount : Nat
  bitPointer : Nat
  unconsumedBufferBytesCount : Int
  isAtInitialBuffer : Bool

/-- `none`: no memory for the queue. -/
def heapReaderInit (malloc : Malloc) (heap : Heap) : Option HeapReader × Heap :=
  let (buffers, heap) := heapQueueInit malloc heap READER_QUEUE_DEFAULT_SHIFT
  (buffers.map fun buffers =>
    { heap := heap, buffers := buffers, currentBuffer := EMPTY_BUFFER, exhaustedBuffersCount := 0, bitPointer := 0
      unconsumedBufferBytesCount := 0, isAtInitialBuffer := true }, heap)

def heapReaderGetBitsAvailable (r : HeapReader) : Int := r.unconsumedBufferBytesCount * 8 - r.bitPointer

/-- `none`: "Reader only accepts buffers with data". -/
def heapReaderPushBuffer (malloc : Malloc) (r : HeapReader) (b : Buffer) : Option (Bool × HeapReader) :=
  if b.length > 0 then do
    let (isPushed, buffers, heap) ← heapQueuePush malloc r.heap r.buffers b
    if isPushed then
      return (true, { r with
        heap := heap
        buffers := buffers
        unconsumedBufferBytesCount := r.unconsumedBufferBytesCount + b.length })
    else return (false, { r with heap := heap, buffers := buffers })
  else none

def heapReaderHasExhaustedBuffer (r : HeapReader) : Bool := r.exhaustedBuffersCount > 0

def heapReaderRecoverExhaustedBuffer (r : HeapReader) : Option (Buffer × HeapReader) :=
  if heapReaderHasExhaustedBuffer r then do
    let (b, buffers) ← queueArrayPop r.buffers
    return (b, { r with buffers := buffers, exhaustedBuffersCount := r.exhaustedBuffersCount - 1 })
  else none

def heapReaderSetUnderflowError (r : HeapReader) : HeapReader :=
  { r with heap := { r.heap with context := contextSetError r.heap.context "Reader underflow" } }

def heapReaderGetNextBuffer (r : HeapReader) : Option (Bool × HeapReader) :=
  let totalBufferCount : Int := queueArrayGetCount r.buffers + (if r.isAtInitialBuffer then 1 else 0)
  if totalBufferCount - 1 = r.exhaustedBuffersCount then
    some (false, heapReaderSetUnderflowError r)
  else do
    let exhausted := r.exhaustedBuffersCount + (if r.isAtInitialBuffer then 0 else 1)
    let slot ← queueArrayPeekAt r.buffers exhausted
    return (true, { r with
      exhaustedBuffersCount := exhausted
      unconsumedBufferBytesCount := r.unconsumedBufferBytesCount - r.currentBuffer.length
      currentBuffer := slot
      isAtInitialBuffer := false
      bitPointer := 0 })

def heapReaderEnsureBuffer (r : HeapReader) : Option (Bool × HeapReader) :=
  if r.currentBuffer.length ≤ r.bitPointer / 8 then heapReaderGetNextBuffer r else some (true, r)

def heapReaderPeekByte (r : HeapReader) : Option (Byte × HeapReader) :=
  if r.bitPointer % 8 = 0 then do
    let (isEnsured, r) ← heapReaderEnsureBuffer r
    if isEnsured then return (← r.currentBuffer.bytes[r.bitPointer / 8]?, r) else return (0, r)
  else none

def heapReaderReadByte (r : HeapReader) : Option (Byte × HeapReader) := do
  let (result, r) ← heapReaderPeekByte r
  return (result, { r with bitPointer := r.bitPointer + 8 })

def heapReaderReadBit (r : HeapReader) : Option (Byte × HeapReader) := do
  let (isEnsured, r) ← if r.bitPointer % 8 = 0 then heapReaderEnsureBuffer r else some (true, r)
  if isEnsured then
    let b ← r.currentBuffer.bytes[r.bitPointer / 8]?
    let bit := (b >>> UInt8.ofNat (r.bitPointer % 8)) &&& 1
    return (bit, { r with bitPointer := r.bitPointer + 1 })
  else return (0, r)

def heapReaderTakeSnapshot (r : HeapReader) : ReaderSnapshot :=
  { bitPointer := r.bitPointer
    exhaustedBuffersCount := if r.isAtInitialBuffer then -1 else r.exhaustedBuffersCount }

/-- The loop that adds the crossed buffers' lengths back, over the indices
`i, .., i + count - 1`. -/
def heapReaderAddTailLengths (buffers : QueueArray Buffer) (i : Nat) : Nat → Int → Option Int
  | 0, bytes => some bytes
  | count + 1, bytes => do
    let slot ← queueArrayPeekTailAt buffers i
    heapReaderAddTailLengths buffers (i + 1) count (bytes + slot.length)

def heapReaderRestoreSnapshot (r : HeapReader) (snapshot : ReaderSnapshot) : Option HeapReader :=
  let r := { r with bitPointer := snapshot.bitPointer }
  if (r.exhaustedBuffersCount : Int) = snapshot.exhaustedBuffersCount then
    some r
  else if snapshot.exhaustedBuffersCount = -1 then
    some { r with isAtInitialBuffer := true, currentBuffer := EMPTY_BUFFER, exhaustedBuffersCount := 0 }
  else if r.exhaustedBuffersCount > snapshot.exhaustedBuffersCount then do
    let start := snapshot.exhaustedBuffersCount.toNat
    let slot ← queueArrayPeekTailAt r.buffers r.exhaustedBuffersCount
    let unconsumed ← heapReaderAddTailLengths r.buffers start (r.exhaustedBuffersCount - start)
      r.unconsumedBufferBytesCount
    return { r with
      currentBuffer := slot
      unconsumedBufferBytesCount := unconsumed
      exhaustedBuffersCount := start }
  else none

/-! ## The reader it stands for -/

theorem heapReaderAddTailLengths_eq {array : QueueArray Buffer} {buffers : Queue Buffer} (h : array.Holds buffers)
    (i count : Nat) (bytes : Int) :
    heapReaderAddTailLengths array i count bytes = readerAddTailLengths buffers i count bytes := by
  induction count generalizing i bytes with
  | zero => rfl
  | succ count ih =>
    rw [heapReaderAddTailLengths, readerAddTailLengths, h.peekTailAt]
    cases queuePeekTailAt buffers i with
    | none => rfl
    | some slot => exact ih (i + 1) (bytes + slot.length)

/-- The reader with these buffers in its queue. -/
def HeapReader.over (r : HeapReader) (buffers : Queue Buffer) : Reader :=
  { buffers := buffers, currentBuffer := r.currentBuffer, exhaustedBuffersCount := r.exhaustedBuffersCount
    bitPointer := r.bitPointer, unconsumedBufferBytesCount := r.unconsumedBufferBytesCount
    context := r.heap.context, isAtInitialBuffer := r.isAtInitialBuffer }

inductive HeapReader.Stands (r : HeapReader) : Reader → Prop
  | intro {buffers : Queue Buffer} : r.buffers.Holds buffers → HeapReader.Stands r (r.over buffers)

section

variable {r : HeapReader} {reader : Reader} (h : r.Stands reader)
include h

theorem HeapReader.Stands.context : reader.context = r.heap.context := by
  cases h
  rfl

theorem HeapReader.Stands.bitsAvailable : readerGetBitsAvailable reader = heapReaderGetBitsAvailable r := by
  cases h
  rfl

theorem HeapReader.Stands.hasExhausted : readerHasExhaustedBuffer reader = heapReaderHasExhaustedBuffer r := by
  cases h
  rfl

theorem HeapReader.Stands.recover :
    Answers HeapReader.Stands (heapReaderRecoverExhaustedBuffer r) (readerRecoverExhaustedBuffer reader) := by
  rw [heapReaderRecoverExhaustedBuffer, readerRecoverExhaustedBuffer, h.hasExhausted]
  by_cases hexhausted : heapReaderHasExhaustedBuffer r = true
  · rw [if_pos hexhausted, if_pos hexhausted]
    cases h with
    | @intro buffers hqueue =>
      rcases hqueue.pop with ⟨b, array, rest, hspec, hpop, harray⟩ | ⟨hnil, hpop⟩
      · simp only [HeapReader.over, hspec, hpop, Option.bind_eq_bind, Option.bind_some]
        exact .returns (.intro harray)
      · simp only [HeapReader.over, hnil, hpop, queuePop, Option.bind_eq_bind, Option.bind_none]
        exact .fails
  · rw [if_neg hexhausted, if_neg hexhausted]
    exact .fails

theorem HeapReader.Stands.getNextBuffer :
    Answers HeapReader.Stands (heapReaderGetNextBuffer r) (readerGetNextBuffer reader) := by
  cases h with
  | @intro buffers hqueue =>
    have hspec : readerGetNextBuffer (r.over buffers) =
        if (queueGetCount buffers + (if r.isAtInitialBuffer then 1 else 0) : Int) - 1 = r.exhaustedBuffersCount then
          some (false, readerSetUnderflowError (r.over buffers))
        else (queuePeekAt buffers (r.exhaustedBuffersCount + (if r.isAtInitialBuffer then 0 else 1))).bind fun slot =>
          some (true, (r.over buffers).advanced slot) := rfl
    rw [heapReaderGetNextBuffer, hspec, hqueue.count]
    dsimp only
    rw [hqueue.peekAt]
    by_cases hlast : (queueGetCount buffers + (if r.isAtInitialBuffer then 1 else 0) : Int) - 1 =
        r.exhaustedBuffersCount
    · rw [if_pos hlast, if_pos hlast]
      exact .returns (.intro hqueue)
    · rw [if_neg hlast, if_neg hlast]
      cases queuePeekAt buffers (r.exhaustedBuffersCount + if r.isAtInitialBuffer then 0 else 1) with
      | none => exact .fails
      | some slot => exact .returns (.intro hqueue)

theorem HeapReader.Stands.ensureBuffer :
    Answers HeapReader.Stands (heapReaderEnsureBuffer r) (readerEnsureBuffer reader) := by
  have hnext := h.getNextBuffer
  cases h with
  | @intro buffers hqueue =>
    rw [heapReaderEnsureBuffer, readerEnsureBuffer]
    by_cases hend : r.currentBuffer.length ≤ r.bitPointer / 8
    · rw [if_pos hend, if_pos (show (r.over buffers).currentBuffer.length ≤ (r.over buffers).bitPointer / 8 from hend)]
      exact hnext
    · rw [if_neg hend, if_neg (show ¬(r.over buffers).currentBuffer.length ≤ (r.over buffers).bitPointer / 8 from hend)]
      exact .returns (.intro hqueue)

theorem HeapReader.Stands.peekByte : Answers HeapReader.Stands (heapReaderPeekByte r) (readerPeekByte reader) := by
  have hensure := h.ensureBuffer
  have hpointer : reader.bitPointer = r.bitPointer := by cases h; rfl
  rw [heapReaderPeekByte, readerPeekByte, hpointer]
  by_cases haligned : r.bitPointer % 8 = 0
  · rw [if_pos haligned, if_pos haligned]
    refine hensure.bind fun {isEnsured r₁ _} h₁ => ?_
    cases h₁ with
    | @intro buffers₁ hqueue =>
      cases isEnsured with
      | false =>
        simp only [Bool.false_eq_true, if_false]
        exact .returns (.intro hqueue)
      | true =>
        simp only [HeapReader.over, if_true]
        cases r₁.currentBuffer.bytes[r₁.bitPointer / 8]? with
        | none => exact .fails
        | some b => exact .returns (.intro hqueue)
  · rw [if_neg haligned, if_neg haligned]
    exact .fails

theorem HeapReader.Stands.readByte : Answers HeapReader.Stands (heapReaderReadByte r) (readerReadByte reader) :=
  h.peekByte.bind fun h₁ => by
    cases h₁ with
    | intro hqueue => exact .returns (.intro hqueue)

theorem HeapReader.Stands.currentBit (isEnsured : Bool) :
    Answers HeapReader.Stands
      (if isEnsured then do
          let b ← r.currentBuffer.bytes[r.bitPointer / 8]?
          let bit := (b >>> UInt8.ofNat (r.bitPointer % 8)) &&& 1
          return (bit, { r with bitPointer := r.bitPointer + 1 })
        else return (0, r))
      (if isEnsured then do
          let b ← reader.currentBuffer.bytes[reader.bitPointer / 8]?
          let bit := (b >>> UInt8.ofNat (reader.bitPointer % 8)) &&& 1
          return (bit, { reader with bitPointer := reader.bitPointer + 1 })
        else return (0, reader)) := by
  cases isEnsured with
  | false => exact .returns h
  | true =>
    cases h with
    | @intro buffers hqueue =>
      simp only [HeapReader.over, if_true]
      cases r.currentBuffer.bytes[r.bitPointer / 8]? with
      | none => exact .fails
      | some b => exact .returns (.intro hqueue)

theorem HeapReader.Stands.readBit : Answers HeapReader.Stands (heapReaderReadBit r) (readerReadBit reader) := by
  have hpointer : reader.bitPointer = r.bitPointer := by cases h; rfl
  rw [heapReaderReadBit, readerReadBit, hpointer]
  by_cases haligned : r.bitPointer % 8 = 0
  · rw [if_pos haligned, if_pos haligned]
    exact h.ensureBuffer.bind fun h₁ => h₁.currentBit _
  · rw [if_neg haligned, if_neg haligned]
    exact h.currentBit true

/-- Snapshots are the same, and so is what restoring them does. -/
theorem HeapReader.Stands.takeSnapshot : readerTakeSnapshot reader = heapReaderTakeSnapshot r := by
  cases h
  rfl

theorem HeapReader.Stands.restoreSnapshot (snapshot : ReaderSnapshot) :
    Option.Rel HeapReader.Stands (heapReaderRestoreSnapshot r snapshot) (readerRestoreSnapshot reader snapshot) := by
  cases h with
  | @intro buffers hqueue =>
    rw [heapReaderRestoreSnapshot, readerRestoreSnapshot]
    simp only [hqueue.peekTailAt, heapReaderAddTailLengths_eq hqueue]
    show Option.Rel HeapReader.Stands _ (if (r.exhaustedBuffersCount : Int) = snapshot.exhaustedBuffersCount then _
      else if snapshot.exhaustedBuffersCount = -1 then _
      else if (r.exhaustedBuffersCount : Int) > snapshot.exhaustedBuffersCount then _ else _)
    by_cases hsame : (r.exhaustedBuffersCount : Int) = snapshot.exhaustedBuffersCount
    · rw [if_pos hsame, if_pos hsame]
      exact .some (.intro hqueue)
    rw [if_neg hsame, if_neg hsame]
    by_cases hinitial : snapshot.exhaustedBuffersCount = -1
    · rw [if_pos hinitial, if_pos hinitial]
      exact .some (.intro hqueue)
    rw [if_neg hinitial, if_neg hinitial]
    by_cases hback : (r.exhaustedBuffersCount : Int) > snapshot.exhaustedBuffersCount
    · rw [if_pos hback, if_pos hback]
      simp only [HeapReader.over]
      cases queuePeekTailAt buffers r.exhaustedBuffersCount with
      | none => exact .none
      | some slot =>
        generalize readerAddTailLengths buffers snapshot.exhaustedBuffersCount.toNat _ _ = unconsumed
        cases unconsumed with
        | none => exact .none
        | some unconsumed => exact .some (.intro hqueue)
    · rw [if_neg hback, if_neg hback]
      exact .none

/-- **A snapshot rolls back** where it does on the reader stood for. -/
theorem HeapReader.Stands.rollsBack {r₁ : HeapReader} {reader₁ : Reader} (h₁ : r₁.Stands reader₁) {available : Int}
    {bits : List Bool} (hback : RollsBackTo reader (readerTakeSnapshot reader₁) available bits) :
    ∃ r' reader', heapReaderRestoreSnapshot r (heapReaderTakeSnapshot r₁) = some r' ∧ r'.Stands reader' ∧
      heapReaderGetBitsAvailable r' = available ∧ Serves reader' bits := by
  obtain ⟨reader', hrestore, havailable, hserves⟩ := hback
  have hrel := h.restoreSnapshot (readerTakeSnapshot reader₁)
  rw [hrestore, h₁.takeSnapshot] at hrel
  cases hheap : heapReaderRestoreSnapshot r (heapReaderTakeSnapshot r₁) with
  | none =>
    rw [hheap] at hrel
    cases hrel
  | some r' =>
    rw [hheap] at hrel
    cases hrel with
    | some hstands => exact ⟨r', reader', rfl, hstands, by rw [← hstands.bitsAvailable]; exact havailable, hserves⟩

end

end Scomp
