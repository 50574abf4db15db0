/-
What a reader delivers when memory runs out: the buffers it took, each of
their bits once and in order. A buffer it refuses leaves nothing behind but
the error.
-/
import Scomp.DataStructures.ReaderMemory

namespace Scomp

/-- A reader and what was done with it, as in `ReaderHistory`; the buffers
that it did not take are apart. -/
structure HeapReaderHistory where
  reader : HeapReader
  pushed : List Buffer
  refused : List Buffer
  read : List Byte
  peeked : List (Nat × Byte)
  recovered : List Buffer

def HeapReaderHistory.init (r : HeapReader) : HeapReaderHistory :=
  { reader := r, pushed := [], refused := [], read := [], peeked := [], recovered := [] }

def HeapReaderHistory.call (malloc : Malloc) (h : HeapReaderHistory) : ReaderCall → Option HeapReaderHistory
  | .pushBuffer b => do
    let (isPushed, r) ← heapReaderPushBuffer malloc h.reader b
    if isPushed then return { h with reader := r, pushed := h.pushed ++ [b] }
    else return { h with reader := r, refused := h.refused ++ [b] }
  | .readBit => do
    let (bit, r) ← heapReaderReadBit h.reader
    return { h with reader := r, read := h.read ++ [bit] }
  | .readByte => do
    let (b, r) ← heapReaderReadByte h.reader
    return { h with reader := r, read := h.read ++ (Bits.ofByte b).map Bool.toUInt8 }
  | .peekByte => do
    let (b, r) ← heapReaderPeekByte h.reader
    return { h with reader := r, peeked := h.peeked ++ [(h.read.length, b)] }
  | .recoverExhaustedBuffer => do
    let (b, r) ← heapReaderRecoverExhaustedBuffer h.reader
    return { h with reader := r, recovered := h.recovered ++ [b] }

def HeapReaderHistory.pushedBits (h : HeapReaderHistory) : List Bool := h.pushed.flatMap Buffer.bits

/-- What a call asks of its caller. -/
def HeapReaderHistory.Legal (h : HeapReaderHistory) : ReaderCall → Prop
  | .pushBuffer b => 0 < b.length
  | .readBit => h.read.length < h.pushedBits.length
  | .readByte | .peekByte => h.read.length % 8 = 0 ∧ h.read.length < h.pushedBits.length
  | .recoverExhaustedBuffer => heapReaderHasExhaustedBuffer h.reader = true

instance (h : HeapReaderHistory) : DecidablePred h.Legal
  | .pushBuffer _ => inferInstanceAs (Decidable (_ < _))
  | .readBit => inferInstanceAs (Decidable (_ < _))
  | .readByte | .peekByte => inferInstanceAs (Decidable (_ ∧ _))
  | .recoverExhaustedBuffer => inferInstanceAs (Decidable (_ = true))

/-- Legal calls one after another. -/
def HeapReaderHistory.callAll (malloc : Malloc) (h : HeapReaderHistory) : List ReaderCall → Option HeapReaderHistory
  | [] => some h
  | c :: calls => if h.Legal c then (h.call malloc c).bind fun h => h.callAll malloc calls else none

inductive HeapReaderReaches (malloc : Malloc) (r : HeapReader) : HeapReaderHistory → Prop
  | init : HeapReaderReaches malloc r (.init r)
  | call {h h' : HeapReaderHistory} {c : ReaderCall} : HeapReaderReaches malloc r h → h.Legal c →
      h.call malloc c = some h' → HeapReaderReaches malloc r h'

/-- What is seen of the reader from outside: no underflow, and the first
error stays. -/
structure HeapReaderDelivers (context : Context) (h : HeapReaderHistory) : Prop where
  read : h.read <+: h.pushedBits.map Bool.toUInt8
  available : heapReaderGetBitsAvailable h.reader = h.pushedBits.length - h.read.length
  peeked : ∀ p ∈ h.peeked, (h.pushedBits.drop p.1).take 8 = Bits.ofByte p.2
  recovered : h.recovered <+: h.pushed
  recoveredRead : (h.recovered.flatMap Buffer.bits).length ≤ h.read.length
  noError : h.refused = [] → h.reader.heap.context = context
  error : h.refused ≠ [] → contextIsErrored h.reader.heap.context = true
  firstError : contextIsErrored context = true → h.reader.heap.context = context

/-! ## Pushes -/

/-- A buffer is refused only where the allocator refuses. -/
theorem heapQueuePush_refused {malloc : Malloc} {heap heap' : Heap} {q q' : QueueArray Buffer} {contents : Queue Buffer}
    {value : Buffer} (h : q.Holds contents) (hpush : heapQueuePush malloc heap q value = some (false, q', heap')) :
    malloc.slots heap.requests = none := by
  by_contra hgranted
  obtain ⟨values, hvalues⟩ := Option.ne_none_iff_exists'.1 hgranted
  by_cases hroom : queueArrayGetCount q < q.length - 1
  · rcases h.push none value with ⟨slot, q'', hspec, -⟩ | ⟨-, hspec⟩
    · simp [heapQueuePush, hroom, hspec] at hpush
    · have hfull := ((h.push_null none).1 ⟨q, hspec⟩).2
      omega
  · rcases h.push (some values) value with ⟨slot, q'', hspec, -⟩ | ⟨hnone, -⟩
    · simp [heapQueuePush, hroom, contextAllocateSlots, hvalues, hspec] at hpush
    · cases hnone

/-- The error is no part of what a reader delivers. -/
theorem ReaderHistoryOK.withContext {context : Context} {h : ReaderHistory} (hok : ReaderHistoryOK context h)
    (context' : Context) : ReaderHistoryOK context' { h with reader := { h.reader with context := context' } } :=
  have hreader := hok.ok
  ⟨⟨⟨hreader.midByte, hreader.nextIndex_le, hreader.nonempty⟩, hreader.initial, hreader.current, hreader.pointer_le,
    hreader.unconsumed⟩, hok.pushed, hok.read, hok.peeked, rfl⟩

/-! ## The history it stands for -/

def HeapReaderHistory.withReader (h : HeapReaderHistory) (reader : Reader) : ReaderHistory :=
  { reader := reader, pushed := h.pushed, read := h.read, peeked := h.peeked, recovered := h.recovered }

structure HeapReaderHistoryOK (context : Context) (h : HeapReaderHistory) : Prop where
  stands : ∃ reader, h.reader.Stands reader ∧ ReaderHistoryOK h.reader.heap.context (h.withReader reader)
  noError : h.refused = [] → h.reader.heap.context = context
  error : h.refused ≠ [] → contextIsErrored h.reader.heap.context = true
  firstError : contextIsErrored context = true → h.reader.heap.context = context

section

variable {context : Context} {h : HeapReaderHistory} (hok : HeapReaderHistoryOK context h)
include hok

theorem HeapReaderHistoryOK.delivers : HeapReaderDelivers context h := by
  obtain ⟨reader, hstands, hreader⟩ := hok.stands
  have hdelivers := hreader.delivers
  refine ⟨hdelivers.read, ?_, hdelivers.peeked, hdelivers.recovered, hdelivers.recoveredRead, hok.noError, hok.error,
    hok.firstError⟩
  rw [← hstands.bitsAvailable]
  exact hdelivers.available

/-- A call that refuses nothing leaves the context. -/
theorem HeapReaderHistoryOK.step {h' : HeapReaderHistory} {reader' : Reader} (hstands : h'.reader.Stands reader')
    (hreader : ReaderHistoryOK h.reader.heap.context (h'.withReader reader')) (hrefused : h'.refused = h.refused) :
    HeapReaderHistoryOK context h' := by
  have hcontext : h'.reader.heap.context = h.reader.heap.context := hstands.context.symm.trans hreader.context
  refine ⟨⟨reader', hstands, hcontext ▸ hreader⟩, ?_, ?_, ?_⟩
  · rw [hrefused, hcontext]
    exact hok.noError
  · rw [hrefused, hcontext]
    exact hok.error
  · rw [hcontext]
    exact hok.firstError

theorem HeapReaderHistoryOK.push (malloc : Malloc) {b : Buffer} (hb : 0 < b.length) :
    ∃ h', h.call malloc (.pushBuffer b) = some h' ∧ HeapReaderHistoryOK context h' ∧
      (h'.refused = h.refused ∨ malloc.slots h.reader.heap.requests = none) := by
  obtain ⟨reader, hstands, hreader⟩ := hok.stands
  cases hstands with
  | @intro buffers hqueue =>
    rcases heapQueuePush_spec malloc h.reader.heap hqueue b with
      ⟨q', heap', hpush, hqueue', hcontext⟩ | ⟨heap', hpush, hgoes, herror⟩
    · have hlegal : (h.withReader (h.reader.over buffers)).Legal (.pushBuffer b) := hb
      obtain ⟨g', hcall, hreader'⟩ := hreader.call hlegal
      have hspec : readerPushBuffer (h.reader.over buffers) b = some
          { h.reader.over buffers with
            buffers := queuePush buffers b
            unconsumedBufferBytesCount := h.reader.unconsumedBufferBytesCount + b.length } := if_pos hb
      simp only [ReaderHistory.call, HeapReaderHistory.withReader, hspec, Option.bind_eq_bind, Option.bind_some] at hcall
      cases hcall
      refine ⟨{ h with
          reader := { h.reader with
            heap := heap'
            buffers := q'
            unconsumedBufferBytesCount := h.reader.unconsumedBufferBytesCount + b.length }
          pushed := h.pushed ++ [b] }, ?_, hok.step (.intro hqueue') ?_ rfl, .inl rfl⟩
      · simp [HeapReaderHistory.call, heapReaderPushBuffer, hb, hpush]
      · simp only [HeapReaderHistory.withReader, HeapReader.over, hcontext]
        exact hreader'
    · refine ⟨{ h with reader := { h.reader with heap := heap' }, refused := h.refused ++ [b] }, ?_,
        ⟨⟨_, .intro hqueue, hreader.withContext heap'.context⟩, ?_, fun _ => herror, fun hfirst => ?_⟩,
        .inr (heapQueuePush_refused hqueue hpush)⟩
      · simp [HeapReaderHistory.call, heapReaderPushBuffer, hb, hpush]
      · intro hnil
        simp at hnil
      · have hkept := hok.firstError hfirst
        rw [← hkept] at hfirst
        exact (hgoes hfirst).trans hkept

/-- **One call**: it goes through, and refuses a buffer at most. -/
theorem HeapReaderHistoryOK.call (malloc : Malloc) {c : ReaderCall} (hlegal : h.Legal c) :
    ∃ h', h.call malloc c = some h' ∧ HeapReaderHistoryOK context h' ∧
      (h'.refused = h.refused ∨ malloc.slots h.reader.heap.requests = none) := by
  obtain ⟨reader, hstands, hreader⟩ := hok.stands
  cases c with
  | pushBuffer b => exact hok.push malloc hlegal
  | readBit =>
    obtain ⟨g', hcall, hreader'⟩ := @ReaderHistoryOK.call _ _ .readBit hreader hlegal
    obtain ⟨⟨bit, reader'⟩, hbit, hcall⟩ := Option.bind_eq_some_iff.1 hcall
    cases hcall
    obtain ⟨r', hbit', hstands'⟩ := hstands.readBit.of_right hbit
    exact ⟨{ h with reader := r', read := h.read ++ [bit] }, by simp [HeapReaderHistory.call, hbit'],
      hok.step hstands' hreader' rfl, .inl rfl⟩
  | readByte =>
    obtain ⟨g', hcall, hreader'⟩ := @ReaderHistoryOK.call _ _ .readByte hreader hlegal
    obtain ⟨⟨b, reader'⟩, hbyte, hcall⟩ := Option.bind_eq_some_iff.1 hcall
    cases hcall
    obtain ⟨r', hbyte', hstands'⟩ := hstands.readByte.of_right hbyte
    exact ⟨{ h with reader := r', read := h.read ++ (Bits.ofByte b).map Bool.toUInt8 },
      by simp [HeapReaderHistory.call, hbyte'], hok.step hstands' hreader' rfl, .inl rfl⟩
  | peekByte =>
    obtain ⟨g', hcall, hreader'⟩ := @ReaderHistoryOK.call _ _ .peekByte hreader hlegal
    obtain ⟨⟨b, reader'⟩, hbyte, hcall⟩ := Option.bind_eq_some_iff.1 hcall
    cases hcall
    obtain ⟨r', hbyte', hstands'⟩ := hstands.peekByte.of_right hbyte
    exact ⟨{ h with reader := r', peeked := h.peeked ++ [(h.read.length, b)] },
      by simp [HeapReaderHistory.call, hbyte'], hok.step hstands' hreader' rfl, .inl rfl⟩
  | recoverExhaustedBuffer =>
    have hexhausted := hstands.hasExhausted.trans hlegal
    obtain ⟨g', hcall, hreader'⟩ := @ReaderHistoryOK.call _ _ .recoverExhaustedBuffer hreader hexhausted
    obtain ⟨⟨b, reader'⟩, hrecover, hcall⟩ := Option.bind_eq_some_iff.1 hcall
    cases hcall
    obtain ⟨r', hrecover', hstands'⟩ := hstands.recover.of_right hrecover
    exact ⟨{ h with reader := r', recovered := h.recovered ++ [b] }, by simp [HeapReaderHistory.call, hrecover'],
      hok.step hstands' hreader' rfl, .inl rfl⟩

end

theorem HeapReaderReaches.ok {malloc : Malloc} {r : HeapReader} {context : Context} {h : HeapReaderHistory}
    (hinit : HeapReaderHistoryOK context (.init r)) (hreach : HeapReaderReaches malloc r h) :
    HeapReaderHistoryOK context h := by
  induction hreach with
  | init => exact hinit
  | call _ hlegal hcall ih =>
    obtain ⟨h'', hcall', hok, -⟩ := ih.call malloc hlegal
    rw [hcall'] at hcall
    cases hcall
    exact hok

theorem HeapReaderReaches.callAll {malloc : Malloc} {r : HeapReader} {h h' : HeapReaderHistory} {calls : List ReaderCall}
    (hreach : HeapReaderReaches malloc r h) (hcalls : h.callAll malloc calls = some h') : HeapReaderReaches malloc r h' := by
  induction calls generalizing h with
  | nil =>
    cases hcalls
    exact hreach
  | cons c calls ih =>
    rw [HeapReaderHistory.callAll] at hcalls
    split at hcalls
    · next hlegal =>
      obtain ⟨h₁, hcall, hrest⟩ := Option.bind_eq_some_iff.mp hcalls
      exact ih (hreach.call hlegal hcall) hrest
    · cases hcalls

/-- A new reader, or no memory for its queue. -/
theorem heapReaderInit_spec (malloc : Malloc) (heap : Heap) :
    (∃ r heap', heapReaderInit malloc heap = (some r, heap') ∧ HeapReaderHistoryOK heap.context (.init r)) ∨
      ∃ heap', heapReaderInit malloc heap = (none, heap') ∧ contextIsErrored heap'.context = true := by
  rw [heapReaderInit]
  rcases heapQueueInit_spec malloc heap READER_QUEUE_DEFAULT_SHIFT with
    ⟨q, heap', hinit, hqueue, hcontext⟩ | ⟨heap', hinit, -, herror⟩
  · simp only [hinit, Option.map_some]
    refine .inl ⟨_, heap', rfl, ⟨_, .intro hqueue, ?_⟩, fun _ => hcontext, fun hne => absurd rfl hne, fun _ => hcontext⟩
    exact ⟨.init heap'.context, rfl, rfl, by simp [HeapReaderHistory.withReader, HeapReaderHistory.init], rfl⟩
  · exact .inr ⟨heap', by simp only [hinit, Option.map_none], herror⟩

/-- **The reader with allocations that fail** at any time: whatever is called
in whatever order, it delivers the bits of the buffers it took, each once and
in order; it refuses a buffer only where the allocator refuses, and has an
error exactly where it refused one; no legal call gets stuck. -/
theorem reader_failing_allocations (malloc : Malloc) (heap : Heap) :
    (∃ heap', heapReaderInit malloc heap = (none, heap') ∧ contextIsErrored heap'.context = true) ∨
      ∃ r heap', heapReaderInit malloc heap = (some r, heap') ∧
        ∀ h, HeapReaderReaches malloc r h → HeapReaderDelivers heap.context h ∧
          ∀ c, h.Legal c → ∃ h', h.call malloc c = some h' ∧ HeapReaderDelivers heap.context h' ∧
            (h'.refused = h.refused ∨ malloc.slots h.reader.heap.requests = none) := by
  rcases heapReaderInit_spec malloc heap with ⟨r, heap', hinit, hok⟩ | hfailed
  · refine .inr ⟨r, heap', hinit, fun h hreach => ?_⟩
    have hok' := hreach.ok hok
    refine ⟨hok'.delivers, fun c hlegal => ?_⟩
    obtain ⟨h', hcall, hnext, hrefused⟩ := hok'.call malloc hlegal
    exact ⟨h', hcall, hnext.delivers, hrefused⟩
  · exact .inl hfailed

/-- Memory for the queue, and none for its growth. -/
def grantsOnce : Malloc where
  bytes _ _ := none
  slots request := if request = 0 then some fun _ => EMPTY_BUFFER else none
  bytes_length h := by cases h

/-- Of sixteen buffers the last one finds the queue full; then a byte and a bit
are read, and the first buffer is taken back. -/
theorem reader_failing_allocations_sixteenth :
    ∃ r heap' h, heapReaderInit grantsOnce { context := contextInit, requests := 0 } = (some r, heap') ∧
      HeapReaderHistory.callAll grantsOnce (.init r) (List.replicate 16 (.pushBuffer (bufferMake [5])) ++
        [.readByte, .readBit, .recoverExhaustedBuffer]) = some h ∧
      h.pushed = List.replicate 15 (bufferMake [5]) ∧ h.refused = [bufferMake [5]] ∧
      h.read = [1, 0, 1, 0, 0, 0, 0, 0, 1] ∧ h.recovered = [bufferMake [5]] ∧
      h.reader.heap.context.error = some "Failed to allocate memory: malloc(768)" ∧
      HeapReaderDelivers contextInit h ∧
      ∀ c, h.Legal c → ∃ h', h.call grantsOnce c = some h' ∧ HeapReaderDelivers contextInit h' ∧
        (h'.refused = h.refused ∨ grantsOnce.slots h.reader.heap.requests = none) := by
  rcases reader_failing_allocations grantsOnce { context := contextInit, requests := 0 } with
    ⟨heap', hinit, -⟩ | ⟨r, heap', hinit, hruns⟩
  · cases hinit
  · have hseen : ((heapReaderInit grantsOnce { context := contextInit, requests := 0 }).1.bind fun r =>
        HeapReaderHistory.callAll grantsOnce (.init r) (List.replicate 16 (.pushBuffer (bufferMake [5])) ++
          [.readByte, .readBit, .recoverExhaustedBuffer])).map
            (fun h => (h.pushed, h.refused, h.read, h.recovered, h.reader.heap.context.error)) =
        some (List.replicate 15 (bufferMake [5]), [bufferMake [5]], [1, 0, 1, 0, 0, 0, 0, 0, 1], [bufferMake [5]],
          some "Failed to allocate memory: malloc(768)") := by decide +kernel
    rw [hinit, Option.bind_some] at hseen
    obtain ⟨h, hcalls, hseen⟩ := Option.map_eq_some_iff.mp hseen
    simp only [Prod.mk.injEq] at hseen
    obtain ⟨hpushed, hrefused, hread, hrecovered, herror⟩ := hseen
    exact ⟨r, heap', h, hinit, hcalls, hpushed, hrefused, hread, hrecovered, herror, hruns h (.callAll .init hcalls)⟩

end Scomp
