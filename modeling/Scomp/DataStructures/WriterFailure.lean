/-
What the writer does when memory runs out: it stays within its buffers,
whatever the allocator answers and when, and its output is either marked as an
error or all the bits written.
-/
import Scomp.DataStructures.WriterMemory

namespace Scomp

/-! ## The queues -/

/-- A write to the last value is one to the slot of the tail. -/
theorem QueueArray.Holds.storeTail {α : Type} {q : QueueArray α} {contents : Queue α} {last : α}
    (h : q.Holds (contents ++ [last])) (value : α) :
    (q.store (queueArrayTailSlot q) value).Holds (contents ++ [value]) := by
  have hfits := h.fits
  have hhead := h.head
  have hlength : (contents ++ [last]).length = contents.length + 1 := List.length_append
  have htail : queueArrayTailSlot q = (q.head + contents.length) % q.length := by
    rw [queueArrayTailSlot, h.and_mask, h.tail, hlength, Nat.add_sub_assoc (by omega), Nat.mod_add_mod,
      show q.head + (contents.length + 1) + (q.length - 1) = q.head + contents.length + q.length by omega,
      Nat.add_mod_right]
  refine ⟨h.power, h.mask, h.head, ?_, ?_, fun i hi => ?_⟩
  · rw [List.length_append, List.length_singleton, ← hlength]
    exact h.tail
  · rw [List.length_append, List.length_singleton, ← hlength]
    exact h.fits
  rw [List.length_append, List.length_singleton] at hi
  show (contents ++ [value])[i]? = some (Function.update q.values (queueArrayTailSlot q) value ((q.head + i) % q.length))
  rw [htail]
  by_cases hlast : i = contents.length
  · rw [hlast, Function.update_self, List.getElem?_concat_length]
  · have hvalue := h.values i (by omega)
    rw [List.getElem?_append_left (by omega)] at hvalue
    rw [Function.update_of_ne (queueArray_slot_ne (by omega) (by omega)), List.getElem?_append_left (by omega), hvalue]

theorem QueueArray.Holds.peekTail {α : Type} {q : QueueArray α} {contents : Queue α} {last : α}
    (h : q.Holds (contents ++ [last])) : queueArrayPeekTailAt q 0 = some last := by
  rw [h.peekTailAt, queuePeekTailAt_eq, List.reverse_append]
  rfl

/-! ## Requests for memory -/

/-- The first error is kept. -/
def Heap.Goes (heap heap' : Heap) : Prop := contextIsErrored heap.context = true → heap'.context = heap.context

theorem Heap.Goes.trans {a b c : Heap} (h : a.Goes b) (h' : b.Goes c) : a.Goes c := fun herror => by
  have hb := h herror
  rw [h' (by rw [hb]; exact herror), hb]

theorem Heap.Goes.errored {heap heap' : Heap} (h : heap.Goes heap') (herror : contextIsErrored heap.context = true) :
    contextIsErrored heap'.context = true := by
  rw [h herror]
  exact herror

theorem contextSetErrorOnMalloc_spec (heap : Heap) (byteSize : Nat) :
    heap.Goes (contextSetErrorOnMalloc heap byteSize) ∧
      contextIsErrored (contextSetErrorOnMalloc heap byteSize).context = true := by
  rw [Heap.Goes, contextSetErrorOnMalloc, contextSetError]
  split
  · next h => exact ⟨fun _ => rfl, h⟩
  · next h => exact ⟨fun herror => absurd herror h, rfl⟩

/-- A granted request leaves the context, a refused one an error. -/
theorem contextAllocate_spec (malloc : Malloc) (heap : Heap) (byteSize : Nat) :
    (∃ bytes heap', contextAllocate malloc heap byteSize = (some bytes, heap') ∧ bytes.length = byteSize ∧
        heap'.context = heap.context) ∨
      ∃ heap', contextAllocate malloc heap byteSize = (none, heap') ∧ heap.Goes heap' ∧
        contextIsErrored heap'.context = true := by
  rw [contextAllocate]
  cases hbytes : malloc.bytes heap.requests byteSize with
  | some bytes => exact .inl ⟨bytes, _, rfl, malloc.bytes_length hbytes, rfl⟩
  | none => exact .inr ⟨_, rfl, contextSetErrorOnMalloc_spec { heap with requests := heap.requests + 1 } byteSize⟩

theorem contextAllocateSlots_spec (malloc : Malloc) (heap : Heap) (elementCount : Nat) :
    (∃ values heap', contextAllocateSlots malloc heap elementCount = (some values, heap') ∧
        heap'.context = heap.context) ∨
      ∃ heap', contextAllocateSlots malloc heap elementCount = (none, heap') ∧ heap.Goes heap' ∧
        contextIsErrored heap'.context = true := by
  rw [contextAllocateSlots]
  cases malloc.slots heap.requests with
  | some values => exact .inl ⟨values, _, rfl, rfl⟩
  | none =>
    exact .inr ⟨_, rfl, contextSetErrorOnMalloc_spec { heap with requests := heap.requests + 1 } _⟩

theorem heapQueueInit_spec (malloc : Malloc) (heap : Heap) (startingLengthShift : Nat) :
    (∃ q heap', heapQueueInit malloc heap startingLengthShift = (some q, heap') ∧ q.Holds [] ∧
        heap'.context = heap.context) ∨
      ∃ heap', heapQueueInit malloc heap startingLengthShift = (none, heap') ∧ heap.Goes heap' ∧
        contextIsErrored heap'.context = true := by
  rw [heapQueueInit]
  rcases contextAllocateSlots_spec malloc heap (1 <<< startingLengthShift) with
    ⟨values, heap', hmalloc, hcontext⟩ | ⟨heap', hmalloc, hfails⟩
  · obtain ⟨q, hinit, hq⟩ := QueueArray.Holds.init values startingLengthShift
    exact .inl ⟨q, heap', by simp only [hmalloc, hinit], hq, hcontext⟩
  · exact .inr ⟨heap', by simp only [hmalloc]; rfl, hfails⟩

theorem heapQueuePush_spec (malloc : Malloc) (heap : Heap) {q : QueueArray Buffer} {contents : Queue Buffer}
    (h : q.Holds contents) (value : Buffer) :
    (∃ q' heap', heapQueuePush malloc heap q value = some (true, q', heap') ∧ q'.Holds (queuePush contents value) ∧
        heap'.context = heap.context) ∨
      ∃ heap', heapQueuePush malloc heap q value = some (false, q, heap') ∧ heap.Goes heap' ∧
        contextIsErrored heap'.context = true := by
  by_cases hroom : queueArrayGetCount q < q.length - 1
  · -- no memory is asked for
    rcases h.push none value with ⟨slot, q', hpush, h'⟩ | ⟨-, hpush⟩
    · refine .inl ⟨q'.store slot value, heap, ?_, h', rfl⟩
      simp [heapQueuePush, hroom, hpush]
    · have hfull := ((h.push_null none).1 ⟨q, hpush⟩).2
      omega
  · rcases contextAllocateSlots_spec malloc heap (q.length * 2) with
      ⟨values, heap', hmalloc, hcontext⟩ | ⟨heap', hmalloc, hfails⟩
    · rcases h.push (some values) value with ⟨slot, q', hpush, h'⟩ | ⟨hnone, -⟩
      · refine .inl ⟨q'.store slot value, heap', ?_, h', hcontext⟩
        simp [heapQueuePush, hroom, hmalloc, hpush]
      · cases hnone
    · rcases h.push none value with ⟨slot, q', hpush, -⟩ | ⟨-, hpush⟩
      · simp [queueArrayPush, queueArrayMaybeGrow, hroom] at hpush
      · refine .inr ⟨heap', ?_, hfails⟩
        simp [heapQueuePush, hroom, hmalloc, hpush]

/-! ## The writer it stands for -/

/-- What the next allocations contain is no matter. -/
structure HeapWriter.Stands (hw : HeapWriter) (w : Writer) : Prop where
  buffers : hw.buffers.Holds (w.fullBuffers ++ [w.lastBuffer])
  freeBuffers : hw.freeBuffers.Holds w.freeBuffers
  bytesStored : hw.bytesStored = w.bytesStored
  currentBitIndex : hw.currentBitIndex = w.currentBitIndex

/-- What keeps writes and copies within their arrays. After a failure the
bytes stored count more than there are. -/
structure WriterBounded (w : Writer) : Prop where
  full : ∀ b ∈ w.fullBuffers, 0 < b.data.length
  free : ∀ b ∈ w.freeBuffers, 0 < b.data.length
  last : 0 < w.lastBuffer.data.length
  stored : ((w.fullBuffers.map Buffer.allocatedLength).sum : Nat) ≤ w.bytesStored
  index_le : w.currentBitIndex ≤ 8 * w.lastBuffer.data.length

theorem WriterReady.bounded {w : Writer} (h : WriterReady w) : WriterBounded w :=
  ⟨h.full, h.free, h.last, Int.le_of_eq h.stored.symm, h.index_le⟩

theorem WriterReady.allocationsHold {w : Writer} (h : WriterReady w) {staleBytes : List Byte}
    (hs : 0 < staleBytes.length) : WriterReady { w with staleBytes := staleBytes } :=
  ⟨h.full, h.free, hs, h.last, h.stored, h.index_le, h.partialByte⟩

theorem writerNextBuffer_pos {w : Writer} (h : WriterBounded w) {staleBytes : List Byte} (hs : 0 < staleBytes.length) :
    0 < (writerNextBuffer { w with staleBytes := staleBytes }).1.data.length ∧
      ∀ b ∈ (writerNextBuffer { w with staleBytes := staleBytes }).2, 0 < b.data.length := by
  unfold writerNextBuffer
  match hfree : w.freeBuffers with
  | [] => exact ⟨hs, by simp⟩
  | b :: rest =>
    exact ⟨h.free b (by rw [hfree]; exact List.mem_cons_self),
      fun c hc => h.free c (by rw [hfree]; exact List.mem_cons_of_mem _ hc)⟩

theorem bufferMake_withLength_zero (data : List Byte) :
    (bufferMake data).withLength 0 = { data := data, length := 0, length_le := Nat.zero_le _ } := by
  rw [Buffer.withLength, Buffer.mk.injEq]
  exact ⟨rfl, Nat.zero_min _⟩

/-- The supplied buffers go first. -/
theorem heapWriterNextBuffer_spec (malloc : Malloc) {hw : HeapWriter} {w : Writer} (h : hw.Stands w) :
    (∃ staleBytes hw', staleBytes.length = hw.singleBufferByteSize ∧
        heapWriterNextBuffer malloc hw = some (some (writerNextBuffer { w with staleBytes := staleBytes }).1, hw') ∧
        hw'.Stands { w with freeBuffers := (writerNextBuffer { w with staleBytes := staleBytes }).2 } ∧
        hw'.singleBufferByteSize = hw.singleBufferByteSize ∧ hw'.heap.context = hw.heap.context) ∨
      ∃ hw', heapWriterNextBuffer malloc hw = some (none, hw') ∧ hw'.Stands w ∧
        hw'.singleBufferByteSize = hw.singleBufferByteSize ∧ hw.heap.Goes hw'.heap ∧
        contextIsErrored hw'.heap.context = true := by
  have hcount : queueArrayGetCount hw.freeBuffers = w.freeBuffers.length := h.freeBuffers.count
  rw [heapWriterNextBuffer, hcount]
  cases hfree : w.freeBuffers with
  | cons existing rest =>
    rcases h.freeBuffers.pop with ⟨value, q', rest', hspec, hpop, h'⟩ | ⟨hnil, -⟩
    · rw [hfree] at hspec
      cases hspec
      refine .inl ⟨List.replicate hw.singleBufferByteSize 0, { hw with freeBuffers := q' }, List.length_replicate,
        ?_, ⟨h.buffers, ?_, h.bytesStored, h.currentBitIndex⟩, rfl, rfl⟩
      · simp [hpop, writerNextBuffer]
      · simp only [writerNextBuffer]
        exact h'
    · rw [hfree] at hnil
      cases hnil
  | nil =>
    rcases contextAllocate_spec malloc hw.heap hw.singleBufferByteSize with
      ⟨bytes, heap', hmalloc, hlength, hcontext⟩ | ⟨heap', hmalloc, hfails⟩
    · refine .inl ⟨bytes, { hw with heap := heap' }, hlength, ?_, ⟨h.buffers, ?_, h.bytesStored, h.currentBitIndex⟩,
        rfl, hcontext⟩
      · simp [hmalloc, writerNextBuffer, bufferMake_withLength_zero]
      · simp only [writerNextBuffer]
        exact hfree ▸ h.freeBuffers
    · exact .inr ⟨{ hw with heap := heap' }, by simp [hmalloc],
        ⟨h.buffers, h.freeBuffers, h.bytesStored, h.currentBitIndex⟩, rfl, hfails⟩

/-- Where no buffer can be had, the writer goes back to the start of the one
it has. -/
theorem heapWriterProduceNextBuffer_spec (malloc : Malloc) {hw : HeapWriter} {w : Writer} (h : hw.Stands w) :
    (∃ staleBytes hw', staleBytes.length = hw.singleBufferByteSize ∧
        heapWriterProduceNextBuffer malloc hw = some (true, hw') ∧
        hw'.Stands (writerProduceNextBuffer { w with staleBytes := staleBytes }) ∧
        hw'.singleBufferByteSize = hw.singleBufferByteSize ∧ hw'.heap.context = hw.heap.context) ∨
      ∃ hw' freeBuffers, heapWriterProduceNextBuffer malloc hw = some (false, hw') ∧
        hw'.Stands { w with currentBitIndex := 0, freeBuffers := freeBuffers } ∧
        (∀ b ∈ freeBuffers, b ∈ w.freeBuffers) ∧
        hw'.singleBufferByteSize = hw.singleBufferByteSize ∧ hw.heap.Goes hw'.heap ∧
        contextIsErrored hw'.heap.context = true := by
  have hreset : HeapWriter.Stands { hw with currentBitIndex := 0 } { w with currentBitIndex := 0 } :=
    ⟨h.buffers, h.freeBuffers, h.bytesStored, rfl⟩
  rcases heapWriterNextBuffer_spec malloc hreset with
    ⟨staleBytes, hw₁, hlength, hnext, h₁, hsize, hcontext⟩ | ⟨hw₁, hnext, h₁, hsize, hfails⟩
  · rcases heapQueuePush_spec malloc hw₁.heap h₁.buffers
      (writerNextBuffer { w with currentBitIndex := 0, staleBytes := staleBytes }).1 with
      ⟨q', heap', hpush, hq, hcontext'⟩ | ⟨heap', hpush, hgoes, herror⟩
    · refine .inl ⟨staleBytes, { hw₁ with buffers := q', heap := heap' }, hlength, ?_,
        ⟨hq, h₁.freeBuffers, h₁.bytesStored, h₁.currentBitIndex⟩, hsize, hcontext'.trans hcontext⟩
      simp [heapWriterProduceNextBuffer, hnext, hpush]
    · refine .inr ⟨{ hw₁ with heap := heap' }, _, ?_, ⟨h₁.buffers, h₁.freeBuffers, h₁.bytesStored, h₁.currentBitIndex⟩,
        fun b hb => ?_, hsize, fun he => ?_, herror⟩
      · simp [heapWriterProduceNextBuffer, hnext, hpush]
      · cases hfree : w.freeBuffers with
        | nil => simp [writerNextBuffer, hfree] at hb
        | cons existing rest =>
          simp only [writerNextBuffer, hfree] at hb
          exact List.mem_cons_of_mem _ hb
      · have hkept := hgoes (by rw [hcontext]; exact he)
        exact hkept.trans hcontext
  · exact .inr ⟨hw₁, w.freeBuffers, by simp [heapWriterProduceNextBuffer, hnext], h₁, fun b hb => hb, hsize, hfails⟩

/-! ## What every operation keeps -/

structure HeapWriter.Sound (hw : HeapWriter) (w : Writer) : Prop where
  stands : hw.Stands w
  bounded : WriterBounded w
  index_lt : w.currentBitIndex < 8 * w.lastBuffer.data.length
  size : 0 < hw.singleBufferByteSize
  ok : contextIsErrored hw.heap.context = false → WriterOK w

/-- `consumed` goes out and `written` comes in; after an error only the
position within a byte is certain. -/
structure HeapWriter.Does (hw : HeapWriter) (w : Writer) (consumed : List Byte) (written : List Bool)
    (hw' : HeapWriter) (w' : Writer) : Prop where
  sound : hw'.Sound w'
  goes : hw.heap.Goes hw'.heap
  aligned : w'.currentBitIndex % 8 = (w.currentBitIndex + written.length) % 8
  bits : contextIsErrored hw'.heap.context = false → Bits.ofBytes consumed ++ w'.bits = w.bits ++ written

theorem HeapWriter.Does.refl {hw : HeapWriter} {w : Writer} (h : hw.Sound w) : hw.Does w [] [] hw w :=
  ⟨h, fun _ => rfl, rfl, fun _ => (List.append_nil _).symm⟩

theorem Heap.Goes.not_errored {heap heap' : Heap} (h : heap.Goes heap')
    (hok : contextIsErrored heap'.context = false) : contextIsErrored heap.context = false := by
  cases herror : contextIsErrored heap.context with
  | false => rfl
  | true =>
    rw [h.errored herror] at hok
    cases hok

theorem HeapWriter.Does.trans {hw hw₁ hw₂ : HeapWriter} {w w₁ w₂ : Writer} {consumed consumed' : List Byte}
    {written written' : List Bool} (h : hw.Does w consumed written hw₁ w₁)
    (h' : hw₁.Does w₁ consumed' written' hw₂ w₂) :
    hw.Does w (consumed ++ consumed') (written ++ written') hw₂ w₂ := by
  refine ⟨h'.sound, h.goes.trans h'.goes, ?_, fun he => ?_⟩
  · rw [h'.aligned, List.length_append, Nat.add_mod, h.aligned, ← Nat.add_mod, Nat.add_assoc]
  · rw [Bits.ofBytes_append, List.append_assoc, h'.bits he, ← List.append_assoc, h.bits (h'.goes.not_errored he),
      List.append_assoc]

/-- A buffer to write into is found, the last one again if need be. -/
theorem heapWriterEnsureBuffer_spec (malloc : Malloc) {hw : HeapWriter} {w : Writer} (h : hw.Stands w)
    (hbounded : WriterBounded w) (hsize : 0 < hw.singleBufferByteSize)
    (hready : contextIsErrored hw.heap.context = false → WriterReady w) :
    ∃ hw' w', heapWriterEnsureBuffer malloc hw = some (w'.lastBuffer, hw') ∧ hw.Does w [] [] hw' w' := by
  have hle := hbounded.index_le
  have hpeek := h.buffers.peekTail
  rw [heapWriterEnsureBuffer, hpeek, Option.bind_eq_bind, Option.bind_some]
  by_cases hfull : hw.currentBitIndex / 8 ≥ w.lastBuffer.allocatedLength
  swap
  · rw [if_neg hfull]
    rw [h.currentBitIndex, Buffer.allocatedLength] at hfull
    have hlt : w.currentBitIndex < 8 * w.lastBuffer.data.length := by omega
    exact ⟨hw, w, rfl, .refl ⟨h, hbounded, hlt, hsize, fun he => ⟨hready he, hlt⟩⟩⟩
  rw [if_pos hfull, Option.bind_eq_bind]
  rw [h.currentBitIndex] at hfull
  have hlast : 8 * w.lastBuffer.data.length = w.currentBitIndex := by
    rw [Buffer.allocatedLength] at hfull
    omega
  have hstored := hbounded.stored
  have hcounted : HeapWriter.Stands { hw with bytesStored := hw.bytesStored + w.lastBuffer.allocatedLength }
      { w with bytesStored := w.bytesStored + w.lastBuffer.allocatedLength } :=
    ⟨h.buffers, h.freeBuffers, by rw [h.bytesStored], h.currentBitIndex⟩
  rcases heapWriterProduceNextBuffer_spec malloc hcounted with
    ⟨staleBytes, hw', hlength, hproduce, h', hsize', hcontext⟩ | ⟨hw', free, hproduce, h', hfree, hsize', hgoes, herror⟩
  · have hstale : 0 < staleBytes.length := by rw [hlength]; exact hsize
    -- what the writer with memory does here
    have hensure : writerEnsureBuffer { w with staleBytes := staleBytes } = writerProduceNextBuffer
        { w with bytesStored := w.bytesStored + w.lastBuffer.allocatedLength, staleBytes := staleBytes } := by
      rw [writerEnsureBuffer, if_pos hfull]
    rw [← hensure] at h'
    have hspec : contextIsErrored hw'.heap.context = false →
        WriterOK (writerEnsureBuffer { w with staleBytes := staleBytes }) ∧
          (writerEnsureBuffer { w with staleBytes := staleBytes }).bits = w.bits := fun he =>
      writerEnsureBuffer_spec ((hready (by rw [hcontext] at he; exact he)).allocationsHold hstale)
    obtain ⟨hnext, hrest⟩ := writerNextBuffer_pos hbounded hstale
    refine ⟨hw', writerEnsureBuffer { w with staleBytes := staleBytes }, ?_,
      ⟨h', ?_, ?_, by rw [hsize']; exact hsize, fun he => (hspec he).1⟩, fun _ => hcontext, ?_, fun he => ?_⟩
    · rw [hproduce, Option.bind_some]
      show (queueArrayPeekTailAt hw'.buffers 0).bind _ = _
      rw [h'.buffers.peekTail]
      rfl
    · rw [hensure]
      refine ⟨fun b hb => ?_, hrest, hnext, ?_, Nat.zero_le _⟩
      · rcases List.mem_append.mp hb with hb | hb
        · exact hbounded.full b hb
        · rw [List.mem_singleton.mp hb]; exact hbounded.last
      · simp only [writerProduceNextBuffer, queuePush, List.map_append, List.map_cons, List.map_nil,
          List.sum_append, List.sum_cons, List.sum_nil, Buffer.allocatedLength] at hstored ⊢
        rw [Int.natCast_add]
        omega
    · rw [hensure]
      exact Nat.mul_pos (by decide) hnext
    · rw [hensure, ← hlast]
      show 0 % 8 = (8 * w.lastBuffer.data.length + 0) % 8
      omega
    · rw [(hspec he).2]
      exact (List.append_nil _).symm
  · refine ⟨hw', _, ?_, ⟨h', ⟨hbounded.full, fun b hb => hbounded.free b (hfree b hb), hbounded.last, ?_,
      Nat.zero_le _⟩, Nat.mul_pos (by decide) hbounded.last, by rw [hsize']; exact hsize, fun he => ?_⟩, hgoes, ?_,
      fun he => ?_⟩
    · rw [hproduce, Option.bind_some]
      show (queueArrayPeekTailAt hw'.buffers 0).bind _ = _
      rw [h'.buffers.peekTail]
      rfl
    · simp only
      omega
    · rw [herror] at he
      cases he
    · show 0 % 8 = (w.currentBitIndex + 0) % 8
      omega
    · rw [herror] at he
      cases he

theorem HeapWriter.Sound.ensured (malloc : Malloc) {hw : HeapWriter} {w : Writer} (h : hw.Sound w) :
    heapWriterEnsureBuffer malloc hw = some (w.lastBuffer, hw) := by
  have hlt := h.index_lt
  rw [heapWriterEnsureBuffer, h.stands.buffers.peekTail, Option.bind_eq_bind, Option.bind_some,
    h.stands.currentBitIndex, Buffer.allocatedLength, if_neg (by omega)]
  rfl

/-! ## Writes -/

/-- A byte within the last buffer is set, and the next buffer ensured. -/
theorem heapWriterSetByte_spec (malloc : Malloc) {hw : HeapWriter} {w : Writer} {value : Byte} {written : List Bool}
    (h : hw.Sound w) (hn : w.currentBitIndex % 8 + written.length ≤ 8)
    (hwritten : WriterOK w → WriterReady { w with
        lastBuffer := w.lastBuffer.setByte (w.currentBitIndex / 8) value
        currentBitIndex := w.currentBitIndex + written.length } ∧
      Writer.bits { w with
        lastBuffer := w.lastBuffer.setByte (w.currentBitIndex / 8) value
        currentBitIndex := w.currentBitIndex + written.length } = w.bits ++ written) :
    ∃ hw₁ hw₂ w', heapWriterSetByte hw w.lastBuffer (hw.currentBitIndex / 8) value = some hw₁ ∧
      heapWriterEnsureBuffer malloc { hw₁ with currentBitIndex := hw₁.currentBitIndex + written.length } =
        some (w'.lastBuffer, hw₂) ∧
      hw.Does w [] written hw₂ w' := by
  have hlt := h.index_lt
  have hstands : HeapWriter.Stands
      { hw with
        buffers := hw.buffers.store (queueArrayTailSlot hw.buffers) (w.lastBuffer.setByte (w.currentBitIndex / 8) value)
        currentBitIndex := hw.currentBitIndex + written.length }
      { w with
        lastBuffer := w.lastBuffer.setByte (w.currentBitIndex / 8) value
        currentBitIndex := w.currentBitIndex + written.length } :=
    ⟨h.stands.buffers.storeTail _, h.stands.freeBuffers, h.stands.bytesStored, by rw [h.stands.currentBitIndex]⟩
  have hbounded : WriterBounded { w with
      lastBuffer := w.lastBuffer.setByte (w.currentBitIndex / 8) value
      currentBitIndex := w.currentBitIndex + written.length } := by
    refine ⟨h.bounded.full, h.bounded.free, ?_, h.bounded.stored, ?_⟩
    · simp only [Buffer.setByte, List.length_set]
      exact h.bounded.last
    · simp only [Buffer.setByte, List.length_set]
      omega
  obtain ⟨hw₂, w', hensure, hdoes⟩ :=
    heapWriterEnsureBuffer_spec malloc hstands hbounded h.size fun he => (hwritten (h.ok he)).1
  refine ⟨_, hw₂, w', if_pos ?_, ?_, hdoes.sound, hdoes.goes, hdoes.aligned, fun he => ?_⟩
  · rw [h.stands.currentBitIndex, Buffer.allocatedLength]
    omega
  · rw [h.stands.currentBitIndex] at hensure ⊢
    exact hensure
  · rw [hdoes.bits he, List.append_nil]
    exact (hwritten (h.ok (hdoes.goes.not_errored he))).2

theorem heapWriterWriteBit_spec (malloc : Malloc) {hw : HeapWriter} {w : Writer} (h : hw.Sound w) (bit : Bool) :
    ∃ hw' w', heapWriterWriteBit malloc hw bit = some hw' ∧ hw.Does w [] [bit] hw' w' := by
  have hlt := h.index_lt
  obtain ⟨old, hold⟩ : ∃ old, w.lastBuffer.data[w.currentBitIndex / 8]? = some old :=
    ⟨_, List.getElem?_eq_getElem (by omega)⟩
  obtain ⟨hw₁, hw₂, w', hset, hensure, hdoes⟩ := @heapWriterSetByte_spec malloc hw w
    ((if w.currentBitIndex % 8 = 0 then 0 else old) ||| (bit.toUInt8 <<< UInt8.ofNat (w.currentBitIndex % 8)))
    [bit] h (Nat.succ_le_of_lt (Nat.mod_lt _ (by decide))) fun hok => by
      obtain ⟨hbits, hnew⟩ := hok.withBit hold bit
      exact writerSetByte_ready hok hold Nat.one_pos (Nat.succ_le_of_lt (Nat.mod_lt _ (by decide))) hbits fun _ => hnew
  refine ⟨hw₂, w', ?_, hdoes⟩
  rw [← h.stands.currentBitIndex] at hold hset
  rw [List.length_singleton] at hensure
  simp [heapWriterWriteBit, h.ensured, hold, hset, hensure]

theorem heapWriterWriteByte_spec (malloc : Malloc) {hw : HeapWriter} {w : Writer} (h : hw.Sound w) (value : Byte)
    (ha : w.currentBitIndex % 8 = 0) :
    ∃ hw' w', heapWriterWriteByte malloc hw value = some hw' ∧ hw.Does w [] (Bits.ofByte value) hw' w' := by
  have hlt := h.index_lt
  obtain ⟨old, hold⟩ : ∃ old, w.lastBuffer.data[w.currentBitIndex / 8]? = some old :=
    ⟨_, List.getElem?_eq_getElem (by omega)⟩
  have hvalue : (Bits.ofByte value).take (w.currentBitIndex % 8 + (Bits.ofByte value).length) =
      (Bits.ofByte old).take (w.currentBitIndex % 8) ++ Bits.ofByte value := by
    rw [ha, List.take_zero, List.nil_append]
    exact List.take_of_length_le (by rw [Bits.ofByte_length])
  have hlength := Bits.ofByte_length value
  obtain ⟨hw₁, hw₂, w', hset, hensure, hdoes⟩ := @heapWriterSetByte_spec malloc hw w value (Bits.ofByte value) h
    (by omega) fun hok =>
      writerSetByte_ready hok hold (by omega) (by omega) hvalue fun hless => by omega
  refine ⟨hw₂, w', ?_, hdoes⟩
  rw [hlength] at hensure
  rw [heapWriterWriteByte, if_pos (by rw [h.stands.currentBitIndex, ha])]
  simp [h.ensured, hset, hensure]

/-! ## Buffers in and out -/

theorem heapWriterSupplyBuffer_spec (malloc : Malloc) {hw : HeapWriter} {w : Writer} (h : hw.Sound w) {b : Buffer}
    (hb : 0 < b.allocatedLength) :
    ∃ isPushed hw' w', heapWriterSupplyBuffer malloc hw b = some (isPushed, hw') ∧ hw.Does w [] [] hw' w' := by
  rw [heapWriterSupplyBuffer, if_pos hb]
  rcases heapQueuePush_spec malloc hw.heap h.stands.freeBuffers b with
    ⟨q', heap', hpush, hq, hcontext⟩ | ⟨heap', hpush, hgoes, herror⟩
  · refine ⟨true, { hw with freeBuffers := q', heap := heap' }, { w with freeBuffers := queuePush w.freeBuffers b },
      by simp [hpush], ⟨⟨h.stands.buffers, hq, h.stands.bytesStored, h.stands.currentBitIndex⟩,
        ⟨h.bounded.full, fun c hc => ?_, h.bounded.last, h.bounded.stored, h.bounded.index_le⟩, h.index_lt, h.size,
        fun he => ?_⟩, fun _ => hcontext, rfl, fun _ => (List.append_nil _).symm⟩
    · rcases List.mem_append.mp hc with hc | hc
      · exact h.bounded.free c hc
      · rw [List.mem_singleton.mp hc]
        exact hb
    · obtain ⟨w', hsupply, hok, -⟩ := writerSupplyBuffer_spec (h.ok (by rw [← hcontext]; exact he)) hb
      rw [writerSupplyBuffer, if_pos hb] at hsupply
      cases hsupply
      exact hok
  · refine ⟨false, { hw with heap := heap' }, w, by simp [hpush],
      ⟨⟨h.stands.buffers, h.stands.freeBuffers, h.stands.bytesStored, h.stands.currentBitIndex⟩, h.bounded, h.index_lt,
        h.size, fun he => ?_⟩, hgoes, rfl, fun _ => (List.append_nil _).symm⟩
    rw [herror] at he
    cases he

theorem heapWriterConsumeFullBuffer_spec {hw : HeapWriter} {w : Writer} (h : hw.Sound w) :
    ∃ hw', heapWriterConsumeFullBuffer hw = some ((writerConsumeFullBuffer w).1, hw') ∧
      hw'.Sound (writerConsumeFullBuffer w).2 ∧ hw'.heap = hw.heap := by
  obtain ⟨full, last, stored, index, stale, free⟩ := w
  have hcount : queueArrayGetCount hw.buffers = full.length + 1 := by
    rw [h.stands.buffers.count, queueGetCount, List.length_append]
    rfl
  rw [heapWriterConsumeFullBuffer, hcount]
  cases full with
  | nil => exact ⟨hw, rfl, h, rfl⟩
  | cons slot rest =>
    rw [if_neg (by simp only [List.length_cons]; omega)]
    rcases h.stands.buffers.pop with ⟨value, q', rest', hspec, hpop, h'⟩ | ⟨hnil, -⟩
    · simp only [List.cons_append, queuePop] at hspec
      cases hspec
      have hstored := h.bounded.stored
      have hhw := h.stands.bytesStored
      simp only [List.map_cons, List.sum_cons] at hstored hhw
      have hlength : (slot.withLength slot.allocatedLength).length = slot.allocatedLength := Nat.min_self _
      refine ⟨{ hw with buffers := q', bytesStored := hw.bytesStored - slot.allocatedLength }, ?_,
        ⟨⟨h', h.stands.freeBuffers, ?_, h.stands.currentBitIndex⟩,
          ⟨fun b hb => h.bounded.full b (List.mem_cons_of_mem _ hb), h.bounded.free, h.bounded.last, ?_,
            h.bounded.index_le⟩, h.index_lt, h.size, fun he => (writerConsumeFullBuffer_spec (h.ok he)).1⟩, rfl⟩
      · simp [hpop, hlength, writerConsumeFullBuffer]
      · simp only [writerConsumeFullBuffer, hhw]
      · simp only [writerConsumeFullBuffer]
        rw [Int.natCast_add] at hstored
        omega
    · cases hnil

theorem memcpyAt_length {bytes source : List Byte} {index : Nat} (h : index + source.length ≤ bytes.length) :
    (memcpyAt bytes index source).length = bytes.length := by
  rw [memcpyAt, List.length_append, List.length_append, List.length_take, List.length_drop]
  omega

/-- The copies stay within an array with room for the full buffers. -/
theorem heapWriterCopyFullBuffers_spec {fuel : Nat} {hw : HeapWriter} {w : Writer} {bytes : List Byte} {index : Nat}
    (h : hw.Sound w) (hfuel : w.fullBuffers.length < fuel)
    (hroom : index + (w.fullBuffers.map Buffer.allocatedLength).sum ≤ bytes.length) :
    ∃ bytes' index' w' hw', writerCopyFullBuffers fuel w bytes index = (bytes', index', w') ∧
      heapWriterCopyFullBuffers fuel hw bytes index = some (bytes', index', hw') ∧ hw'.Sound w' ∧
      hw'.heap = hw.heap := by
  induction fuel generalizing hw w bytes index with
  | zero => omega
  | succ fuel ih =>
    obtain ⟨hw₁, hconsume, h₁, hheap⟩ := heapWriterConsumeFullBuffer_spec h
    obtain ⟨full, last, stored, bitIndex, stale, free⟩ := w
    cases full with
    | nil =>
      rw [writerCopyFullBuffers, heapWriterCopyFullBuffers, hconsume]
      exact ⟨_, _, _, _, rfl, rfl, h₁, hheap⟩
    | cons slot rest =>
      have hslot : 0 < slot.data.length := h.bounded.full slot List.mem_cons_self
      have hlength : (slot.withLength slot.allocatedLength).length = slot.allocatedLength := Nat.min_self _
      have hfull : writerConsumeFullBuffer ⟨slot :: rest, last, stored, bitIndex, stale, free⟩ =
          (slot.withLength slot.allocatedLength, ⟨rest, last, stored - slot.allocatedLength, bitIndex, stale, free⟩) := rfl
      rw [hfull] at hconsume h₁
      simp only [List.map_cons, List.sum_cons] at hroom
      have hne : ¬ (slot.withLength slot.allocatedLength).length = 0 := by
        rw [hlength, Buffer.allocatedLength]
        omega
      have hfits : index + (slot.withLength slot.allocatedLength).bytes.length ≤ bytes.length := by
        rw [Buffer.bytes_length, hlength]
        omega
      obtain ⟨bytes', index', w', hw', hcopy, hheapCopy, h', hheap'⟩ :=
        @ih hw₁ _ (memcpyAt bytes index (slot.withLength slot.allocatedLength).bytes)
          (index + (slot.withLength slot.allocatedLength).length) h₁ (Nat.lt_of_succ_lt_succ hfuel) (by
            rw [memcpyAt_length hfits, hlength, Nat.add_assoc]
            exact hroom)
      refine ⟨bytes', index', w', hw', ?_, ?_, h', hheap'.trans hheap⟩
      · rw [writerCopyFullBuffers, hfull]
        simp only [if_neg hne]
        exact hcopy
      · rw [heapWriterCopyFullBuffers, hconsume]
        simp only [if_neg hne, memcpyWithin, if_pos hfits, Option.bind_eq_bind, Option.bind_some]
        exact hheapCopy

/-- What is in the last buffer, or an error; an error is in the context too. -/
theorem heapWriterConsumeNonemptyBuffer_spec (malloc : Malloc) {hw : HeapWriter} {w : Writer} (h : hw.Sound w)
    (hnone : w.fullBuffers = []) :
    ∃ result hw', heapWriterConsumeNonemptyBuffer malloc hw = some (result, hw') ∧ hw.heap.Goes hw'.heap ∧
      result.isError = contextIsErrored hw'.heap.context ∧
      (result.isError = false → result.buffer.bytes = w.lastBuffer.data.take ((w.currentBitIndex + 7) / 8) ∧
        hw'.bytesStored = w.bytesStored ∧ hw'.currentBitIndex = 0) := by
  have hlt := h.index_lt
  have hindex := h.stands.currentBitIndex
  rw [heapWriterConsumeNonemptyBuffer]
  by_cases herror : contextIsErrored hw.heap.context = true
  · rw [if_pos herror]
    exact ⟨_, hw, rfl, fun _ => rfl, herror.symm, fun he => by cases he⟩
  rw [if_neg herror]
  have hok : contextIsErrored hw.heap.context = false := by
    cases he : contextIsErrored hw.heap.context with
    | false => rfl
    | true => exact absurd he herror
  obtain ⟨hw₁, hconsume, h₁, hheap⟩ := heapWriterConsumeFullBuffer_spec h
  have hempty : writerConsumeFullBuffer w = (EMPTY_BUFFER, w) := by rw [writerConsumeFullBuffer, hnone]
  rw [hempty] at hconsume h₁
  simp only [hconsume, Option.bind_eq_bind, Option.bind_some, emptyBuffer_length, gt_iff_lt, Nat.lt_irrefl, if_false,
    h₁.stands.currentBitIndex]
  by_cases hz : w.currentBitIndex = 0
  · rw [if_pos hz]
    refine ⟨_, hw₁, rfl, fun he => absurd he herror, ?_, fun _ => ⟨?_, h₁.stands.bytesStored, ?_⟩⟩
    · rw [hheap, hok]
      rfl
    · rw [hz]
      rfl
    · rw [h₁.stands.currentBitIndex, hz]
  rw [if_neg hz]
  rcases heapWriterProduceNextBuffer_spec malloc h₁.stands with
    ⟨staleBytes, hw₂, -, hproduce, h₂, -, hcontext⟩ | ⟨hw₂, free, hproduce, -, -, -, hgoes, herror₂⟩
  · simp only [hproduce, Option.bind_some, if_true]
    rcases h₂.buffers.pop with ⟨value, q', rest, hspec, hpop, -⟩ | ⟨hnil, -⟩
    · simp only [writerProduceNextBuffer, hnone, queuePush, List.nil_append, List.cons_append, queuePop] at hspec
      cases hspec
      simp only [hpop, Option.bind_some]
      refine ⟨_, _, rfl, fun he => absurd he herror, ?_, fun _ => ⟨?_, h₂.bytesStored, h₂.currentBitIndex⟩⟩
      · rw [hcontext, hheap, hok]
      · rw [Buffer.bytes]
        show w.lastBuffer.data.take (min _ _) = _
        rw [Nat.min_eq_left (by omega)]
    · cases hfull : (writerProduceNextBuffer { w with staleBytes := staleBytes }).fullBuffers <;>
        rw [hfull] at hnil <;> cases hnil
  · simp only [hproduce, Option.bind_some, Bool.false_eq_true, if_false]
    exact ⟨_, hw₂, rfl, fun he => absurd he herror, herror₂.symm, fun he => by cases he⟩

/-- **All of it, or an error.** -/
theorem heapWriterConsumeAllBuffers_spec (malloc : Malloc) {hw : HeapWriter} {w : Writer} (h : hw.Sound w) :
    ∃ result hw', heapWriterConsumeAllBuffers malloc hw = some (result, hw') ∧ hw.heap.Goes hw'.heap ∧
      result.isError = contextIsErrored hw'.heap.context ∧
      (result.isError = false → ∃ padding, padding < 8 ∧
        Bits.ofBytes result.buffer.bytes = w.bits ++ List.replicate padding false ∧
        heapWriterGetBytesStored hw' = 0) := by
  have hlt := h.index_lt
  have hstored := h.bounded.stored
  have hcount : queueArrayGetCount hw.buffers = w.fullBuffers.length + 1 := by
    rw [h.stands.buffers.count, queueGetCount, List.length_append]
    rfl
  rw [heapWriterConsumeAllBuffers]
  generalize hlength : (heapWriterGetBytesStored hw).toNat = length
  rw [heapWriterGetBytesStored, h.stands.bytesStored, h.stands.currentBitIndex] at hlength
  rcases contextAllocate_spec malloc hw.heap length with
    ⟨room, heap', hmalloc, hroom, hcontext⟩ | ⟨heap', hmalloc, hgoes, herror⟩
  swap
  · simp only [hmalloc]
    exact ⟨_, _, rfl, hgoes, herror.symm, fun he => by cases he⟩
  have h₀ : HeapWriter.Sound { hw with heap := heap' } w :=
    ⟨⟨h.stands.buffers, h.stands.freeBuffers, h.stands.bytesStored, h.stands.currentBitIndex⟩, h.bounded, h.index_lt,
      h.size, fun he => h.ok (by rw [← hcontext]; exact he)⟩
  have hgoes₀ : hw.heap.Goes heap' := fun _ => hcontext
  obtain ⟨bytes₁, index₁, w₁, hw₁, hcopy, hheapCopy, h₁, hheap₁⟩ :=
    @heapWriterCopyFullBuffers_spec (w.fullBuffers.length + 1 + 1) _ _ room 0 h₀ (by omega) (by omega)
  have hspec := @writerCopyFullBuffers_spec w (w.fullBuffers.length + 1 + 1) [] room (by omega) h.bounded.full
  have hsum : (w.fullBuffers.flatMap Buffer.data).length = (w.fullBuffers.map Buffer.allocatedLength).sum := by
    rw [List.length_flatMap]
    rfl
  rw [List.nil_append, List.length_nil, hcopy, List.nil_append, Nat.zero_add] at hspec
  cases hspec
  obtain ⟨result, hw₂, hnonempty, hgoes₂, herror₂, hresult⟩ := heapWriterConsumeNonemptyBuffer_spec malloc h₁ rfl
  rw [hheap₁] at hgoes₂
  simp only [hmalloc, hcount, hheapCopy, Option.bind_eq_bind, Option.bind_some, hnonempty]
  cases hisError : result.isError with
  | true =>
    rw [hisError] at herror₂
    simp only [if_true]
    exact ⟨_, hw₂, rfl, hgoes₀.trans hgoes₂, hisError.trans herror₂, fun he => by rw [hisError] at he; cases he⟩
  | false =>
    obtain ⟨hbytes, hstored₂, hindex₂⟩ := hresult hisError
    have hready := (h.ok (hgoes₀.trans hgoes₂ |>.not_errored (by rw [← herror₂, hisError]))).toWriterReady
    have hs := hready.stored
    have hlast : result.buffer.bytes.length = (w.currentBitIndex + 7) / 8 := by
      rw [hbytes, List.length_take_of_le (by simp only; omega)]
    have hrest : (room.drop (w.fullBuffers.flatMap Buffer.data).length).length = (w.currentBitIndex + 7) / 8 := by
      rw [List.length_drop]
      omega
    have hmemcpy : memcpyAt (w.fullBuffers.flatMap Buffer.data ++ room.drop (w.fullBuffers.flatMap Buffer.data).length)
        (w.fullBuffers.flatMap Buffer.data).length result.buffer.bytes =
          w.fullBuffers.flatMap Buffer.data ++ w.lastBuffer.data.take ((w.currentBitIndex + 7) / 8) := by
      rw [memcpyAt_append, List.drop_of_length_le (by omega), List.append_nil, hbytes]
    have hcopied : (if result.buffer.length > 0 then
        memcpyWithin (w.fullBuffers.flatMap Buffer.data ++ room.drop (w.fullBuffers.flatMap Buffer.data).length)
          (w.fullBuffers.flatMap Buffer.data).length result.buffer.bytes
      else some (w.fullBuffers.flatMap Buffer.data ++ room.drop (w.fullBuffers.flatMap Buffer.data).length)) =
        some (w.fullBuffers.flatMap Buffer.data ++ w.lastBuffer.data.take ((w.currentBitIndex + 7) / 8)) := by
      split
      · rw [memcpyWithin, if_pos (by rw [List.length_append]; omega), hmemcpy]
      · next hzero =>
        rw [Buffer.bytes_length] at hlast
        rw [List.eq_nil_of_length_eq_zero (by omega : (room.drop _).length = 0),
          show (w.currentBitIndex + 7) / 8 = 0 by omega, List.take_zero]
    simp only [Bool.false_eq_true, if_false, hcopied, Option.bind_some]
    refine ⟨_, hw₂, rfl, hgoes₀.trans hgoes₂, ?_, fun _ => ⟨8 * ((w.currentBitIndex + 7) / 8) - w.currentBitIndex,
      by omega, ?_, ?_⟩⟩
    · rw [← herror₂, hisError]
    · rw [bufferMake_bytes, hready.wholeBytes]
    · rw [heapWriterGetBytesStored, hstored₂, hindex₂]
      simp only
      omega

/-! ## Whole runs -/

/-- The first buffer goes to an empty queue. -/
theorem heapWriterInit_spec (malloc : Malloc) (heap : Heap) {singleBufferByteSize : Nat} (queuesSizeShift : Nat)
    (hsize : 0 < singleBufferByteSize) :
    (∃ heap', heapWriterInit malloc heap singleBufferByteSize queuesSizeShift = some (none, heap') ∧
        contextIsErrored heap'.context = true) ∨
      ∃ hw staleBytes, heapWriterInit malloc heap singleBufferByteSize queuesSizeShift = some (some hw, hw.heap) ∧
        contextIsErrored hw.heap.context = false ∧ hw.Sound (writerInit staleBytes) := by
  rw [heapWriterInit]
  rcases heapQueueInit_spec malloc heap queuesSizeShift with
    ⟨buffers, heap₁, hbuffers, hholds, -⟩ | ⟨heap₁, hbuffers, -, herror⟩
  swap
  · simp only [hbuffers]
    exact .inl ⟨_, rfl, herror⟩
  rcases heapQueueInit_spec malloc heap₁ queuesSizeShift with
    ⟨freeBuffers, heap₂, hfreeBuffers, hfree, -⟩ | ⟨heap₂, hfreeBuffers, -, herror⟩
  swap
  · simp only [hbuffers, hfreeBuffers]
    exact .inl ⟨_, rfl, herror⟩
  simp only [hbuffers, hfreeBuffers, heapWriterProduceNextBuffer, heapWriterNextBuffer, hfree.count, queueGetCount,
    List.length_nil, gt_iff_lt, Nat.lt_irrefl, if_false, Option.bind_eq_bind, Option.bind_some]
  rcases contextAllocate_spec malloc heap₂ singleBufferByteSize with
    ⟨bytes, heap₃, hmalloc, hlength, -⟩ | ⟨heap₃, hmalloc, -, herror⟩
  swap
  · simp only [hmalloc, Option.map_none, Option.pure_def, Option.bind_some, herror, if_true]
    exact .inl ⟨_, rfl, herror⟩
  simp only [hmalloc, Option.map_some]
  rcases heapQueuePush_spec malloc heap₃ hholds ((bufferMake bytes).withLength 0) with
    ⟨q', heap₄, hpush, hq, -⟩ | ⟨heap₄, hpush, -, herror⟩
  swap
  · simp only [hpush, Option.pure_def, Option.bind_some, herror, if_true]
    exact .inl ⟨_, rfl, herror⟩
  simp only [hpush, Option.pure_def, Option.bind_some]
  cases he : contextIsErrored heap₄.context with
  | true =>
    simp only [if_true]
    exact .inl ⟨heap₄, rfl, he⟩
  | false =>
    simp only [Bool.false_eq_true, if_false]
    have hok : WriterOK (writerInit bytes) := .init (by rw [hlength]; exact hsize)
    rw [bufferMake_withLength_zero] at hq
    refine .inr ⟨_, bytes, rfl, he, ?_⟩
    exact ⟨⟨hq, hfree, rfl, rfl⟩, hok.toWriterReady.bounded, hok.index_lt, hsize, fun _ => hok⟩

theorem heapWriterApply_spec (malloc : Malloc) {hw : HeapWriter} {w : Writer} {op : WriterOp} {size written : Nat}
    (h : hw.Sound w) (hwritten : w.currentBitIndex % 8 = written % 8) (hop : op.Legal size written) :
    ∃ consumed hw' w', heapWriterApply malloc hw op = some (consumed, hw') ∧ hw.Does w consumed op.bits hw' w' := by
  cases op with
  | writeBit bit =>
    obtain ⟨hw', w', hwrite, hdoes⟩ := heapWriterWriteBit_spec malloc h bit
    exact ⟨[], hw', w', by simp [heapWriterApply, hwrite], hdoes⟩
  | writeByte value =>
    obtain ⟨hw', w', hwrite, hdoes⟩ := heapWriterWriteByte_spec malloc h value (hwritten.trans hop)
    exact ⟨[], hw', w', by simp [heapWriterApply, hwrite], hdoes⟩
  | consumeFullBuffer =>
    obtain ⟨hw', hconsume, hsound, hheap⟩ := heapWriterConsumeFullBuffer_spec h
    refine ⟨_, hw', _, by simp [heapWriterApply, hconsume]; rfl, hsound, fun _ => by rw [hheap], ?_, fun he => ?_⟩
    · obtain ⟨full, last, stored, index, stale, free⟩ := w
      cases full <;> rfl
    · rw [hheap] at he
      exact (writerConsumeFullBuffer_spec (h.ok he)).2.trans (List.append_nil _).symm
  | supplyBuffer b =>
    obtain ⟨isPushed, hw', w', hsupply, hdoes⟩ := heapWriterSupplyBuffer_spec malloc h hop
    exact ⟨[], hw', w', by simp [heapWriterApply, hsupply], hdoes⟩
  | allocationsHold staleBytes => exact ⟨[], hw, w, rfl, .refl h⟩

theorem heapWriterRun_spec (malloc : Malloc) {hw : HeapWriter} {w : Writer} {ops : List WriterOp} {size written : Nat}
    (h : hw.Sound w) (hwritten : w.currentBitIndex % 8 = written % 8) (hops : WriterCalls size written ops) :
    ∃ consumed hw' w', heapWriterRun malloc hw ops = some (consumed, hw') ∧
      hw.Does w consumed (writtenBits ops) hw' w' := by
  induction ops generalizing hw w written with
  | nil => exact ⟨[], hw, w, rfl, .refl h⟩
  | cons op ops ih =>
    obtain ⟨hop, hrest⟩ := hops
    obtain ⟨consumed, hw₁, w₁, happly, hdoes⟩ := heapWriterApply_spec malloc h hwritten hop
    obtain ⟨consumed', hw', w', hrun, hdoes'⟩ := ih hdoes.sound
      (by rw [hdoes.aligned, Nat.add_mod, hwritten, ← Nat.add_mod]) hrest
    exact ⟨consumed ++ consumed', hw', w', by simp [heapWriterRun, happly, hrun], hdoes.trans hdoes'⟩

theorem heapWriterRun_append {malloc : Malloc} {hw hw₁ hw₂ : HeapWriter} {before after : List WriterOp}
    {consumed consumed' : List Byte} (hbefore : heapWriterRun malloc hw before = some (consumed, hw₁))
    (hafter : heapWriterRun malloc hw₁ after = some (consumed', hw₂)) :
    heapWriterRun malloc hw (before ++ after) = some (consumed ++ consumed', hw₂) := by
  induction before generalizing hw consumed with
  | nil =>
    cases hbefore
    exact hafter
  | cons op before ih =>
    obtain ⟨⟨first, hw'⟩, happly, hbefore⟩ := Option.bind_eq_some_iff.1 hbefore
    obtain ⟨⟨rest, hw''⟩, hrest, hbefore⟩ := Option.bind_eq_some_iff.1 hbefore
    cases hbefore
    simp [heapWriterRun, happly, ih hrest]

/-- **Failing allocations do no harm beyond an error.** Whatever the allocator
answers and when, no call leaves the buffers or breaks an assertion. Up to the
first failure no bit is lost; from then on its error stands and is what
`writer_consume_all_buffers` returns. Without one all the written bits are
out, zeroes filling the last byte. -/
theorem writer_failing_allocations (malloc : Malloc) (heap : Heap) (singleBufferByteSize queuesSizeShift : Nat)
    (ops : List WriterOp) (hsize : 0 < singleBufferByteSize) (hops : WriterCalls singleBufferByteSize 0 ops) :
    (∃ heap', heapWriterInit malloc heap singleBufferByteSize queuesSizeShift = some (none, heap') ∧
        contextIsErrored heap'.context = true) ∨
      ∃ w₀ consumed w result w',
        heapWriterInit malloc heap singleBufferByteSize queuesSizeShift = some (some w₀, w₀.heap) ∧
        heapWriterRun malloc w₀ ops = some (consumed, w) ∧
        heapWriterConsumeAllBuffers malloc w = some (result, w') ∧
        result.isError = contextIsErrored w'.heap.context ∧
        (result.isError = false → ∃ padding, padding < 8 ∧
          Bits.ofBytes (consumed ++ result.buffer.bytes) = writtenBits ops ++ List.replicate padding false ∧
          heapWriterGetBytesStored w' = 0) ∧
        ∀ before after, ops = before ++ after → ∃ consumed₁ w₁,
          heapWriterRun malloc w₀ before = some (consumed₁, w₁) ∧
          (contextIsErrored w₁.heap.context = true → w'.heap.context = w₁.heap.context) ∧
          (contextIsErrored w₁.heap.context = false → ∃ unconsumed,
            Bits.ofBytes consumed₁ ++ unconsumed = writtenBits before ∧
            heapWriterGetBytesStored w₁ = ((unconsumed.length + 7) / 8 : Nat)) := by
  rcases heapWriterInit_spec malloc heap queuesSizeShift hsize with hfailed | ⟨w₀, staleBytes, hinit, -, h₀⟩
  · exact .inl hfailed
  obtain ⟨consumed, w, abstract, hrun, hdoes⟩ := heapWriterRun_spec malloc h₀ rfl hops
  obtain ⟨result, w', hall, hgoes, herror, hresult⟩ := heapWriterConsumeAllBuffers_spec malloc hdoes.sound
  refine .inr ⟨w₀, consumed, w, result, w', hinit, hrun, hall, herror, fun hok => ?_, ?_⟩
  · obtain ⟨padding, hpadding, hbits, hstored⟩ := hresult hok
    rw [hok] at herror
    refine ⟨padding, hpadding, ?_, hstored⟩
    rw [Bits.ofBytes_append, hbits, ← List.append_assoc, hdoes.bits (hgoes.not_errored herror.symm), writerInit_bits,
      List.nil_append]
  · rintro before after rfl
    obtain ⟨consumed₁, w₁, abstract₁, hrun₁, hdoes₁⟩ := heapWriterRun_spec malloc h₀ rfl hops.before
    have haligned := hdoes₁.aligned
    refine ⟨consumed₁, w₁, hrun₁, fun he => ?_, fun hok => ⟨abstract₁.bits, ?_, ?_⟩⟩
    · obtain ⟨consumed₂, w₂, abstract₂, hrun₂, hdoes₂⟩ := @heapWriterRun_spec malloc _ _ after singleBufferByteSize
        (0 + (writtenBits before).length) hdoes₁.sound haligned hops.after
      have htwo := heapWriterRun_append hrun₁ hrun₂
      rw [hrun] at htwo
      cases htwo
      exact (hdoes₂.goes.trans hgoes) he
    · rw [hdoes₁.bits hok, writerInit_bits, List.nil_append]
    · rw [heapWriterGetBytesStored, hdoes₁.sound.stands.bytesStored, hdoes₁.sound.stands.currentBitIndex]
      exact writerGetBytesStored_eq (hdoes₁.sound.ok hok).toWriterReady

/-- No memory for the first growth of the queue of buffers. -/
def refusesGrowth : Malloc where
  bytes _ byteSize := some (List.replicate byteSize 0xff)
  slots request := if request = 4 then none else some fun _ => EMPTY_BUFFER
  bytes_length h := by cases h; exact List.length_replicate

/-- The second byte goes over the first, and all comes out as an error. -/
theorem writer_failing_allocations_growth :
    ∃ w₀ consumed w result w', heapWriterInit refusesGrowth { context := contextInit, requests := 0 } 1 1 =
        some (some w₀, w₀.heap) ∧
      heapWriterRun refusesGrowth w₀ [.writeByte 0x41, .writeByte 0x42] = some (consumed, w) ∧
      heapWriterConsumeAllBuffers refusesGrowth w = some (result, w') ∧
      result.isError = contextIsErrored w'.heap.context ∧ w'.heap.context = w.heap.context ∧
      w.heap.context.error = some "Failed to allocate memory: malloc(96)" := by
  rcases writer_failing_allocations refusesGrowth { context := contextInit, requests := 0 } 1 1
    [.writeByte 0x41, .writeByte 0x42] (by decide) ⟨rfl, rfl, trivial⟩ with
    ⟨heap', hinit, -⟩ | ⟨w₀, consumed, w, result, w', hinit, hrun, hall, herror, -, hmoments⟩
  · cases hinit
  · have hmessage : w.heap.context.error = some "Failed to allocate memory: malloc(96)" := by
      cases hinit
      cases hrun
      rfl
    obtain ⟨consumed₁, w₁, hrun₁, hkept, -⟩ := hmoments _ [] (List.append_nil _).symm
    rw [hrun] at hrun₁
    cases hrun₁
    exact ⟨w₀, consumed, w, result, w', hinit, hrun, hall, herror, hkept (by rw [contextIsErrored, hmessage]; rfl), hmessage⟩

end Scomp
