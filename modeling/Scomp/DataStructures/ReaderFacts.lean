/-
What the reader hands out: the bits of its buffers from the bit pointer on.

`unread` is that bit stream, read off the state. `Readable` is all that the
read operations need to hand it out, `ReaderOK` what they and pushes keep in
addition: the current buffer is the queue's, and the counters are exact.
-/
import Scomp.DataStructures.Reader

namespace Scomp

/-- The queue index of the buffer after the current one. -/
def Reader.nextIndex (r : Reader) : Nat := r.exhaustedBuffersCount + (if r.isAtInitialBuffer then 0 else 1)

/-- The buffers after the current one. -/
def Reader.pending (r : Reader) : List Buffer := r.buffers.drop r.nextIndex

/-- The bits not read yet. -/
def Reader.unread (r : Reader) : List Bool :=
  r.currentBuffer.bits.drop r.bitPointer ++ r.pending.flatMap Buffer.bits

/-- The bytes not read yet, of a reader that is not within a byte. -/
def Reader.unreadBytes (r : Reader) : List Byte :=
  r.currentBuffer.bytes.drop (r.bitPointer / 8) ++ r.pending.flatMap Buffer.bytes

structure Reader.Readable (r : Reader) : Prop where
  midByte : r.bitPointer % 8 ≠ 0 → r.bitPointer < 8 * r.currentBuffer.length
  nextIndex_le : r.nextIndex ≤ r.buffers.length
  nonempty : ∀ b ∈ r.buffers, 0 < b.length

structure ReaderOK (r : Reader) : Prop extends r.Readable where
  initial : r.isAtInitialBuffer = true →
    r.exhaustedBuffersCount = 0 ∧ r.currentBuffer = EMPTY_BUFFER ∧ r.bitPointer = 0
  current : r.isAtInitialBuffer = false → r.buffers[r.exhaustedBuffersCount]? = some r.currentBuffer
  pointer_le : r.bitPointer ≤ 8 * r.currentBuffer.length
  unconsumed : r.unconsumedBufferBytesCount =
    (((r.buffers.drop r.exhaustedBuffersCount).map Buffer.length).sum : Nat)

/-- The reader at its next buffer. -/
def Reader.advanced (r : Reader) (b : Buffer) : Reader :=
  { r with
    exhaustedBuffersCount := r.nextIndex
    unconsumedBufferBytesCount := r.unconsumedBufferBytesCount - r.currentBuffer.length
    currentBuffer := b
    isAtInitialBuffer := false
    bitPointer := 0 }

theorem flatMap_bits_length (buffers : List Buffer) :
    (buffers.flatMap Buffer.bits).length = 8 * (buffers.map Buffer.length).sum := by
  induction buffers with
  | nil => rfl
  | cons b buffers ih =>
    simp only [List.flatMap_cons, List.length_append, Buffer.bits_length, ih, List.map_cons, List.sum_cons]
    omega

theorem flatMap_bits (buffers : List Buffer) :
    buffers.flatMap Buffer.bits = Bits.ofBytes (buffers.flatMap Buffer.bytes) := by
  induction buffers with
  | nil => rfl
  | cons b buffers ih => simp [ih, Buffer.bits]

theorem Reader.unread_eq_ofBytes {r : Reader} (ha : r.bitPointer % 8 = 0) :
    r.unread = Bits.ofBytes r.unreadBytes := by
  have hp : r.bitPointer = 8 * (r.bitPointer / 8) := by omega
  rw [Reader.unread, Reader.unreadBytes, Bits.ofBytes_append, Bits.ofBytes_drop, ← hp, flatMap_bits]
  rfl

/-! ## The next buffer -/

theorem readerGetNextBuffer_nil {r : Reader} (h : r.Readable) (hp : r.pending = []) :
    readerGetNextBuffer r = some (false, readerSetUnderflowError r) := by
  have hlen : r.buffers.length ≤ r.nextIndex := List.drop_eq_nil_iff.mp hp
  have hle := h.nextIndex_le
  have hlast : ((queueGetCount r.buffers : Int) + (if r.isAtInitialBuffer then 1 else 0)) - 1
      = r.exhaustedBuffersCount := by
    unfold queueGetCount
    unfold Reader.nextIndex at hlen hle
    cases hi : r.isAtInitialBuffer <;> simp only [hi] at hlen hle ⊢ <;> simp at hlen hle ⊢ <;> omega
  unfold readerGetNextBuffer
  rw [if_pos hlast]

theorem readerGetNextBuffer_cons {r : Reader} {b rest} (hp : r.pending = b :: rest) :
    readerGetNextBuffer r = some (true, r.advanced b) := by
  have hget : r.buffers[r.nextIndex]? = some b := by
    have h0 := congrArg (·[0]?) hp
    simpa [Reader.pending, List.getElem?_drop] using h0
  have hlt : r.nextIndex < r.buffers.length := by
    have hl := congrArg List.length hp
    simp only [Reader.pending, List.length_drop, List.length_cons] at hl
    omega
  have hnot : ¬ ((queueGetCount r.buffers : Int) + (if r.isAtInitialBuffer then 1 else 0)) - 1
      = r.exhaustedBuffersCount := by
    unfold queueGetCount
    unfold Reader.nextIndex at hlt
    cases hi : r.isAtInitialBuffer <;> simp only [hi] at hlt ⊢ <;> simp at hlt ⊢ <;> omega
  have hpeek : queuePeekAt r.buffers r.nextIndex = some b := hget
  unfold Reader.nextIndex at hpeek
  unfold readerGetNextBuffer
  rw [if_neg hnot]
  simp only [hpeek]
  rfl

theorem Reader.advanced_pending {r : Reader} {b rest} (hp : r.pending = b :: rest) :
    (r.advanced b).pending = rest := by
  have htail : r.buffers.drop (r.nextIndex + 1) = rest := by
    rw [← List.drop_drop, show r.buffers.drop r.nextIndex = b :: rest from hp]
    rfl
  exact htail

theorem Reader.advanced_readable {r : Reader} {b rest} (h : r.Readable) (hp : r.pending = b :: rest) :
    (r.advanced b).Readable := by
  have hlt : r.nextIndex < r.buffers.length := by
    have hl := congrArg List.length hp
    simp only [Reader.pending, List.length_drop, List.length_cons] at hl
    omega
  exact ⟨by simp [Reader.advanced], hlt, h.nonempty⟩

theorem Reader.advanced_unread {r : Reader} {b rest} (hp : r.pending = b :: rest)
    (he : 8 * r.currentBuffer.length ≤ r.bitPointer) : (r.advanced b).unread = r.unread := by
  have hdrop : r.currentBuffer.bits.drop r.bitPointer = [] := by
    rw [List.drop_eq_nil_iff, Buffer.bits_length]; exact he
  rw [Reader.unread, Reader.advanced_pending hp, Reader.unread, hp, hdrop]
  simp [Reader.advanced]

theorem Reader.advanced_ok {r : Reader} {b rest} (h : ReaderOK r) (hp : r.pending = b :: rest) :
    ReaderOK (r.advanced b) := by
  have hget : r.buffers[r.nextIndex]? = some b := by
    have h0 := congrArg (·[0]?) hp
    simpa [Reader.pending, List.getElem?_drop] using h0
  refine { Reader.advanced_readable h.toReadable hp with
    initial := by simp [Reader.advanced]
    current := fun _ => hget
    pointer_le := by simp [Reader.advanced]
    unconsumed := ?_ }
  have hu := h.unconsumed
  cases hi : r.isAtInitialBuffer with
  | true =>
    obtain ⟨hzero, hempty, -⟩ := h.initial hi
    simp only [Reader.advanced, Reader.nextIndex, hi, hu, hempty, emptyBuffer_length]
    simp
  | false =>
    have hsplit : r.buffers.drop r.exhaustedBuffersCount =
        r.currentBuffer :: r.buffers.drop (r.exhaustedBuffersCount + 1) := by
      obtain ⟨hlt, hcur⟩ := List.getElem?_eq_some_iff.mp (h.current hi)
      rw [List.drop_eq_getElem_cons hlt, hcur]
    simp only [Reader.advanced, Reader.nextIndex, hi, hu, hsplit, List.map_cons, List.sum_cons]
    simp

/-- Making sure that the current buffer has a byte at the pointer: either
nothing is unread, which is the underflow, or the reader is at that byte. -/
theorem readerEnsureBuffer_spec {r : Reader} (h : r.Readable) (ha : r.bitPointer % 8 = 0) :
    (r.unread = [] ∧ readerEnsureBuffer r = some (false, readerSetUnderflowError r)) ∨
    ∃ r', readerEnsureBuffer r = some (true, r') ∧ (r' = r ∨ ∃ b rest, r.pending = b :: rest ∧ r' = r.advanced b) ∧
      r'.Readable ∧ r'.unread = r.unread ∧ r'.bitPointer % 8 = 0 ∧
      r'.bitPointer / 8 < r'.currentBuffer.length := by
  unfold readerEnsureBuffer
  split
  · next hle =>
    have he : 8 * r.currentBuffer.length ≤ r.bitPointer := by omega
    match hp : r.pending with
    | [] =>
      refine .inl ⟨?_, readerGetNextBuffer_nil h hp⟩
      have hdrop : r.currentBuffer.bits.drop r.bitPointer = [] := by
        rw [List.drop_eq_nil_iff, Buffer.bits_length]; exact he
      rw [Reader.unread, hp, hdrop]
      rfl
    | b :: rest =>
      have hb : b ∈ r.buffers := by
        have hmem : b ∈ r.pending := by rw [hp]; exact List.mem_cons_self
        exact List.mem_of_mem_drop hmem
      exact .inr ⟨r.advanced b, readerGetNextBuffer_cons hp, .inr ⟨b, rest, rfl, rfl⟩,
        Reader.advanced_readable h hp, Reader.advanced_unread hp he, rfl,
        by simpa [Reader.advanced] using h.nonempty b hb⟩
  · next hlt => exact .inr ⟨r, rfl, .inl rfl, h, rfl, ha, by omega⟩

/-! ## Reads -/

/-- The low bit after a shift is the byte's bit. -/
theorem shifted_bit (b : Byte) {i : Nat} (hi : i < 8) :
    (b >>> UInt8.ofNat i) &&& 1 = (b.toNat.testBit i).toUInt8 := by
  apply UInt8.toNat_inj.mp
  rw [UInt8.toNat_and, UInt8.toNat_shiftRight, Nat.testBit_eq_decide_div_mod_eq]
  have hi8 : (UInt8.ofNat i).toNat % 8 = i := by
    rw [UInt8.toNat_ofNat']
    omega
  rw [hi8, Nat.shiftRight_eq_div_pow, show UInt8.toNat 1 = 1 from rfl, Nat.and_one_is_mod]
  rcases Nat.mod_two_eq_zero_or_one (b.toNat / 2 ^ i) with h | h <;> rw [h] <;> rfl

/-- Reading the bit at the pointer of the current buffer. -/
theorem currentBit_spec {r : Reader} (h : r.Readable) (hlt : r.bitPointer / 8 < r.currentBuffer.length) :
    ∃ b bit rest, r.currentBuffer.bytes[r.bitPointer / 8]? = some b ∧
      (b >>> UInt8.ofNat (r.bitPointer % 8)) &&& 1 = bit.toUInt8 ∧ r.unread = bit :: rest ∧
      { r with bitPointer := r.bitPointer + 1 }.unread = rest ∧
      { r with bitPointer := r.bitPointer + 1 }.Readable := by
  have hlen : r.bitPointer / 8 < r.currentBuffer.bytes.length := by rw [Buffer.bytes_length]; exact hlt
  have hb := List.getElem?_eq_getElem hlen
  generalize r.currentBuffer.bytes[r.bitPointer / 8] = b at hb
  have hbit : r.currentBuffer.bits[r.bitPointer]? = some (b.toNat.testBit (r.bitPointer % 8)) :=
    Bits.ofBytes_getElem? hb
  obtain ⟨hltb, hget⟩ := List.getElem?_eq_some_iff.mp hbit
  refine ⟨b, _, _, hb, shifted_bit b (Nat.mod_lt _ (by decide)), ?_, rfl, ?_⟩
  · rw [Reader.unread, List.drop_eq_getElem_cons hltb, hget]
    rfl
  · exact ⟨fun hmid => by simp only at hmid ⊢; omega, h.nextIndex_le, h.nonempty⟩

/-- A reader keeps its invariant through a read that stays in the buffer. -/
theorem ReaderOK.advance {r : Reader} {n} (h : ReaderOK r) (hn : r.bitPointer + n ≤ 8 * r.currentBuffer.length)
    (hpos : 0 < n) : ReaderOK { r with bitPointer := r.bitPointer + n } := by
  refine ⟨⟨fun hmid => ?_, h.nextIndex_le, h.nonempty⟩, fun hi => ?_, h.current, hn, h.unconsumed⟩
  · simp only at hmid ⊢
    omega
  · obtain ⟨-, hempty, -⟩ := h.initial hi
    rw [hempty, emptyBuffer_length] at hn
    omega

/-- Setting the error changes nothing that is read. -/
theorem ReaderOK.underflow {r : Reader} (h : ReaderOK r) : ReaderOK (readerSetUnderflowError r) :=
  ⟨⟨h.midByte, h.nextIndex_le, h.nonempty⟩, h.initial, h.current, h.pointer_le, h.unconsumed⟩

/-- **A bit read is the first unread bit.** -/
theorem readerReadBit_cons {r : Reader} {bit rest} (h : r.Readable) (hu : r.unread = bit :: rest) :
    ∃ r', readerReadBit r = some (bit.toUInt8, r') ∧ r'.Readable ∧ r'.unread = rest ∧
      r'.context = r.context ∧ r'.buffers = r.buffers ∧ (ReaderOK r → ReaderOK r') := by
  have hread : ∀ r₁ : Reader, r₁.Readable → r₁.unread = bit :: rest →
      r₁.bitPointer / 8 < r₁.currentBuffer.length → ∃ b, r₁.currentBuffer.bytes[r₁.bitPointer / 8]? = some b ∧
        (b >>> UInt8.ofNat (r₁.bitPointer % 8)) &&& 1 = bit.toUInt8 ∧
        { r₁ with bitPointer := r₁.bitPointer + 1 }.Readable ∧
        { r₁ with bitPointer := r₁.bitPointer + 1 }.unread = rest := by
    intro r₁ h₁ hu₁ hlt
    obtain ⟨b, bit', rest', hb, hbit, hun, hrest, hok⟩ := currentBit_spec h₁ hlt
    rw [hu₁] at hun
    obtain ⟨rfl, rfl⟩ := List.cons.inj hun
    exact ⟨b, hb, hbit, hok, hrest⟩
  by_cases ha : r.bitPointer % 8 = 0
  · rcases readerEnsureBuffer_spec h ha with ⟨hnil, -⟩ | ⟨r₁, he, hr₁, h₁, hu₁, -, hlt⟩
    · rw [hu] at hnil; cases hnil
    · obtain ⟨b, hb, hbit, hok, hrest⟩ := hread r₁ h₁ (hu₁.trans hu) hlt
      refine ⟨{ r₁ with bitPointer := r₁.bitPointer + 1 }, ?_, hok, hrest, ?_, ?_, fun hr => ?_⟩
      · simp only [readerReadBit, if_pos ha, he, Option.bind_eq_bind, Option.bind_some, if_true, hb, hbit]
        rfl
      · rcases hr₁ with rfl | ⟨_, _, _, rfl⟩ <;> rfl
      · rcases hr₁ with rfl | ⟨_, _, _, rfl⟩ <;> rfl
      · have hok₁ : ReaderOK r₁ := by
          rcases hr₁ with rfl | ⟨_, _, hp, rfl⟩
          · exact hr
          · exact Reader.advanced_ok hr hp
        exact hok₁.advance (by omega) (by decide)
  · have hlt := h.midByte ha
    obtain ⟨b, hb, hbit, hok, hrest⟩ := hread r h hu (by omega)
    refine ⟨{ r with bitPointer := r.bitPointer + 1 }, ?_, hok, hrest, rfl, rfl, fun hr => ?_⟩
    · simp only [readerReadBit, if_neg ha, Option.bind_eq_bind, Option.bind_some, if_true, hb, hbit]
      rfl
    · exact hr.advance (by omega) (by decide)

/-- A bit read with nothing unread is zero, with the error set. -/
theorem readerReadBit_nil {r : Reader} (h : r.Readable) (hu : r.unread = []) :
    readerReadBit r = some (0, readerSetUnderflowError r) := by
  have ha : r.bitPointer % 8 = 0 := by
    by_contra hmid
    have hlt := h.midByte hmid
    have hnil := (List.append_eq_nil_iff.mp hu).1
    rw [List.drop_eq_nil_iff, Buffer.bits_length] at hnil
    omega
  rcases readerEnsureBuffer_spec h ha with ⟨-, he⟩ | ⟨r₁, -, -, h₁, hu₁, -, hlt⟩
  · simp only [readerReadBit, if_pos ha, he, Option.bind_eq_bind, Option.bind_some]
    rfl
  · obtain ⟨_, _, _, -, -, hun, -⟩ := currentBit_spec h₁ hlt
    rw [hu₁, hu] at hun
    cases hun

/-- **A byte peeked at is the first unread byte**, and stays unread. -/
theorem readerPeekByte_cons {r : Reader} {b rest} (h : r.Readable) (ha : r.bitPointer % 8 = 0)
    (hu : r.unreadBytes = b :: rest) :
    ∃ r', readerPeekByte r = some (b, r') ∧ (r' = r ∨ ∃ b rest, r.pending = b :: rest ∧ r' = r.advanced b) ∧
      r'.Readable ∧ r'.bitPointer % 8 = 0 ∧ r'.unreadBytes = b :: rest ∧
      r'.bitPointer / 8 < r'.currentBuffer.length ∧ r'.context = r.context ∧ r'.buffers = r.buffers ∧
      (ReaderOK r → ReaderOK r') := by
  rcases readerEnsureBuffer_spec h ha with ⟨hnil, -⟩ | ⟨r₁, he, hr₁, h₁, hu₁, ha₁, hlt⟩
  · rw [Reader.unread_eq_ofBytes ha, hu] at hnil
    have hl := congrArg List.length hnil
    simp at hl
  · have hbytes : r₁.unreadBytes = b :: rest := by
      rw [Reader.unread_eq_ofBytes ha, Reader.unread_eq_ofBytes ha₁, hu] at hu₁
      exact Bits.ofBytes_injective hu₁
    have hlen : r₁.bitPointer / 8 < r₁.currentBuffer.bytes.length := by rw [Buffer.bytes_length]; exact hlt
    have hb : r₁.currentBuffer.bytes[r₁.bitPointer / 8]? = some b := by
      rw [Reader.unreadBytes, List.drop_eq_getElem_cons hlen, List.cons_append] at hbytes
      rw [List.getElem?_eq_getElem hlen, (List.cons.inj hbytes).1]
    refine ⟨r₁, ?_, hr₁, h₁, ha₁, hbytes, hlt, ?_, ?_, fun hr => ?_⟩
    · simp only [readerPeekByte, if_pos ha, he, Option.bind_eq_bind, Option.bind_some, if_true, hb]
      rfl
    · rcases hr₁ with rfl | ⟨_, _, _, rfl⟩ <;> rfl
    · rcases hr₁ with rfl | ⟨_, _, _, rfl⟩ <;> rfl
    · rcases hr₁ with rfl | ⟨_, _, hp, rfl⟩
      · exact hr
      · exact Reader.advanced_ok hr hp

/-- A byte peeked at with nothing unread is zero, with the error set. -/
theorem readerPeekByte_nil {r : Reader} (h : r.Readable) (ha : r.bitPointer % 8 = 0) (hu : r.unread = []) :
    readerPeekByte r = some (0, readerSetUnderflowError r) := by
  rcases readerEnsureBuffer_spec h ha with ⟨-, he⟩ | ⟨r₁, -, -, h₁, hu₁, -, hlt⟩
  · simp only [readerPeekByte, if_pos ha, he, Option.bind_eq_bind, Option.bind_some]
    rfl
  · obtain ⟨_, _, _, -, -, hun, -⟩ := currentBit_spec h₁ hlt
    rw [hu₁, hu] at hun
    cases hun

/-- **A byte read is the first unread byte.** -/
theorem readerReadByte_cons {r : Reader} {b rest} (h : r.Readable) (ha : r.bitPointer % 8 = 0)
    (hu : r.unreadBytes = b :: rest) :
    ∃ r', readerReadByte r = some (b, r') ∧ r'.Readable ∧ r'.bitPointer % 8 = 0 ∧ r'.unreadBytes = rest ∧
      r'.context = r.context ∧ r'.buffers = r.buffers ∧ (ReaderOK r → ReaderOK r') := by
  obtain ⟨r₁, hp, -, h₁, ha₁, hu₁, hlt, hctx, hbuf, hok⟩ := readerPeekByte_cons h ha hu
  refine ⟨{ r₁ with bitPointer := r₁.bitPointer + 8 }, ?_, ⟨fun hmid => ?_, h₁.nextIndex_le, h₁.nonempty⟩,
    by simp only; omega, ?_, hctx, hbuf, fun hr => (hok hr).advance (by omega) (by decide)⟩
  · simp only [readerReadByte, hp, Option.bind_eq_bind, Option.bind_some]
    rfl
  · simp only at hmid
    omega
  · have hlen : r₁.bitPointer / 8 < r₁.currentBuffer.bytes.length := by rw [Buffer.bytes_length]; exact hlt
    have hnext : (r₁.bitPointer + 8) / 8 = r₁.bitPointer / 8 + 1 := by omega
    rw [Reader.unreadBytes, List.drop_eq_getElem_cons hlen, List.cons_append] at hu₁
    rw [Reader.unreadBytes, hnext]
    exact (List.cons.inj hu₁).2

/-! ## Pushes and counters -/

theorem readerPushBuffer_spec {r : Reader} {b : Buffer} (h : r.Readable) (hb : 0 < b.length) :
    ∃ r', readerPushBuffer r b = some r' ∧ r'.Readable ∧ r'.unread = r.unread ++ b.bits ∧
      r'.bitPointer = r.bitPointer ∧ r'.context = r.context ∧ (ReaderOK r → ReaderOK r') := by
  have hdrop : (r.buffers ++ [b]).drop r.nextIndex = r.buffers.drop r.nextIndex ++ [b] :=
    List.drop_append_of_le_length h.nextIndex_le
  have hle := h.nextIndex_le
  have hnonempty : ∀ c ∈ r.buffers ++ [b], 0 < c.length := by
    intro c hc
    rcases List.mem_append.mp hc with hc | hc
    · exact h.nonempty c hc
    · rw [List.mem_singleton.mp hc]; exact hb
  refine ⟨_, if_pos hb, ⟨h.midByte, ?_, hnonempty⟩, ?_, rfl, rfl, fun hr => ⟨⟨h.midByte, ?_, hnonempty⟩, hr.initial,
    fun hi => ?_, hr.pointer_le, ?_⟩⟩
  · simp only [queuePush, List.length_append, Reader.nextIndex] at hle ⊢
    omega
  · simp only [Reader.unread, Reader.pending, Reader.nextIndex, queuePush] at hdrop ⊢
    rw [hdrop, List.flatMap_append, List.append_assoc]
    simp
  · simp only [queuePush, List.length_append, Reader.nextIndex] at hle ⊢
    omega
  · have hcur := hr.current hi
    obtain ⟨hlt, -⟩ := List.getElem?_eq_some_iff.mp hcur
    simp only [queuePush]
    rw [List.getElem?_append_left hlt]
    exact hcur
  · have hex : r.exhaustedBuffersCount ≤ r.buffers.length := by
      unfold Reader.nextIndex at hle
      omega
    simp only [queuePush]
    rw [List.drop_append_of_le_length hex, hr.unconsumed]
    simp

/-- Recovering takes an exhausted buffer off the queue and leaves what is
unread. -/
theorem readerRecover_spec {r r' : Reader} {b} (h : ReaderOK r) (hr : readerRecoverExhaustedBuffer r = some (b, r')) :
    ReaderOK r' ∧ r'.unread = r.unread ∧ r.buffers = b :: r'.buffers ∧ r'.context = r.context := by
  unfold readerRecoverExhaustedBuffer at hr
  split at hr
  · next hex =>
    have hpos : 0 < r.exhaustedBuffersCount := by simpa [readerHasExhaustedBuffer] using hex
    have hi : r.isAtInitialBuffer = false := by
      cases hi : r.isAtInitialBuffer with
      | false => rfl
      | true => have := (h.initial hi).1; omega
    match hq : r.buffers with
    | [] => rw [hq] at hr; cases hr
    | c :: buffers =>
      rw [hq] at hr
      cases hr
      obtain ⟨n, hn⟩ : ∃ n, r.exhaustedBuffersCount = n + 1 := ⟨_, (Nat.succ_pred_eq_of_pos hpos).symm⟩
      have hnext := h.nextIndex_le
      have hcur := h.current hi
      have hsum := h.unconsumed
      simp only [Reader.nextIndex, hi, hq, hn, List.length_cons] at hnext
      rw [hq, hn] at hcur hsum
      refine ⟨⟨⟨h.midByte, ?_, fun c' hc' => h.nonempty c' ?_⟩, ?_, fun _ => ?_, h.pointer_le, ?_⟩, ?_, rfl, rfl⟩
      · simp only [Reader.nextIndex, hi, hn]
        simp at hnext ⊢
        omega
      · rw [hq]; exact List.mem_cons_of_mem _ hc'
      · simp [hi]
      · simpa [hn] using hcur
      · simpa [hn] using hsum
      · simp [Reader.unread, Reader.pending, Reader.nextIndex, hi, hn, hq]
  · cases hr

theorem readerRecover_of_exhausted {r : Reader} (h : ReaderOK r) (hex : readerHasExhaustedBuffer r = true) :
    ∃ b r', readerRecoverExhaustedBuffer r = some (b, r') := by
  have hpos : 0 < r.exhaustedBuffersCount := by simpa [readerHasExhaustedBuffer] using hex
  have hle := h.nextIndex_le
  unfold Reader.nextIndex at hle
  match hq : r.buffers with
  | [] =>
    rw [hq, List.length_nil] at hle
    omega
  | b :: buffers => exact ⟨b, _, by rw [readerRecoverExhaustedBuffer, if_pos hex, hq]; rfl⟩

theorem ReaderOK.init (context : Context) : ReaderOK (readerInit context) :=
  ⟨⟨by simp [readerInit], by simp [readerInit, Reader.nextIndex], by simp [readerInit]⟩,
    fun _ => ⟨rfl, rfl, rfl⟩, by simp [readerInit], by simp [readerInit], by simp [readerInit]⟩

/-- **The reader counts its unread bits exactly.** -/
theorem readerGetBitsAvailable_eq {r : Reader} (h : ReaderOK r) : readerGetBitsAvailable r = r.unread.length := by
  have hsum : ((r.buffers.drop r.exhaustedBuffersCount).map Buffer.length).sum =
      r.currentBuffer.length + (r.pending.map Buffer.length).sum := by
    cases hi : r.isAtInitialBuffer with
    | true =>
      obtain ⟨-, hempty, -⟩ := h.initial hi
      simp [Reader.pending, Reader.nextIndex, hi, hempty]
    | false =>
      obtain ⟨hlt, hcur⟩ := List.getElem?_eq_some_iff.mp (h.current hi)
      rw [List.drop_eq_getElem_cons hlt, hcur]
      simp [Reader.pending, Reader.nextIndex, hi]
  have hle := h.pointer_le
  rw [readerGetBitsAvailable, h.unconsumed, hsum, Reader.unread, List.length_append, List.length_drop,
    Buffer.bits_length, flatMap_bits_length]
  omega

theorem readerGetBytesAvailable_eq {r : Reader} (h : ReaderOK r) (ha : r.bitPointer % 8 = 0) :
    readerGetBytesAvailable r = some (r.unreadBytes.length : Int) := by
  have hbits := readerGetBitsAvailable_eq h
  rw [Reader.unread_eq_ofBytes ha, Bits.ofBytes_length, readerGetBitsAvailable] at hbits
  rw [readerGetBytesAvailable, if_pos ha, Option.some.injEq]
  omega

end Scomp
