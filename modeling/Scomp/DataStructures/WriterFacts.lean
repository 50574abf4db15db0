/-
What the writer collects: every write appends to its bits, and consuming
all of it hands them out, padded to a whole byte.
-/
import Scomp.DataStructures.Writer

namespace Scomp

/-- The bits written and not yet consumed. -/
def Writer.bits (w : Writer) : List Bool :=
  Bits.ofBytes (w.fullBuffers.flatMap Buffer.data) ++ (Bits.ofBytes w.lastBuffer.data).take w.currentBitIndex

/-- The bytes of a writer that is not within a byte. -/
def Writer.bytes (w : Writer) : List Byte :=
  w.fullBuffers.flatMap Buffer.data ++ w.lastBuffer.data.take (w.currentBitIndex / 8)

/-- What holds between two writes; within one the last buffer may be full
(`index_le`). -/
structure WriterReady (w : Writer) : Prop where
  full : ∀ b ∈ w.fullBuffers, 0 < b.data.length
  free : ∀ b ∈ w.freeBuffers, 0 < b.data.length
  stale : 0 < w.staleBytes.length
  last : 0 < w.lastBuffer.data.length
  stored : w.bytesStored = ((w.fullBuffers.map Buffer.allocatedLength).sum : Nat)
  index_le : w.currentBitIndex ≤ 8 * w.lastBuffer.data.length
  /-- No stale bit is left above the bits of a partial byte. -/
  partialByte : w.currentBitIndex % 8 ≠ 0 →
    (w.lastBuffer.data.getD (w.currentBitIndex / 8) 0).toNat < 2 ^ (w.currentBitIndex % 8)

structure WriterOK (w : Writer) : Prop extends WriterReady w where
  index_lt : w.currentBitIndex < 8 * w.lastBuffer.data.length

theorem WriterOK.init {staleBytes : List Byte} (h : 0 < staleBytes.length) : WriterOK (writerInit staleBytes) :=
  ⟨⟨by simp [writerInit], by simp [writerInit], h, h, by simp [writerInit], by simp [writerInit],
    by simp [writerInit]⟩, by simp [writerInit]; exact h⟩

@[simp] theorem writerInit_bits (staleBytes : List Byte) : (writerInit staleBytes).bits = [] := by
  simp [Writer.bits, writerInit]

/-! ## The buffer to write into -/

theorem writerEnsureBuffer_of_ok {w : Writer} (h : WriterOK w) : writerEnsureBuffer w = w := by
  have hlt := h.index_lt
  unfold writerEnsureBuffer Buffer.allocatedLength
  rw [if_neg (by omega)]

/-- A full last buffer joins the full ones. -/
theorem writerEnsureBuffer_spec {w : Writer} (h : WriterReady w) :
    WriterOK (writerEnsureBuffer w) ∧ (writerEnsureBuffer w).bits = w.bits := by
  have hle := h.index_le
  unfold writerEnsureBuffer
  split
  · next hfull =>
    unfold Buffer.allocatedLength at hfull
    have hidx : w.currentBitIndex = 8 * w.lastBuffer.data.length := by omega
    have hnext : 0 < (writerNextBuffer w).1.data.length ∧ ∀ b ∈ (writerNextBuffer w).2, 0 < b.data.length := by
      unfold writerNextBuffer
      match hf : w.freeBuffers with
      | [] => exact ⟨h.stale, by simp⟩
      | b :: rest =>
        exact ⟨h.free b (by rw [hf]; exact List.mem_cons_self),
          fun c hc => h.free c (by rw [hf]; exact List.mem_cons_of_mem _ hc)⟩
    refine ⟨⟨⟨fun b hb => ?_, hnext.2, h.stale, hnext.1, ?_, Nat.zero_le _, fun hp => absurd rfl hp⟩, ?_⟩, ?_⟩
    · rcases List.mem_append.mp hb with hb | hb
      · exact h.full b hb
      · rw [List.mem_singleton.mp hb]; exact h.last
    · have hstored := h.stored
      simp only [writerProduceNextBuffer, queuePush, List.map_append, List.map_cons, List.map_nil,
        List.sum_append, List.sum_cons, List.sum_nil, Buffer.allocatedLength] at hstored ⊢
      rw [hstored]
      push_cast
      omega
    · exact Nat.mul_pos (by decide) hnext.1
    · simp only [Writer.bits, writerProduceNextBuffer, queuePush, List.take_zero, List.append_nil, hidx]
      rw [List.take_of_length_le (by rw [Bits.ofBytes_length])]
      simp
  · next hfull =>
    unfold Buffer.allocatedLength at hfull
    exact ⟨⟨h, by omega⟩, rfl⟩

/-! ## Writes -/

/-- The first bits of bytes, up to within the byte at `k`. -/
theorem ofBytes_take {bytes : List Byte} {k m : Nat} {b : Byte} (hb : bytes[k]? = some b) (hm : m ≤ 8) :
    (Bits.ofBytes bytes).take (8 * k + m) = Bits.ofBytes (bytes.take k) ++ (Bits.ofByte b).take m := by
  obtain ⟨hlt, hget⟩ := List.getElem?_eq_some_iff.mp hb
  have hsplit : bytes = bytes.take k ++ b :: bytes.drop (k + 1) := by
    rw [← hget, ← List.drop_eq_getElem_cons hlt, List.take_append_drop]
  have hlen : (Bits.ofBytes (bytes.take k)).length = 8 * k := by
    rw [Bits.ofBytes_length, List.length_take_of_le (Nat.le_of_lt hlt)]
  conv_lhs => rw [hsplit, Bits.ofBytes_append, Bits.ofBytes_cons]
  rw [List.take_append, hlen, List.take_of_length_le (by omega), Nat.add_sub_cancel_left,
    List.take_append_of_le_length (by rw [Bits.ofByte_length]; exact hm)]

/-- A byte set at the position of the writer, with the bits that were written
in it kept and `more` after them. -/
theorem writerSetByte_ready {w : Writer} {old value : Byte} {n : Nat} {more : List Bool} (h : WriterOK w)
    (hold : w.lastBuffer.data[w.currentBitIndex / 8]? = some old) (hpos : 0 < n) (hn : w.currentBitIndex % 8 + n ≤ 8)
    (hvalue : (Bits.ofByte value).take (w.currentBitIndex % 8 + n) =
      (Bits.ofByte old).take (w.currentBitIndex % 8) ++ more)
    (hsmall : w.currentBitIndex % 8 + n < 8 → value.toNat < 2 ^ (w.currentBitIndex % 8 + n)) :
    let w' := { w with
      lastBuffer := w.lastBuffer.setByte (w.currentBitIndex / 8) value
      currentBitIndex := w.currentBitIndex + n }
    WriterReady w' ∧ w'.bits = w.bits ++ more := by
  have hlt := h.index_lt
  have hk : w.currentBitIndex / 8 < w.lastBuffer.data.length := by omega
  have hidx : w.currentBitIndex = 8 * (w.currentBitIndex / 8) + w.currentBitIndex % 8 := by omega
  have hset : (w.lastBuffer.data.set (w.currentBitIndex / 8) value)[w.currentBitIndex / 8]? = some value := by
    rw [List.getElem?_set_self hk]
  refine ⟨⟨h.full, h.free, h.stale, ?_, h.stored, ?_, fun hp => ?_⟩, ?_⟩
  · simp only [Buffer.setByte, List.length_set]; exact h.last
  · simp only [Buffer.setByte, List.length_set]; omega
  · simp only at hp ⊢
    have hk' : (w.currentBitIndex + n) / 8 = w.currentBitIndex / 8 := by omega
    have hj' : (w.currentBitIndex + n) % 8 = w.currentBitIndex % 8 + n := by omega
    rw [hk', hj', List.getD_eq_getElem?_getD, Buffer.setByte, hset]
    exact hsmall (by omega)
  have htake : (w.lastBuffer.data.set (w.currentBitIndex / 8) value).take (w.currentBitIndex / 8) =
      w.lastBuffer.data.take (w.currentBitIndex / 8) := List.take_set_of_le (Nat.le_refl _)
  have hlast : (Bits.ofBytes (w.lastBuffer.data.set (w.currentBitIndex / 8) value)).take (w.currentBitIndex + n) =
      (Bits.ofBytes w.lastBuffer.data).take w.currentBitIndex ++ more := by
    have hnewTake := ofBytes_take hset hn
    have holdTake := @ofBytes_take _ _ (w.currentBitIndex % 8) _ hold (by omega)
    rw [← Nat.add_assoc, ← hidx] at hnewTake
    rw [← hidx] at holdTake
    rw [hnewTake, holdTake, htake, hvalue, List.append_assoc]
  simp only [Writer.bits, Buffer.setByte, hlast, List.append_assoc]

theorem writerSetByte_spec {w : Writer} {old value : Byte} {n : Nat} {more : List Bool} (h : WriterOK w)
    (hold : w.lastBuffer.data[w.currentBitIndex / 8]? = some old) (hpos : 0 < n) (hn : w.currentBitIndex % 8 + n ≤ 8)
    (hvalue : (Bits.ofByte value).take (w.currentBitIndex % 8 + n) =
      (Bits.ofByte old).take (w.currentBitIndex % 8) ++ more)
    (hsmall : w.currentBitIndex % 8 + n < 8 → value.toNat < 2 ^ (w.currentBitIndex % 8 + n)) :
    let w' := writerEnsureBuffer { w with
      lastBuffer := w.lastBuffer.setByte (w.currentBitIndex / 8) value
      currentBitIndex := w.currentBitIndex + n }
    WriterOK w' ∧ w'.bits = w.bits ++ more := by
  obtain ⟨hready, hbits⟩ := writerSetByte_ready h hold hpos hn hvalue hsmall
  obtain ⟨hok, heq⟩ := writerEnsureBuffer_spec hready
  exact ⟨hok, heq.trans hbits⟩

/-- The byte with one more bit in it; the first bit of a byte clears it. -/
theorem WriterReady.withBit {w : Writer} {old : Byte} (h : WriterReady w)
    (hold : w.lastBuffer.data[w.currentBitIndex / 8]? = some old) (bit : Bool) :
    let value := (if w.currentBitIndex % 8 = 0 then 0 else old) ||| (bit.toUInt8 <<< UInt8.ofNat (w.currentBitIndex % 8))
    (Bits.ofByte value).take (w.currentBitIndex % 8 + 1) = (Bits.ofByte old).take (w.currentBitIndex % 8) ++ [bit] ∧
      value.toNat < 2 ^ (w.currentBitIndex % 8 + 1) := by
  have hj : w.currentBitIndex % 8 < 8 := Nat.mod_lt _ (by decide)
  generalize hb : (if w.currentBitIndex % 8 = 0 then 0 else old) = b
  have hsmall : b.toNat < 2 ^ (w.currentBitIndex % 8) := by
    subst hb
    split
    · next hz => rw [hz]; decide
    · next hz =>
      have hp := h.partialByte hz
      rw [List.getD_eq_getElem?_getD, hold] at hp
      exact hp
  have hkeep : (Bits.ofByte b).take (w.currentBitIndex % 8) = (Bits.ofByte old).take (w.currentBitIndex % 8) := by
    subst hb
    split
    · next hz => rw [hz]; rfl
    · rfl
  obtain ⟨hnew, hbits⟩ := Bits.ofByte_or_shift bit hj hsmall
  rw [hkeep] at hbits
  exact ⟨hbits, hnew⟩

/-- **A bit written is the next bit.** -/
theorem writerWriteBit_spec {w : Writer} {bit} (h : WriterOK w) :
    WriterOK (writerWriteBit w bit) ∧ (writerWriteBit w bit).bits = w.bits ++ [bit] := by
  have hlt := h.index_lt
  have hj : w.currentBitIndex % 8 < 8 := Nat.mod_lt _ (by decide)
  obtain ⟨old, hold⟩ : ∃ old, w.lastBuffer.data[w.currentBitIndex / 8]? = some old :=
    ⟨_, List.getElem?_eq_getElem (by omega)⟩
  have hgetD : w.lastBuffer.data.getD (w.currentBitIndex / 8) 0 = old := by
    rw [List.getD_eq_getElem?_getD, hold]; rfl
  obtain ⟨hbits, hnew⟩ := h.withBit hold bit
  have hwrite : writerWriteBit w bit = writerEnsureBuffer { w with
      lastBuffer := w.lastBuffer.setByte (w.currentBitIndex / 8)
        ((if w.currentBitIndex % 8 = 0 then 0 else old) ||| (bit.toUInt8 <<< UInt8.ofNat (w.currentBitIndex % 8)))
      currentBitIndex := w.currentBitIndex + 1 } := by
    simp only [writerWriteBit, writerEnsureBuffer_of_ok h, hgetD]
  rw [hwrite]
  exact writerSetByte_spec h hold Nat.one_pos (Nat.succ_le_of_lt hj) hbits fun _ => hnew

/-- **A byte written is the next eight bits.** -/
theorem writerWriteByte_spec {w : Writer} {value} (h : WriterOK w) (ha : w.currentBitIndex % 8 = 0) :
    ∃ w', writerWriteByte w value = some w' ∧ WriterOK w' ∧ w'.bits = w.bits ++ Bits.ofByte value := by
  have hlt := h.index_lt
  obtain ⟨old, hold⟩ : ∃ old, w.lastBuffer.data[w.currentBitIndex / 8]? = some old :=
    ⟨_, List.getElem?_eq_getElem (by omega)⟩
  have hvalue : (Bits.ofByte value).take (w.currentBitIndex % 8 + 8) =
      (Bits.ofByte old).take (w.currentBitIndex % 8) ++ Bits.ofByte value := by
    rw [ha, List.take_zero, List.nil_append]
    exact List.take_of_length_le (by rw [Bits.ofByte_length])
  refine ⟨_, ?_, writerSetByte_spec h hold (by decide) (by omega) hvalue fun hless => by omega⟩
  rw [writerWriteByte, if_pos ha, writerEnsureBuffer_of_ok h]

/-! ## Byte-wise writing -/

/-- A well-formed writer on a byte boundary. -/
structure WriterAtByte (w : Writer) : Prop where
  ok : WriterOK w
  aligned : w.currentBitIndex % 8 = 0

theorem Writer.bits_length {w : Writer} (h : WriterReady w) :
    w.bits.length = 8 * (w.fullBuffers.flatMap Buffer.data).length + w.currentBitIndex := by
  have hle := h.index_le
  rw [Writer.bits, List.length_append, Bits.ofBytes_length, List.length_take, Bits.ofBytes_length]
  omega

theorem Writer.bits_eq_ofBytes {w : Writer} (ha : w.currentBitIndex % 8 = 0) : w.bits = Bits.ofBytes w.bytes := by
  have hidx : w.currentBitIndex = 8 * (w.currentBitIndex / 8) := by omega
  rw [Writer.bits, Writer.bytes, Bits.ofBytes_append, Bits.ofBytes_take, ← hidx]

theorem WriterAtByte.init {staleBytes : List Byte} (h : 0 < staleBytes.length) :
    WriterAtByte (writerInit staleBytes) := ⟨.init h, rfl⟩

@[simp] theorem writerInit_bytes (staleBytes : List Byte) : (writerInit staleBytes).bytes = [] := by
  simp [Writer.bytes, writerInit]

theorem WriterAtByte.write {w : Writer} (h : WriterAtByte w) (value : Byte) :
    ∃ w', writerWriteByte w value = some w' ∧ WriterAtByte w' ∧ w'.bytes = w.bytes ++ [value] := by
  obtain ⟨w', hw, hok, hbits⟩ := @writerWriteByte_spec w value h.ok h.aligned
  have ha : w'.currentBitIndex % 8 = 0 := by
    have hlen := congrArg List.length hbits
    rw [Writer.bits_length hok.toWriterReady, List.length_append, Writer.bits_length h.ok.toWriterReady,
      Bits.ofByte_length] at hlen
    have haligned := h.aligned
    omega
  refine ⟨w', hw, ⟨hok, ha⟩, Bits.ofBytes_injective ?_⟩
  rw [← Writer.bits_eq_ofBytes ha, hbits, Writer.bits_eq_ofBytes h.aligned]
  simp

/-! ## Consuming everything -/

theorem memcpyAt_append (bytes source room : List Byte) :
    memcpyAt (bytes ++ room) bytes.length source = bytes ++ source ++ room.drop source.length := by
  unfold memcpyAt
  rw [List.take_left, List.drop_append, List.drop_of_length_le (by omega), List.nil_append]
  congr 2
  omega

/-- The full buffers are copied one after another. -/
theorem writerCopyFullBuffers_spec {w : Writer} {fuel bytes room} (hf : w.fullBuffers.length < fuel)
    (hpos : ∀ b ∈ w.fullBuffers, 0 < b.data.length) :
    writerCopyFullBuffers fuel w (bytes ++ room) bytes.length =
      (bytes ++ w.fullBuffers.flatMap Buffer.data ++ room.drop (w.fullBuffers.flatMap Buffer.data).length,
        bytes.length + (w.fullBuffers.flatMap Buffer.data).length,
        { w with
          fullBuffers := []
          bytesStored := w.bytesStored - ((w.fullBuffers.map Buffer.allocatedLength).sum : Nat) }) := by
  induction fuel generalizing w bytes room with
  | zero => omega
  | succ fuel ih =>
    obtain ⟨full, last, stored, index, stale, free⟩ := w
    cases full with
    | nil => simp [writerCopyFullBuffers, writerConsumeFullBuffer]
    | cons slot rest =>
      have hslot := hpos slot List.mem_cons_self
      have hlen : (slot.withLength slot.allocatedLength).length = slot.data.length := Nat.min_self _
      have hbytes : (slot.withLength slot.allocatedLength).bytes = slot.data := by
        simp [Buffer.bytes, Buffer.withLength, Buffer.allocatedLength]
      have hne : ¬ slot.data.length = 0 := by omega
      simp only [List.length_cons] at hf
      have hcopy := @ih ⟨rest, last, stored - slot.allocatedLength, index, stale, free⟩
        (bytes ++ slot.data) (room.drop slot.data.length) (by simp only; omega)
        (fun b hb => hpos b (List.mem_cons_of_mem _ hb))
      rw [writerCopyFullBuffers, writerConsumeFullBuffer]
      simp only [hlen, if_neg hne, hbytes]
      rw [memcpyAt_append, ← List.length_append, hcopy]
      simp [List.drop_drop, Nat.add_assoc, Int.sub_sub]

/-- What is above the bits of a partial byte is zero. -/
theorem WriterReady.padding {w : Writer} (h : WriterReady w) :
    ((Bits.ofBytes w.lastBuffer.data).take (8 * ((w.currentBitIndex + 7) / 8))).drop w.currentBitIndex =
      List.replicate (8 * ((w.currentBitIndex + 7) / 8) - w.currentBitIndex) false := by
  have hle := h.index_le
  by_cases haligned : w.currentBitIndex % 8 = 0
  · rw [show 8 * ((w.currentBitIndex + 7) / 8) = w.currentBitIndex by omega, Nat.sub_self, List.replicate_zero]
    exact List.drop_of_length_le (by rw [List.length_take]; exact Nat.min_le_left _ _)
  · have hpartial := h.partialByte haligned
    have hk : w.currentBitIndex / 8 < w.lastBuffer.data.length := by omega
    have hget := List.getElem?_eq_getElem hk
    rw [List.getD_eq_getElem?_getD, hget, Option.getD_some] at hpartial
    have htake := ofBytes_take hget (Nat.le_refl 8)
    have hlength : (Bits.ofBytes (w.lastBuffer.data.take (w.currentBitIndex / 8))).length =
        8 * (w.currentBitIndex / 8) := by
      rw [Bits.ofBytes_length, List.length_take_of_le (by omega)]
    rw [show 8 * ((w.currentBitIndex + 7) / 8) = 8 * (w.currentBitIndex / 8) + 8 by omega, htake, List.drop_append,
      hlength, List.drop_of_length_le (by rw [hlength]; omega), List.nil_append,
      List.take_of_length_le (by rw [Bits.ofByte_length]),
      show w.currentBitIndex - 8 * (w.currentBitIndex / 8) = w.currentBitIndex % 8 by omega,
      Bits.ofByte_drop_of_lt hpartial]
    congr 1
    omega

/-- The bytes that hold the bits, zeroes in the last one. -/
theorem WriterReady.wholeBytes {w : Writer} (h : WriterReady w) :
    Bits.ofBytes (w.fullBuffers.flatMap Buffer.data ++ w.lastBuffer.data.take ((w.currentBitIndex + 7) / 8)) =
      w.bits ++ List.replicate (8 * ((w.currentBitIndex + 7) / 8) - w.currentBitIndex) false := by
  rw [Bits.ofBytes_append, Bits.ofBytes_take, Writer.bits, List.append_assoc, ← h.padding]
  congr 1
  have hmin : (Bits.ofBytes w.lastBuffer.data).take w.currentBitIndex =
      ((Bits.ofBytes w.lastBuffer.data).take (8 * ((w.currentBitIndex + 7) / 8))).take w.currentBitIndex := by
    rw [List.take_take, Nat.min_eq_left (by omega)]
  rw [hmin, List.take_append_drop]

/-- **All written bits are handed out**, in whole bytes: zeroes fill the last
one, and nothing is stored any more. -/
theorem writerConsumeAllBuffers_spec {w : Writer} {context : Context} (h : WriterOK w)
    (he : contextIsErrored context = false) :
    ∃ bytes padding w', writerConsumeAllBuffers context w =
        ({ isError := false, buffer := bufferMake bytes }, w') ∧
      Bits.ofBytes bytes = w.bits ++ List.replicate padding false ∧ padding < 8 ∧
      writerGetBytesStored w' = 0 := by
  have hlt := h.index_lt
  have hs := h.stored
  have hstored : (writerGetBytesStored w).toNat =
      (w.fullBuffers.flatMap Buffer.data).length + (w.currentBitIndex + 7) / 8 := by
    have hsum : (w.fullBuffers.flatMap Buffer.data).length = (w.fullBuffers.map Buffer.allocatedLength).sum := by
      rw [List.length_flatMap]
      rfl
    rw [writerGetBytesStored, hs, hsum]
    omega
  have hcopy := @writerCopyFullBuffers_spec w (w.fullBuffers.length + 1) []
    (List.replicate (writerGetBytesStored w).toNat 0) (Nat.lt_succ_self _) h.full
  simp only [List.nil_append, List.length_nil, Nat.zero_add, List.drop_replicate, hstored,
    Nat.add_sub_cancel_left, hs, Int.sub_self] at hcopy
  have hempty : writerConsumeFullBuffer { w with fullBuffers := [], bytesStored := 0 } =
      (EMPTY_BUFFER, { w with fullBuffers := [], bytesStored := 0 }) := rfl
  by_cases hz : w.currentBitIndex = 0
  · refine ⟨w.fullBuffers.flatMap Buffer.data, 0, { w with fullBuffers := [], bytesStored := 0 }, ?_, ?_,
      by decide, ?_⟩
    · simp only [writerConsumeAllBuffers, hstored, hcopy, writerConsumeNonemptyBuffer, he, hempty]
      simp [EMPTY_ERROR_BUFFER, hz]
    · simp [Writer.bits, hz]
    · simp [writerGetBytesStored, hz]
  · have hpos : 0 < (w.currentBitIndex + 7) / 8 := by omega
    have hlast : (w.lastBuffer.withLength ((w.currentBitIndex + 7) / 8)).length = (w.currentBitIndex + 7) / 8 :=
      Nat.min_eq_left (by omega)
    have hlastBytes : (w.lastBuffer.withLength ((w.currentBitIndex + 7) / 8)).bytes =
        w.lastBuffer.data.take ((w.currentBitIndex + 7) / 8) := by
      rw [Buffer.bytes, hlast]
      rfl
    refine ⟨w.fullBuffers.flatMap Buffer.data ++ w.lastBuffer.data.take ((w.currentBitIndex + 7) / 8),
      8 * ((w.currentBitIndex + 7) / 8) - w.currentBitIndex,
      { writerProduceNextBuffer { w with fullBuffers := [], bytesStored := 0 } with fullBuffers := [] },
      ?_, h.wholeBytes, by omega, by simp [writerGetBytesStored, writerProduceNextBuffer]⟩
    simp only [writerConsumeAllBuffers, hstored, hcopy, writerConsumeNonemptyBuffer, he, hempty,
      Bool.false_eq_true, if_false, emptyBuffer_length, gt_iff_lt, Nat.lt_irrefl, if_neg hz,
      writerProduceNextBuffer, queuePush, List.nil_append, hlast, hlastBytes, if_pos hpos]
    rw [memcpyAt_append, List.drop_replicate, List.length_take_of_le (by omega), Nat.sub_self]
    simp

/-- Whole bytes come out as they are. -/
theorem WriterAtByte.consume {w : Writer} (h : WriterAtByte w) {context : Context}
    (he : contextIsErrored context = false) :
    (writerConsumeAllBuffers context w).1 = { isError := false, buffer := bufferMake w.bytes } := by
  obtain ⟨bytes, padding, w', hconsume, hbits, hpad, -⟩ := writerConsumeAllBuffers_spec h.ok he
  rw [Writer.bits_eq_ofBytes h.aligned] at hbits
  have hlen := congrArg List.length hbits
  rw [List.length_append, List.length_replicate, Bits.ofBytes_length, Bits.ofBytes_length] at hlen
  have hnil : padding = 0 := by omega
  rw [hnil, List.replicate_zero, List.append_nil] at hbits
  rw [hconsume, Bits.ofBytes_injective hbits]

end Scomp
