/-
When a snapshot of the reader rolls back.

`reader_restore_snapshot` takes the buffer to return to, and the lengths it
adds back, by their distance from the queue's tail, where the snapshot counts
from the head; and from a snapshot taken before the first buffer it adds no
lengths back. `SnapshotRestorable` is what that leaves.
-/
import Scomp.DataStructures.ReaderRun

namespace Scomp

/-- Restoring puts back a reader with so many bits available that serves
these bits. -/
def RollsBackTo (r : Reader) (snapshot : ReaderSnapshot) (available : Int) (bits : List Bool) : Prop :=
  ∃ r', readerRestoreSnapshot r snapshot = some r' ∧ readerGetBitsAvailable r' = available ∧ Serves r' bits

/-- The state from which restoring the snapshot does roll back: no buffer
was exhausted since the snapshot; or the queue is symmetric enough, with the
buffer that restoring picks carrying the same bits as the snapshot's from the
bit pointer on, and the buffers that it adds back as long as the crossed ones. -/
def SnapshotRestorable (r : Reader) (snapshot : ReaderSnapshot) : Prop :=
  if snapshot.exhaustedBuffersCount = -1 then
    r.exhaustedBuffersCount = 0
  else
    let count := snapshot.exhaustedBuffersCount.toNat
    let crossed := r.exhaustedBuffersCount - count
    r.exhaustedBuffersCount = count ∨
      ((queuePeekTailAt r.buffers r.exhaustedBuffersCount).map (·.bits.drop snapshot.bitPointer) =
          (queuePeekAt r.buffers count).map (·.bits.drop snapshot.bitPointer) ∧
        (((r.buffers.reverse.drop count).take crossed).map Buffer.length).sum =
          (((r.buffers.drop count).take crossed).map Buffer.length).sum)

instance (r : Reader) (snapshot : ReaderSnapshot) : Decidable (SnapshotRestorable r snapshot) :=
  inferInstanceAs (Decidable (ite _ _ _))

/-- The loop adds the lengths of the buffers it passes, from the tail. -/
theorem readerAddTailLengths_eq {buffers : Queue Buffer} {i count : Nat} {bytes : Int}
    (h : i + count ≤ buffers.length) :
    readerAddTailLengths buffers i count bytes =
      some (bytes + (((buffers.reverse.drop i).take count).map Buffer.length).sum) := by
  induction count generalizing i bytes with
  | zero => simp [readerAddTailLengths]
  | succ count ih =>
    have hlt : i < buffers.reverse.length := by
      rw [List.length_reverse]
      omega
    rw [readerAddTailLengths, queuePeekTailAt_eq, List.getElem?_eq_getElem hlt]
    simp only [Option.bind_eq_bind, Option.bind_some]
    rw [ih (by omega), List.drop_eq_getElem_cons hlt, List.take_succ_cons, List.map_cons, List.sum_cons]
    congr 1
    push_cast
    omega

/-! ## The reader that a roll back should give -/

/-- The later reader put back to where the earlier one was. -/
def rolledBack (r₁ r₂ : Reader) : Reader :=
  { r₂ with
    currentBuffer := r₁.currentBuffer
    exhaustedBuffersCount := r₁.exhaustedBuffersCount
    bitPointer := r₁.bitPointer
    isAtInitialBuffer := r₁.isAtInitialBuffer
    unconsumedBufferBytesCount :=
      (((r₂.buffers.drop r₁.exhaustedBuffersCount).map Buffer.length).sum : Nat) }

theorem rolledBack_ok {r₁ r₂ : Reader} {pushed} (h₁ : ReaderOK r₁) (h₂ : ReaderOK r₂)
    (hb : r₂.buffers = r₁.buffers ++ pushed) :
    ReaderOK (rolledBack r₁ r₂) ∧ (rolledBack r₁ r₂).unread = r₁.unread ++ pushed.flatMap Buffer.bits := by
  have hle := h₁.nextIndex_le
  refine ⟨⟨⟨h₁.midByte, ?_, h₂.nonempty⟩, h₁.initial, fun hi => ?_, h₁.pointer_le, rfl⟩, ?_⟩
  · simp only [rolledBack, hb, List.length_append, Reader.nextIndex] at hle ⊢
    omega
  · have hcur := h₁.current hi
    obtain ⟨hlt, -⟩ := List.getElem?_eq_some_iff.mp hcur
    simp only [rolledBack, hb]
    rw [List.getElem?_append_left hlt]
    exact hcur
  · have hdrop : (r₁.buffers ++ pushed).drop r₁.nextIndex = r₁.buffers.drop r₁.nextIndex ++ pushed :=
      List.drop_append_of_le_length hle
    have hpending : (rolledBack r₁ r₂).pending = r₁.pending ++ pushed := by
      rw [Reader.pending, Reader.pending, ← hdrop, ← hb]
      rfl
    rw [Reader.unread, hpending, List.flatMap_append, ← List.append_assoc]
    rfl

/-- Readers that differ only in the count of unconsumed bytes serve alike. -/
theorem serves_rolledBack {r r₁ r₂ : Reader} {pushed} (h₁ : ReaderOK r₁) (h₂ : ReaderOK r₂)
    (he : r₂.context.error = none) (hb : r₂.buffers = r₁.buffers ++ pushed)
    (hr : r = { rolledBack r₁ r₂ with unconsumedBufferBytesCount := r.unconsumedBufferBytesCount }) :
    Serves r (rolledBack r₁ r₂).unread := by
  obtain ⟨hok, -⟩ := rolledBack_ok h₁ h₂ hb
  have hreadable : r.Readable := by
    rw [hr]
    exact ⟨hok.midByte, hok.nextIndex_le, hok.nonempty⟩
  refine (serves_iff hreadable ?_).mpr ?_
  · rw [hr]; exact he
  · rw [hr]; rfl

theorem sum_length_pos {buffers : List Buffer} (h : ∀ b ∈ buffers, 0 < b.length) (hne : buffers ≠ []) :
    0 < (buffers.map Buffer.length).sum := by
  cases buffers with
  | nil => exact absurd rfl hne
  | cons b buffers =>
    have hb := h b List.mem_cons_self
    rw [List.map_cons, List.sum_cons]
    omega

/-- The lengths from one index on are those up to another and from there on. -/
theorem sum_drop_split (buffers : List Buffer) {i j : Nat} (h : i ≤ j) :
    ((buffers.drop i).map Buffer.length).sum =
      (((buffers.drop i).take (j - i)).map Buffer.length).sum + ((buffers.drop j).map Buffer.length).sum := by
  have hj : buffers.drop j = (buffers.drop i).drop (j - i) := by
    rw [List.drop_drop]
    congr 1
    omega
  rw [hj, ← List.sum_append, ← List.map_append, List.take_append_drop]

/-! ## Restoring, by where the snapshot was taken -/

section
variable {r₁ r₂ : Reader} {pushed : List Buffer} (h₁ : ReaderOK r₁) (h₂ : ReaderOK r₂)
  (hb : r₂.buffers = r₁.buffers ++ pushed) (he : r₂.context.error = none)
include h₁ h₂ hb

/-- Restoring gives the reader rolled back when no buffer was exhausted since. -/
theorem readerRestoreSnapshot_eq (hinit : r₂.isAtInitialBuffer = true → r₁.isAtInitialBuffer = true)
    (hex : r₂.exhaustedBuffersCount = r₁.exhaustedBuffersCount) :
    readerRestoreSnapshot r₂ (readerTakeSnapshot r₁) = some (rolledBack r₁ r₂) := by
  cases hi : r₁.isAtInitialBuffer with
  | true =>
    obtain ⟨hzero, hempty, hpointer⟩ := h₁.initial hi
    have hne : ¬ ((r₂.exhaustedBuffersCount : Int) = -1) := by omega
    simp only [readerRestoreSnapshot, readerTakeSnapshot, hi, if_true, hpointer, if_neg hne, rolledBack, hempty,
      ← hex, ← h₂.unconsumed]
    rw [hex, hzero]
  | false =>
    have hi₂ : r₂.isAtInitialBuffer = false := by
      cases hi₂ : r₂.isAtInitialBuffer with
      | false => rfl
      | true => rw [hinit hi₂] at hi; cases hi
    have hcur : r₂.currentBuffer = r₁.currentBuffer := by
      have hc₁ := h₁.current hi
      have hc₂ := h₂.current hi₂
      obtain ⟨hlt, -⟩ := List.getElem?_eq_some_iff.mp hc₁
      rw [hb, hex, List.getElem?_append_left hlt, hc₁] at hc₂
      exact (Option.some.inj hc₂).symm
    have hroll : { r₂ with bitPointer := r₁.bitPointer } = rolledBack r₁ r₂ := by
      simp only [rolledBack, ← hcur, ← hex, hi, ← hi₂, ← h₂.unconsumed]
    rw [← hroll]
    simp [readerRestoreSnapshot, readerTakeSnapshot, hi, hex]

omit h₂ hb in
/-- From before the first buffer the count of unconsumed bytes stays as it is. -/
theorem readerRestoreSnapshot_initial (hi : r₁.isAtInitialBuffer = true) :
    readerRestoreSnapshot r₂ (readerTakeSnapshot r₁) =
      some { rolledBack r₁ r₂ with unconsumedBufferBytesCount := r₂.unconsumedBufferBytesCount } := by
  obtain ⟨hzero, hempty, hpointer⟩ := h₁.initial hi
  have hne : ¬ ((r₂.exhaustedBuffersCount : Int) = -1) := by omega
  simp only [readerRestoreSnapshot, readerTakeSnapshot, hi, if_true, hpointer, if_neg hne, rolledBack, hzero,
    hempty]

omit h₁ hb in
/-- After crossing a buffer both the buffer and the lengths added back are
picked by their distance from the tail. -/
theorem readerRestoreSnapshot_crossed (hi : r₁.isAtInitialBuffer = false) (hi₂ : r₂.isAtInitialBuffer = false)
    (hex : r₁.exhaustedBuffersCount < r₂.exhaustedBuffersCount) :
    ∃ slot, queuePeekTailAt r₂.buffers r₂.exhaustedBuffersCount = some slot ∧
      readerRestoreSnapshot r₂ (readerTakeSnapshot r₁) = some
        { rolledBack r₁ r₂ with
          currentBuffer := slot
          unconsumedBufferBytesCount := r₂.unconsumedBufferBytesCount +
            (((r₂.buffers.reverse.drop r₁.exhaustedBuffersCount).take
              (r₂.exhaustedBuffersCount - r₁.exhaustedBuffersCount)).map Buffer.length).sum } := by
  have hlt₂ : r₂.exhaustedBuffersCount < r₂.buffers.length := (List.getElem?_eq_some_iff.mp (h₂.current hi₂)).1
  obtain ⟨slot, hslot⟩ : ∃ slot, queuePeekTailAt r₂.buffers r₂.exhaustedBuffersCount = some slot := by
    rw [queuePeekTailAt_eq]
    exact ⟨_, List.getElem?_eq_getElem (by rw [List.length_reverse]; exact hlt₂)⟩
  have hne : ¬ ((r₂.exhaustedBuffersCount : Int) = r₁.exhaustedBuffersCount) := by omega
  have hnn : ¬ ((r₁.exhaustedBuffersCount : Int) = -1) := by omega
  have hgt : (r₂.exhaustedBuffersCount : Int) > r₁.exhaustedBuffersCount := by omega
  have hadd := @readerAddTailLengths_eq r₂.buffers r₁.exhaustedBuffersCount
    (r₂.exhaustedBuffersCount - r₁.exhaustedBuffersCount) r₂.unconsumedBufferBytesCount (by omega)
  refine ⟨slot, hslot, ?_⟩
  simp only [readerRestoreSnapshot, readerTakeSnapshot, hi, if_neg hne, if_neg hnn, if_pos hgt, hslot,
    Int.toNat_natCast, Option.bind_eq_bind, Option.bind_some, hadd, Bool.false_eq_true, if_false,
    rolledBack, hi₂]
  rfl

include he

/-- From before the first buffer the count of unconsumed bytes is restored
only if no buffer was exhausted. -/
theorem restore_initial (hi : r₁.isAtInitialBuffer = true) :
    RollsBackTo r₂ (readerTakeSnapshot r₁) (readerGetBitsAvailable (rolledBack r₁ r₂)) (rolledBack r₁ r₂).unread ↔
      r₂.exhaustedBuffersCount = 0 := by
  obtain ⟨hzero, hempty, hpointer⟩ := h₁.initial hi
  let r₃ : Reader := { rolledBack r₁ r₂ with unconsumedBufferBytesCount := r₂.unconsumedBufferBytesCount }
  have hr₃ : readerRestoreSnapshot r₂ (readerTakeSnapshot r₁) = some r₃ := readerRestoreSnapshot_initial h₁ hi
  have havail : readerGetBitsAvailable r₃ = readerGetBitsAvailable (rolledBack r₁ r₂) ↔
      r₂.exhaustedBuffersCount = 0 := by
    have hsplit := sum_drop_split r₂.buffers (Nat.zero_le r₂.exhaustedBuffersCount)
    have hpos : r₂.exhaustedBuffersCount ≠ 0 →
        0 < (((r₂.buffers.drop 0).take (r₂.exhaustedBuffersCount - 0)).map Buffer.length).sum := by
      intro hex
      have hle := h₂.nextIndex_le
      unfold Reader.nextIndex at hle
      refine sum_length_pos (fun b hmem => h₂.nonempty b (List.mem_of_mem_take hmem)) ?_
      intro hnil
      have hl := congrArg List.length hnil
      simp only [List.drop_zero, List.length_take, List.length_nil] at hl
      omega
    have hcount := h₂.unconsumed
    simp only [readerGetBitsAvailable, r₃, rolledBack, hzero, hcount]
    constructor
    · intro heq
      by_contra hex
      have := hpos hex
      omega
    · intro hex
      rw [hex]
  constructor
  · rintro ⟨r, hr, ha, -⟩
    rw [hr₃] at hr
    cases hr
    exact havail.mp ha
  · intro hex
    exact ⟨r₃, hr₃, havail.mpr hex, serves_rolledBack h₁ h₂ he hb rfl⟩

/-- Within one buffer restoring sets the bit pointer back. -/
theorem restore_same (hi₂ : r₂.isAtInitialBuffer = false)
    (hex : r₂.exhaustedBuffersCount = r₁.exhaustedBuffersCount) :
    RollsBackTo r₂ (readerTakeSnapshot r₁) (readerGetBitsAvailable (rolledBack r₁ r₂)) (rolledBack r₁ r₂).unread := by
  refine ⟨rolledBack r₁ r₂, ?_, rfl, serves_rolledBack h₁ h₂ he hb rfl⟩
  exact readerRestoreSnapshot_eq h₁ h₂ hb (fun h => by rw [hi₂] at h; cases h) hex

/-- With another buffer under the bit pointer, however many bytes it counts
as unconsumed. -/
theorem serves_crossed (slot : Buffer) (count : Int) :
    Serves { rolledBack r₁ r₂ with currentBuffer := slot, unconsumedBufferBytesCount := count } (rolledBack r₁ r₂).unread ↔
      slot.bits.drop r₁.bitPointer = r₁.currentBuffer.bits.drop r₁.bitPointer := by
  obtain ⟨hok, -⟩ := rolledBack_ok h₁ h₂ hb
  let r₃ : Reader := { rolledBack r₁ r₂ with currentBuffer := slot, unconsumedBufferBytesCount := count }
  have hunread : (rolledBack r₁ r₂).unread =
      r₁.currentBuffer.bits.drop r₁.bitPointer ++ r₃.pending.flatMap Buffer.bits := rfl
  change Serves r₃ _ ↔ _
  by_cases hmid : r₁.bitPointer % 8 ≠ 0 ∧ 8 * slot.length ≤ r₁.bitPointer
  · -- the restored reader stands within a byte that its buffer does not have
    have hlt := h₁.midByte hmid.1
    have hslotnil : slot.bits.drop r₁.bitPointer = [] := by
      rw [List.drop_eq_nil_iff, Buffer.bits_length]; exact hmid.2
    have hne : r₁.currentBuffer.bits.drop r₁.bitPointer ≠ [] := by
      rw [Ne, List.drop_eq_nil_iff, Buffer.bits_length]
      omega
    rw [hslotnil]
    refine iff_of_false (fun hs => ?_) (fun heq => hne heq.symm)
    obtain ⟨bit, rest, hbits⟩ := List.exists_cons_of_ne_nil hne
    rw [hunread, hbits, List.cons_append] at hs
    obtain ⟨r', hrun, -⟩ := hs [.readBit] [bit.toUInt8] rfl
    obtain ⟨out, r₄, outs, ha, -, -⟩ := readerRun_cons hrun
    have hmiss : slot.bytes[r₁.bitPointer / 8]? = none := by
      rw [List.getElem?_eq_none_iff, Buffer.bytes_length]
      omega
    simp [readerApply, readerReadBit, r₃, rolledBack, hmid.1, hmiss] at ha
  · have hreadable : r₃.Readable := by
      refine ⟨fun hm => ?_, hok.nextIndex_le, h₂.nonempty⟩
      simp only [r₃, rolledBack] at hm ⊢
      omega
    rw [serves_iff hreadable he, hunread]
    exact List.append_left_inj _

/-- After crossing a buffer restoring picks both the buffer and the lengths
by their distance from the tail. -/
theorem restore_crossed (hi : r₁.isAtInitialBuffer = false) (hi₂ : r₂.isAtInitialBuffer = false)
    (hex : r₁.exhaustedBuffersCount < r₂.exhaustedBuffersCount) :
    RollsBackTo r₂ (readerTakeSnapshot r₁) (readerGetBitsAvailable (rolledBack r₁ r₂)) (rolledBack r₁ r₂).unread ↔
      (queuePeekTailAt r₂.buffers r₂.exhaustedBuffersCount).map (·.bits.drop r₁.bitPointer) =
          (queuePeekAt r₂.buffers r₁.exhaustedBuffersCount).map (·.bits.drop r₁.bitPointer) ∧
        (((r₂.buffers.reverse.drop r₁.exhaustedBuffersCount).take
            (r₂.exhaustedBuffersCount - r₁.exhaustedBuffersCount)).map Buffer.length).sum =
          (((r₂.buffers.drop r₁.exhaustedBuffersCount).take
            (r₂.exhaustedBuffersCount - r₁.exhaustedBuffersCount)).map Buffer.length).sum := by
  obtain ⟨hok, -⟩ := rolledBack_ok h₁ h₂ hb
  have hhead : queuePeekAt r₂.buffers r₁.exhaustedBuffersCount = some r₁.currentBuffer := by
    have hcur := hok.current hi
    exact hcur
  obtain ⟨slot, hslot, hr₃⟩ := readerRestoreSnapshot_crossed h₂ hi hi₂ hex
  let r₃ : Reader :=
    { rolledBack r₁ r₂ with
      currentBuffer := slot
      unconsumedBufferBytesCount := r₂.unconsumedBufferBytesCount +
        (((r₂.buffers.reverse.drop r₁.exhaustedBuffersCount).take
          (r₂.exhaustedBuffersCount - r₁.exhaustedBuffersCount)).map Buffer.length).sum }
  change readerRestoreSnapshot r₂ (readerTakeSnapshot r₁) = some r₃ at hr₃
  have havail : readerGetBitsAvailable r₃ = readerGetBitsAvailable (rolledBack r₁ r₂) ↔
      (((r₂.buffers.reverse.drop r₁.exhaustedBuffersCount).take
          (r₂.exhaustedBuffersCount - r₁.exhaustedBuffersCount)).map Buffer.length).sum =
        (((r₂.buffers.drop r₁.exhaustedBuffersCount).take
          (r₂.exhaustedBuffersCount - r₁.exhaustedBuffersCount)).map Buffer.length).sum := by
    have hsplit := sum_drop_split r₂.buffers (Nat.le_of_lt hex)
    have hcount := h₂.unconsumed
    simp only [readerGetBitsAvailable, r₃, rolledBack, hcount]
    omega
  have hserves : Serves r₃ (rolledBack r₁ r₂).unread ↔
      slot.bits.drop r₁.bitPointer = r₁.currentBuffer.bits.drop r₁.bitPointer := serves_crossed h₁ h₂ hb he slot _
  have hdrops : (queuePeekTailAt r₂.buffers r₂.exhaustedBuffersCount).map (·.bits.drop r₁.bitPointer) =
      (queuePeekAt r₂.buffers r₁.exhaustedBuffersCount).map (·.bits.drop r₁.bitPointer) ↔
        slot.bits.drop r₁.bitPointer = r₁.currentBuffer.bits.drop r₁.bitPointer := by
    rw [hslot, hhead]
    exact Option.some_inj
  rw [hdrops, ← hserves, ← havail]
  constructor
  · rintro ⟨r, hr, ha, hs⟩
    rw [hr₃] at hr
    cases hr
    exact ⟨hs, ha⟩
  · rintro ⟨hs, ha⟩
    exact ⟨r₃, hr₃, ha, hs⟩

end

/-! ## The condition, over all runs -/

/-- **A snapshot rolls back exactly when `SnapshotRestorable` says so**: for
every run up to the snapshot and every run after it that sets no error and
recovers no buffer. What should be served is every bit pushed, less the bits
read before the snapshot. -/
theorem reader_rollsBack_iff (ops₁ ops₂ : List ReaderOp) (outs₁ outs₂ : List Byte) (r₁ r₂ : Reader)
    (hrun₁ : readerRun (readerInit contextInit) ops₁ = some (outs₁, r₁))
    (hrun₂ : readerRun r₁ ops₂ = some (outs₂, r₂)) (he : r₂.context.error = none)
    (hrec : .recoverExhaustedBuffer ∉ ops₂) :
    RollsBackTo r₂ (readerTakeSnapshot r₁) (readerGetBitsAvailable r₁ + 8 * (pushedBytes ops₂).length)
        ((Bits.ofBytes (pushedBytes (ops₁ ++ ops₂))).drop (bitsRead ops₁)) ↔
      SnapshotRestorable r₂ (readerTakeSnapshot r₁) := by
  have he₁ : r₁.context.error = none := by
    by_contra hne
    rw [readerRun_keepsError hrun₂ hne] at he
    exact hne he
  obtain ⟨h₁, hle, hunread₁⟩ := readerRun_spec (ReaderOK.init contextInit) hrun₁ he₁
  obtain ⟨h₂, -, -⟩ := readerRun_spec h₁ hrun₂ he
  obtain ⟨pushed, hb, hpushed, hex, hinit⟩ := readerRun_frame hrun₂ hrec
  obtain ⟨hok, hunread⟩ := rolledBack_ok h₁ h₂ hb
  -- the claimed numbers and bits are those of the reader rolled back
  have hnil : (readerInit contextInit).unread = [] := rfl
  rw [hnil, List.nil_append] at hle hunread₁
  have hbits : (Bits.ofBytes (pushedBytes (ops₁ ++ ops₂))).drop (bitsRead ops₁) = (rolledBack r₁ r₂).unread := by
    rw [pushedBytes_append, Bits.ofBytes_append, List.drop_append_of_le_length hle, ← hunread₁, hunread,
      flatMap_bits, hpushed]
  have havail : readerGetBitsAvailable r₁ + 8 * (pushedBytes ops₂).length =
      readerGetBitsAvailable (rolledBack r₁ r₂) := by
    rw [readerGetBitsAvailable_eq h₁, readerGetBitsAvailable_eq hok, hunread, flatMap_bits, hpushed,
      List.length_append, Bits.ofBytes_length]
    push_cast
    rfl
  rw [hbits, havail]
  unfold SnapshotRestorable readerTakeSnapshot
  cases hi : r₁.isAtInitialBuffer with
  | true =>
    have hrestore := restore_initial h₁ h₂ hb he hi
    simpa [readerTakeSnapshot, hi] using hrestore
  | false =>
    have hi₂ : r₂.isAtInitialBuffer = false := by
      cases hi₂ : r₂.isAtInitialBuffer with
      | false => rfl
      | true => rw [hinit hi₂] at hi; cases hi
    have hne : ¬ ((r₁.exhaustedBuffersCount : Int) = -1) := by omega
    simp only [Bool.false_eq_true, if_false, if_neg hne, Int.toNat_natCast]
    rcases Nat.lt_or_ge r₁.exhaustedBuffersCount r₂.exhaustedBuffersCount with hlt | hge
    · have hrestore := restore_crossed h₁ h₂ hb he hi hi₂ hlt
      rw [or_iff_right (by omega)]
      simpa [readerTakeSnapshot, hi] using hrestore
    · have heq : r₂.exhaustedBuffersCount = r₁.exhaustedBuffersCount := by omega
      have hrestore := restore_same h₁ h₂ hb he hi₂ heq
      refine iff_of_true ?_ (.inl heq)
      simpa [readerTakeSnapshot, hi] using hrestore

/-- Within the one buffer pushed, with another one pushed in between. -/
theorem reader_rollsBack_iff_within :
    ∃ r₁ r₂, readerRun (readerInit contextInit) [.pushBuffer (bufferMake [1, 2, 3]), .readByte] = some ([1], r₁) ∧
      readerRun r₁ [.readByte, .pushBuffer (bufferMake [4])] = some ([2], r₂) ∧
      RollsBackTo r₂ (readerTakeSnapshot r₁) 24 (Bits.ofBytes [2, 3, 4]) := by
  refine ⟨_, _, rfl, rfl, ?_⟩
  exact (reader_rollsBack_iff [.pushBuffer (bufferMake [1, 2, 3]), .readByte]
    [.readByte, .pushBuffer (bufferMake [4])] [1] [2] _ _ rfl rfl rfl (by decide)).mpr (by decide)

/-- Three buffers of two bytes: with one byte of the first read, a snapshot
is taken, two more bytes are read, and restoring returns to the second byte
of the second buffer. -/
theorem reader_rollsBack_fails :
    ∃ r₁ r₂, readerRun (readerInit contextInit)
        [.pushBuffer (bufferMake [1, 2]), .pushBuffer (bufferMake [3, 4]), .pushBuffer (bufferMake [5, 6]),
          .readByte] = some ([1], r₁) ∧
      readerRun r₁ [.readByte, .readByte] = some ([2, 3], r₂) ∧ r₂.context.error = none ∧
      ¬ RollsBackTo r₂ (readerTakeSnapshot r₁) (readerGetBitsAvailable r₁) (Bits.ofBytes [2, 3, 4, 5, 6]) := by
  refine ⟨_, _, rfl, rfl, rfl, ?_⟩
  rintro ⟨r', hr, -, hs⟩
  obtain ⟨_, hrun, -⟩ := hs [.readByte] [2] rfl
  cases hr
  have hread : some ([4] : List Byte) = some [2] := congrArg (Option.map Prod.fst) hrun
  exact absurd hread (by decide)

end Scomp
