/-
Byte-wise reading: a reader that is some bytes ahead of another one, and
what restoring a snapshot of the other one then gives.
-/
import Scomp.DataStructures.ReaderSnapshot

namespace Scomp

/-- A well-formed reader on a byte boundary. -/
structure Reader.AtByte (r : Reader) : Prop where
  ok : ReaderOK r
  aligned : r.bitPointer % 8 = 0

/-- `r'` is `r` with `n` more bytes read. -/
structure Reader.Ahead (r r' : Reader) (n : Nat) : Prop where
  atByte : r'.AtByte
  le : n ≤ r.unreadBytes.length
  unread : r'.unreadBytes = r.unreadBytes.drop n
  context : r'.context = r.context
  buffers : r'.buffers = r.buffers
  exhausted_le : r.exhaustedBuffersCount ≤ r'.exhaustedBuffersCount
  initial : r'.isAtInitialBuffer = true → r.isAtInitialBuffer = true

theorem Reader.Ahead.refl {r : Reader} (h : r.AtByte) : r.Ahead r 0 :=
  ⟨h, Nat.zero_le _, rfl, rfl, rfl, Nat.le_refl _, id⟩

theorem Reader.Ahead.trans {r r₁ r₂ : Reader} {n m} (h₁ : r.Ahead r₁ n) (h₂ : r₁.Ahead r₂ m) :
    r.Ahead r₂ (n + m) := by
  have hle₁ := h₁.le
  have hle₂ := h₂.le
  rw [h₁.unread, List.length_drop] at hle₂
  refine ⟨h₂.atByte, by omega, ?_, h₂.context.trans h₁.context, h₂.buffers.trans h₁.buffers,
    Nat.le_trans h₁.exhausted_le h₂.exhausted_le, fun hi => h₁.initial (h₂.initial hi)⟩
  rw [h₂.unread, h₁.unread, List.drop_drop]

theorem Reader.AtByte.bytesAvailable {r : Reader} (h : r.AtByte) :
    readerGetBytesAvailable r = some (r.unreadBytes.length : Int) := readerGetBytesAvailable_eq h.ok h.aligned

theorem Reader.AtByte.peek {r : Reader} {b rest} (h : r.AtByte) (hu : r.unreadBytes = b :: rest) :
    ∃ r', readerPeekByte r = some (b, r') ∧ r.Ahead r' 0 := by
  obtain ⟨r', hp, hmoved, -, ha, hu', -, hctx, hbuf, hok⟩ := readerPeekByte_cons h.ok.toReadable h.aligned hu
  refine ⟨r', hp, ⟨hok h.ok, ha⟩, Nat.zero_le _, hu'.trans hu.symm, hctx, hbuf, ?_, ?_⟩
  · rcases hmoved with rfl | ⟨_, _, -, rfl⟩
    · exact Nat.le_refl _
    · exact Nat.le_add_right _ _
  · rcases hmoved with rfl | ⟨_, _, -, rfl⟩
    · exact id
    · simp [Reader.advanced]

theorem Reader.AtByte.read {r : Reader} {b rest} (h : r.AtByte) (hu : r.unreadBytes = b :: rest) :
    ∃ r', readerReadByte r = some (b, r') ∧ r.Ahead r' 1 := by
  obtain ⟨r', hr, -, ha, hu', hctx, hbuf, hok⟩ := readerReadByte_cons h.ok.toReadable h.aligned hu
  have happly : readerApply r .readByte = some ([b], r') := by rw [readerApply, hr]; rfl
  obtain ⟨-, hex, hinit, -⟩ := readerRead_frame happly (.inr rfl)
  exact ⟨r', hr, ⟨hok h.ok, ha⟩, by simp [hu], by rw [hu', hu]; rfl, hctx, hbuf, hex, hinit⟩

theorem Reader.AtByte.unreadBytes_eq {r r' : Reader} {bytes} (h : r.AtByte) (h' : r'.AtByte)
    (hu : r'.unread = r.unread ++ Bits.ofBytes bytes) : r'.unreadBytes = r.unreadBytes ++ bytes := by
  rw [Reader.unread_eq_ofBytes h.aligned, Reader.unread_eq_ofBytes h'.aligned, ← Bits.ofBytes_append] at hu
  exact Bits.ofBytes_injective hu

theorem Reader.AtByte.init (context : Context) : (readerInit context).AtByte := ⟨.init context, rfl⟩

@[simp] theorem readerInit_unreadBytes (context : Context) : (readerInit context).unreadBytes = [] := by
  simp [Reader.unreadBytes, Reader.pending, readerInit]

theorem Reader.AtByte.push {r : Reader} {b : Buffer} (h : r.AtByte) (hb : 0 < b.length) :
    ∃ r', readerPushBuffer r b = some r' ∧ r'.AtByte ∧ r'.unreadBytes = r.unreadBytes ++ b.bytes ∧
      r'.buffers = r.buffers ++ [b] := by
  obtain ⟨r', hr, -, hunread, hptr, -, hok⟩ := readerPushBuffer_spec h.ok.toReadable hb
  have hat : r'.AtByte := ⟨hok h.ok, by rw [hptr]; exact h.aligned⟩
  have hbuffers : r'.buffers = r.buffers ++ [b] := by
    rw [readerPushBuffer, if_pos hb] at hr
    cases hr
    rfl
  exact ⟨r', hr, hat, h.unreadBytes_eq hat hunread, hbuffers⟩

theorem Reader.AtByte.recover {r : Reader} (h : r.AtByte) (hex : readerHasExhaustedBuffer r = true) :
    ∃ b r', readerRecoverExhaustedBuffer r = some (b, r') ∧ r'.AtByte ∧ r'.unreadBytes = r.unreadBytes := by
  have hpos : 0 < r.exhaustedBuffersCount := by simpa [readerHasExhaustedBuffer] using hex
  have hle := h.ok.nextIndex_le
  unfold Reader.nextIndex at hle
  cases hq : r.buffers with
  | nil => rw [hq, List.length_nil] at hle; omega
  | cons b buffers =>
    have hr : readerRecoverExhaustedBuffer r = some (b,
        { r with buffers := buffers, exhaustedBuffersCount := r.exhaustedBuffersCount - 1 }) := by
      rw [readerRecoverExhaustedBuffer, if_pos hex, hq]
      rfl
    obtain ⟨hok, hunread, -⟩ := readerRecover_spec h.ok hr
    have hat := Reader.AtByte.mk hok h.aligned
    refine ⟨b, _, hr, hat, ?_⟩
    rw [@Reader.AtByte.unreadBytes_eq r _ [] h hat (by rw [hunread]; exact (List.append_nil _).symm), List.append_nil]

/-- One buffer makes every snapshot of it restorable. -/
theorem Reader.Ahead.restore {r r₁ : Reader} {b n} (h : r.AtByte) (ha : r.Ahead r₁ n) (hb : r.buffers = [b]) :
    ∃ r₂, readerRestoreSnapshot r₁ (readerTakeSnapshot r) = some r₂ ∧ r.Ahead r₂ 0 := by
  have hb₁ : r₁.buffers = r.buffers ++ [] := by rw [ha.buffers, List.append_nil]
  have hex₁ : r₁.exhaustedBuffersCount ≤ 0 := by
    have hle := ha.atByte.ok.nextIndex_le
    rw [Reader.nextIndex, ha.buffers, hb, List.length_singleton] at hle
    cases hi : r₁.isAtInitialBuffer with
    | true => exact Nat.le_of_eq (ha.atByte.ok.initial hi).1
    | false => simp only [hi, Bool.false_eq_true, if_false] at hle; omega
  have hex := ha.exhausted_le
  obtain ⟨hok, -⟩ := rolledBack_ok h.ok ha.atByte.ok hb₁
  refine ⟨rolledBack r r₁, readerRestoreSnapshot_eq h.ok ha.atByte.ok hb₁ ha.initial (by omega),
    ⟨hok, h.aligned⟩, Nat.zero_le _, ?_, ha.context, ha.buffers, Nat.le_refl _, id⟩
  simp only [Reader.unreadBytes, Reader.pending, Reader.nextIndex, rolledBack, ha.buffers]
  rfl

/-- A snapshot can always be restored, to whatever reader. -/
theorem Reader.Ahead.restore_some {r r₁ : Reader} {n} (h : r.AtByte) (ha : r.Ahead r₁ n) :
    ∃ r₂, readerRestoreSnapshot r₁ (readerTakeSnapshot r) = some r₂ ∧ r₂.context = r.context := by
  have hb₁ : r₁.buffers = r.buffers ++ [] := by rw [ha.buffers, List.append_nil]
  cases hi : r.isAtInitialBuffer with
  | true => exact ⟨_, readerRestoreSnapshot_initial h.ok hi, ha.context⟩
  | false =>
    have hi₁ : r₁.isAtInitialBuffer = false := by
      cases hi₁ : r₁.isAtInitialBuffer with
      | false => rfl
      | true => rw [ha.initial hi₁] at hi; cases hi
    rcases Nat.lt_or_ge r.exhaustedBuffersCount r₁.exhaustedBuffersCount with hlt | hge
    · obtain ⟨slot, -, hr⟩ := readerRestoreSnapshot_crossed ha.atByte.ok hi hi₁ hlt
      exact ⟨_, hr, ha.context⟩
    · have hex : r₁.exhaustedBuffersCount = r.exhaustedBuffersCount := Nat.le_antisymm hge ha.exhausted_le
      exact ⟨_, readerRestoreSnapshot_eq h.ok ha.atByte.ok hb₁ ha.initial hex, ha.context⟩

end Scomp
