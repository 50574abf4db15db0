/-
Whole runs of reader operations, and the bit stream they read.

`streamAnswers` says what a plain stream of bits answers to reads and pushes.
A readable reader answers as a stream does exactly when its unread bits are
that stream (`serves_iff`), so `unread` is all that can be observed of it.
-/
import Scomp.DataStructures.ReaderFacts

namespace Scomp

inductive ReaderOp
  | pushBuffer (b : Buffer)
  | readBit
  | readByte
  | recoverExhaustedBuffer
deriving DecidableEq, Repr

/-- One operation: the bits and bytes it read, and the reader after it. -/
def readerApply (r : Reader) : ReaderOp → Option (List Byte × Reader)
  | .pushBuffer b => do return ([], ← readerPushBuffer r b)
  | .readBit => do
    let (bit, r) ← readerReadBit r
    return ([bit], r)
  | .readByte => do
    let (b, r) ← readerReadByte r
    return ([b], r)
  | .recoverExhaustedBuffer => do
    let (_, r) ← readerRecoverExhaustedBuffer r
    return ([], r)

def readerRun : Reader → List ReaderOp → Option (List Byte × Reader)
  | r, [] => some ([], r)
  | r, op :: ops => do
    let (out, r) ← readerApply r op
    let (outs, r) ← readerRun r ops
    return (out ++ outs, r)

/-- The bytes pushed by the operations. -/
def pushedBytes (ops : List ReaderOp) : List Byte :=
  ops.flatMap fun op => match op with
    | .pushBuffer b => b.bytes
    | _ => []

/-- The number of bits the operations read. -/
def bitsRead (ops : List ReaderOp) : Nat :=
  (ops.map fun op => match op with
    | .readBit => 1
    | .readByte => 8
    | _ => 0).sum

/-- What a stream of bits answers to pushes and to reads that it has the
bits for; bytes are read on byte boundaries only. -/
def streamAnswers : List Bool → List ReaderOp → Option (List Byte)
  | _, [] => some []
  | bits, .pushBuffer b :: ops => if 0 < b.length then streamAnswers (bits ++ b.bits) ops else none
  | bits, .readBit :: ops =>
    match bits with
    | [] => none
    | bit :: rest => (streamAnswers rest ops).map (bit.toUInt8 :: ·)
  | bits, .readByte :: ops =>
    if bits.length % 8 = 0 ∧ 8 ≤ bits.length then
      (streamAnswers (bits.drop 8) ops).map (UInt8.ofNat (Bits.toNat (bits.take 8)) :: ·)
    else none
  | _, .recoverExhaustedBuffer :: _ => none

/-- Every later read returns the bits of this stream, and no error is set. -/
def Serves (r : Reader) (bits : List Bool) : Prop :=
  ∀ ops outs, streamAnswers bits ops = some outs →
    ∃ r', readerRun r ops = some (outs, r') ∧ r'.context.error = none

@[simp] theorem pushedBytes_append (xs ys : List ReaderOp) :
    pushedBytes (xs ++ ys) = pushedBytes xs ++ pushedBytes ys := by simp [pushedBytes]

/-! ## What operations leave alone -/

/-- No operation clears an error. -/
def KeepsError (r r' : Reader) : Prop := r.context.error ≠ none → r'.context = r.context

theorem readerSetUnderflowError_keepsError (r : Reader) : KeepsError r (readerSetUnderflowError r) := by
  intro he
  have hs : contextIsErrored r.context = true := Option.isSome_iff_ne_none.mpr he
  simp [readerSetUnderflowError, contextSetError, hs]

theorem readerSetUnderflowError_error (r : Reader) : (readerSetUnderflowError r).context.error ≠ none := by
  unfold readerSetUnderflowError contextSetError
  split
  · next h => exact Option.isSome_iff_ne_none.mp h
  · simp

/-- The next buffer is the underflow error or the reader at some buffer. -/
theorem readerGetNextBuffer_cases {r r' : Reader} {isEnsured} (h : readerGetNextBuffer r = some (isEnsured, r')) :
    r' = readerSetUnderflowError r ∨ ∃ b, r' = r.advanced b := by
  unfold readerGetNextBuffer at h
  by_cases hlast : ((queueGetCount r.buffers : Int) + (if r.isAtInitialBuffer then 1 else 0)) - 1
      = r.exhaustedBuffersCount
  · rw [if_pos hlast] at h
    cases h
    exact .inl rfl
  · rw [if_neg hlast] at h
    obtain ⟨b, -, h⟩ := Option.bind_eq_some_iff.mp h
    cases h
    exact .inr ⟨b, rfl⟩

theorem readerEnsureBuffer_frame {r r' : Reader} {isEnsured} (h : readerEnsureBuffer r = some (isEnsured, r')) :
    r'.buffers = r.buffers ∧ r.exhaustedBuffersCount ≤ r'.exhaustedBuffersCount ∧
      (r'.isAtInitialBuffer = true → r.isAtInitialBuffer = true) ∧ KeepsError r r' := by
  unfold readerEnsureBuffer at h
  split at h
  · rcases readerGetNextBuffer_cases h with rfl | ⟨b, rfl⟩
    · exact ⟨rfl, Nat.le_refl _, id, readerSetUnderflowError_keepsError r⟩
    · exact ⟨rfl, Nat.le_add_right _ _, by simp [Reader.advanced], fun _ => rfl⟩
  · cases h
    exact ⟨rfl, Nat.le_refl _, id, fun _ => rfl⟩

/-- A read leaves the queue alone and moves forward in it. -/
theorem readerRead_frame {r r' : Reader} {op out} (h : readerApply r op = some (out, r'))
    (hop : op = .readBit ∨ op = .readByte) :
    r'.buffers = r.buffers ∧ r.exhaustedBuffersCount ≤ r'.exhaustedBuffersCount ∧
      (r'.isAtInitialBuffer = true → r.isAtInitialBuffer = true) ∧ KeepsError r r' := by
  rcases hop with rfl | rfl
  · have hbit : ∀ {r₁ : Reader} {isEnsured : Bool} {bit r₂}, (if isEnsured = true then do
          let b ← r₁.currentBuffer.bytes[r₁.bitPointer / 8]?
          let bit := (b >>> UInt8.ofNat (r₁.bitPointer % 8)) &&& 1
          return (bit, { r₁ with bitPointer := r₁.bitPointer + 1 })
        else return (0, r₁)) = some (bit, r₂) →
        r₂ = r₁ ∨ r₂ = { r₁ with bitPointer := r₁.bitPointer + 1 } := by
      intro r₁ isEnsured bit r₂ hr
      split at hr
      · obtain ⟨b, -, hr⟩ := Option.bind_eq_some_iff.mp hr
        cases hr
        exact .inr rfl
      · cases hr
        exact .inl rfl
    obtain ⟨⟨bit, r₂⟩, hr, hout⟩ := Option.bind_eq_some_iff.mp h
    cases hout
    unfold readerReadBit at hr
    by_cases ha : r.bitPointer % 8 = 0
    · simp only [if_pos ha] at hr
      obtain ⟨⟨isEnsured, r₁⟩, he, hr⟩ := Option.bind_eq_some_iff.mp hr
      have hframe := readerEnsureBuffer_frame he
      rcases hbit hr with rfl | rfl <;> exact hframe
    · simp only [if_neg ha] at hr
      rcases @hbit r true _ _ hr with rfl | rfl <;> exact ⟨rfl, Nat.le_refl _, id, fun _ => rfl⟩
  · obtain ⟨⟨b, r₂⟩, hr, hout⟩ := Option.bind_eq_some_iff.mp h
    cases hout
    obtain ⟨⟨b', r₁⟩, hp, hr⟩ := Option.bind_eq_some_iff.mp hr
    cases hr
    unfold readerPeekByte at hp
    split at hp
    · obtain ⟨⟨isEnsured, r₃⟩, he, hp⟩ := Option.bind_eq_some_iff.mp hp
      have hframe := readerEnsureBuffer_frame he
      dsimp only at hp
      split at hp
      · obtain ⟨c, -, hp⟩ := Option.bind_eq_some_iff.mp hp
        cases hp
        exact hframe
      · cases hp
        exact hframe
    · cases hp

theorem readerApply_keepsError {r r' : Reader} {op out} (h : readerApply r op = some (out, r')) :
    KeepsError r r' := by
  cases op with
  | readBit => exact (readerRead_frame h (.inl rfl)).2.2.2
  | readByte => exact (readerRead_frame h (.inr rfl)).2.2.2
  | pushBuffer b =>
    simp only [readerApply, readerPushBuffer, Option.bind_eq_bind, Option.bind_eq_some_iff] at h
    obtain ⟨r₁, hp, hout⟩ := h
    cases hout
    split at hp
    · cases hp; exact fun _ => rfl
    · cases hp
  | recoverExhaustedBuffer =>
    simp only [readerApply, readerRecoverExhaustedBuffer, Option.bind_eq_bind, Option.bind_eq_some_iff] at h
    obtain ⟨⟨b, r₁⟩, hp, hout⟩ := h
    cases hout
    split at hp
    · obtain ⟨⟨c, buffers⟩, -, hp⟩ := Option.bind_eq_some_iff.mp hp
      cases hp; exact fun _ => rfl
    · cases hp

theorem readerRun_cons {r r' : Reader} {op ops outs} (h : readerRun r (op :: ops) = some (outs, r')) :
    ∃ out r₁ outs', readerApply r op = some (out, r₁) ∧ readerRun r₁ ops = some (outs', r') ∧
      outs = out ++ outs' := by
  simp only [readerRun, Option.bind_eq_bind, Option.bind_eq_some_iff, Prod.exists] at h
  obtain ⟨out, r₁, ha, outs', r₂, hr, he⟩ := h
  cases he
  exact ⟨out, r₁, outs', ha, hr, rfl⟩

theorem readerRun_step {r r₁ r' : Reader} {op ops out outs} (ha : readerApply r op = some (out, r₁))
    (hr : readerRun r₁ ops = some (outs, r')) : readerRun r (op :: ops) = some (out ++ outs, r') := by
  simp only [readerRun, ha, hr, Option.bind_eq_bind, Option.bind_some]
  rfl

theorem readerRun_keepsError {r r' : Reader} {ops outs} (h : readerRun r ops = some (outs, r')) :
    KeepsError r r' := by
  induction ops generalizing r outs with
  | nil => cases h; exact fun _ => rfl
  | cons op ops ih =>
    obtain ⟨out, r₁, outs', ha, hr, -⟩ := readerRun_cons h
    intro he
    have h₁ := readerApply_keepsError ha he
    rw [ih hr (by rw [h₁]; exact he), h₁]

/-- Without recoveries the queue only grows, by the pushed buffers. -/
theorem readerRun_frame {r r' : Reader} {ops outs} (h : readerRun r ops = some (outs, r'))
    (hrec : .recoverExhaustedBuffer ∉ ops) :
    ∃ pushed, r'.buffers = r.buffers ++ pushed ∧ pushed.flatMap Buffer.bytes = pushedBytes ops ∧
      r.exhaustedBuffersCount ≤ r'.exhaustedBuffersCount ∧
      (r'.isAtInitialBuffer = true → r.isAtInitialBuffer = true) := by
  induction ops generalizing r outs with
  | nil => cases h; exact ⟨[], by simp, rfl, Nat.le_refl _, id⟩
  | cons op ops ih =>
    obtain ⟨out, r₁, outs', ha, hr, -⟩ := readerRun_cons h
    obtain ⟨pushed, hb, hbytes, hex, hinit⟩ := ih hr (fun hm => hrec (List.mem_cons_of_mem _ hm))
    cases op with
    | readBit | readByte =>
      obtain ⟨hb₁, hex₁, hinit₁, -⟩ := readerRead_frame ha (by simp)
      exact ⟨pushed, by rw [hb, hb₁], hbytes, Nat.le_trans hex₁ hex, fun hi => hinit₁ (hinit hi)⟩
    | pushBuffer b =>
      simp only [readerApply, readerPushBuffer, Option.bind_eq_bind, Option.bind_eq_some_iff] at ha
      obtain ⟨r₂, hp, hout⟩ := ha
      cases hout
      split at hp
      · cases hp
        refine ⟨b :: pushed, ?_, ?_, hex, hinit⟩
        · rw [hb, queuePush, List.append_assoc]
          rfl
        · rw [List.flatMap_cons, hbytes]
          rfl
      · cases hp
    | recoverExhaustedBuffer => exact absurd List.mem_cons_self hrec

/-! ## A run reads the stream -/

theorem bitsRead_cons (op : ReaderOp) (ops : List ReaderOp) : bitsRead (op :: ops) = bitsRead [op] + bitsRead ops := by
  simp [bitsRead]

theorem pushedBytes_cons (op : ReaderOp) (ops : List ReaderOp) :
    pushedBytes (op :: ops) = pushedBytes [op] ++ pushedBytes ops := by
  simp [pushedBytes]

/-- One operation reads the first of the unread bits, and what it pushes
comes after them. -/
theorem readerApply_spec {r r' : Reader} {op out} (h : ReaderOK r) (ha : readerApply r op = some (out, r'))
    (he : r'.context.error = none) :
    ReaderOK r' ∧ bitsRead [op] ≤ r.unread.length ∧
      r'.unread = r.unread.drop (bitsRead [op]) ++ Bits.ofBytes (pushedBytes [op]) := by
  -- what an operation that pushes nothing has to show
  have hread : ∀ (width : Nat), ReaderOK r' → width ≤ r.unread.length → r'.unread = r.unread.drop width →
      bitsRead [op] = width → pushedBytes [op] = [] → ReaderOK r' ∧ bitsRead [op] ≤ r.unread.length ∧
        r'.unread = r.unread.drop (bitsRead [op]) ++ Bits.ofBytes (pushedBytes [op]) := by
    intro width hok hle hu hwidth hpush
    rw [hwidth, hpush, Bits.ofBytes_nil, List.append_nil]
    exact ⟨hok, hle, hu⟩
  cases op with
  | readBit =>
    obtain ⟨⟨bit, r₂⟩, hb, hout⟩ := Option.bind_eq_some_iff.mp ha
    cases hout
    cases hu : r.unread with
    | nil =>
      rw [readerReadBit_nil h.toReadable hu] at hb
      cases hb
      exact absurd he (readerSetUnderflowError_error r)
    | cons bit' rest =>
      obtain ⟨r₃, hb', -, hu₃, -, -, hok⟩ := readerReadBit_cons h.toReadable hu
      rw [hb'] at hb
      cases hb
      rw [← hu]
      exact hread 1 (hok h) (by simp [hu]) (by rw [hu₃, hu]; rfl) rfl rfl
  | readByte =>
    obtain ⟨⟨b, r₂⟩, hb, hout⟩ := Option.bind_eq_some_iff.mp ha
    cases hout
    have haligned : r.bitPointer % 8 = 0 := by
      by_contra hmid
      simp [readerReadByte, readerPeekByte, hmid] at hb
    cases hu : r.unreadBytes with
    | nil =>
      have hnil : r.unread = [] := by rw [Reader.unread_eq_ofBytes haligned, hu]; rfl
      simp only [readerReadByte, readerPeekByte_nil h.toReadable haligned hnil, Option.bind_eq_bind,
        Option.bind_some] at hb
      cases hb
      exact absurd he (readerSetUnderflowError_error r)
    | cons b' rest =>
      obtain ⟨r₃, hb', -, ha₃, hu₃, -, -, hok⟩ := readerReadByte_cons h.toReadable haligned hu
      rw [hb'] at hb
      cases hb
      have hbits : r.unread = Bits.ofByte b ++ r'.unread := by
        rw [Reader.unread_eq_ofBytes haligned, Reader.unread_eq_ofBytes ha₃, hu, hu₃, Bits.ofBytes_cons]
      refine hread 8 (hok h) ?_ ?_ rfl rfl
      · rw [hbits, List.length_append, Bits.ofByte_length]
        omega
      · rw [hbits, List.drop_left' (Bits.ofByte_length b)]
  | pushBuffer b =>
    obtain ⟨r₂, hp, hout⟩ := Option.bind_eq_some_iff.mp ha
    cases hout
    have hb : 0 < b.length := by
      by_contra hb
      simp [readerPushBuffer, hb] at hp
    obtain ⟨r₃, hp', -, hu₃, -, -, hok⟩ := readerPushBuffer_spec h.toReadable hb
    rw [hp'] at hp
    cases hp
    have hpush : pushedBytes [.pushBuffer b] = b.bytes := by simp [pushedBytes]
    rw [hpush]
    exact ⟨hok h, Nat.zero_le _, hu₃⟩
  | recoverExhaustedBuffer =>
    obtain ⟨⟨b, r₂⟩, hp, hout⟩ := Option.bind_eq_some_iff.mp ha
    cases hout
    obtain ⟨hok, hu, -⟩ := readerRecover_spec h hp
    exact hread 0 hok (Nat.zero_le _) (by rw [hu]; rfl) rfl rfl

/-- **A successful run reads a prefix of what was unread or pushed.** -/
theorem readerRun_spec {r r' : Reader} {ops outs} (h : ReaderOK r) (hrun : readerRun r ops = some (outs, r'))
    (he : r'.context.error = none) :
    ReaderOK r' ∧ bitsRead ops ≤ (r.unread ++ Bits.ofBytes (pushedBytes ops)).length ∧
      r'.unread = (r.unread ++ Bits.ofBytes (pushedBytes ops)).drop (bitsRead ops) := by
  induction ops generalizing r outs with
  | nil => cases hrun; exact ⟨h, by simp [bitsRead], by simp [bitsRead, pushedBytes]⟩
  | cons op ops ih =>
    obtain ⟨out, r₁, outs', ha, hr, -⟩ := readerRun_cons hrun
    have he₁ : r₁.context.error = none := by
      by_contra hne
      rw [readerRun_keepsError hr hne] at he
      exact hne he
    obtain ⟨hok, hle, hu⟩ := readerApply_spec h ha he₁
    obtain ⟨hok', hle', hu'⟩ := ih hok hr
    have hrest : r₁.unread ++ Bits.ofBytes (pushedBytes ops) =
        (r.unread ++ Bits.ofBytes (pushedBytes (op :: ops))).drop (bitsRead [op]) := by
      rw [pushedBytes_cons, Bits.ofBytes_append, ← List.append_assoc, List.drop_append_of_le_length (by
        rw [List.length_append]
        omega), List.drop_append_of_le_length hle, hu]
    rw [hrest, List.length_drop] at hle'
    rw [hrest, List.drop_drop] at hu'
    rw [bitsRead_cons]
    refine ⟨hok', ?_, hu'⟩
    rw [List.length_append] at hle' ⊢
    omega

/-! ## Only the unread bits can be observed -/

theorem Reader.aligned_iff {r : Reader} (h : r.Readable) : r.bitPointer % 8 = 0 ↔ r.unread.length % 8 = 0 := by
  have hlen : r.unread.length = 8 * r.currentBuffer.length - r.bitPointer + 8 * (r.pending.map Buffer.length).sum := by
    rw [Reader.unread, List.length_append, List.length_drop, Buffer.bits_length, flatMap_bits_length]
  constructor
  · intro ha
    omega
  · intro hu
    by_contra hmid
    have hlt := h.midByte hmid
    omega

theorem readerRun_answers {r : Reader} {ops outs} (h : r.Readable) (he : r.context.error = none)
    (ha : streamAnswers r.unread ops = some outs) :
    ∃ r', readerRun r ops = some (outs, r') ∧ r'.context.error = none := by
  induction ops generalizing r outs with
  | nil => cases ha; exact ⟨r, rfl, he⟩
  | cons op ops ih =>
    cases op with
    | pushBuffer b =>
      unfold streamAnswers at ha
      split at ha
      · next hb =>
        obtain ⟨r₁, hp, h₁, hu, -, hctx, -⟩ := readerPushBuffer_spec h hb
        obtain ⟨r', hr, he'⟩ := ih h₁ (by rw [hctx]; exact he) (by rw [hu]; exact ha)
        have hstep : readerApply r (.pushBuffer b) = some ([], r₁) := by rw [readerApply, hp]; rfl
        exact ⟨r', readerRun_step hstep hr, he'⟩
      · cases ha
    | readBit =>
      match hu : r.unread with
      | [] => rw [hu] at ha; cases ha
      | bit :: rest =>
        rw [hu] at ha
        obtain ⟨outs', ha', rfl⟩ := Option.map_eq_some_iff.mp ha
        obtain ⟨r₁, hb, h₁, hu₁, hctx, -⟩ := readerReadBit_cons h hu
        obtain ⟨r', hr, he'⟩ := ih h₁ (by rw [hctx]; exact he) (by rw [hu₁]; exact ha')
        have hstep : readerApply r .readBit = some ([bit.toUInt8], r₁) := by rw [readerApply, hb]; rfl
        exact ⟨r', readerRun_step hstep hr, he'⟩
    | readByte =>
      unfold streamAnswers at ha
      split at ha
      · next hlen =>
        obtain ⟨outs', ha', rfl⟩ := Option.map_eq_some_iff.mp ha
        have haligned := (Reader.aligned_iff h).mpr hlen.1
        match hu : r.unreadBytes with
        | [] => rw [Reader.unread_eq_ofBytes haligned, hu] at hlen; simp at hlen
        | b :: rest =>
          obtain ⟨r₁, hb, h₁, ha₁, hu₁, hctx, -⟩ := readerReadByte_cons h haligned hu
          have hbits : r.unread = Bits.ofByte b ++ r₁.unread := by
            rw [Reader.unread_eq_ofBytes haligned, Reader.unread_eq_ofBytes ha₁, hu, hu₁, Bits.ofBytes_cons]
          rw [hbits, List.drop_left' (Bits.ofByte_length b)] at ha'
          obtain ⟨r', hr, he'⟩ := ih h₁ (by rw [hctx]; exact he) ha'
          refine ⟨r', ?_, he'⟩
          rw [hbits, List.take_left' (Bits.ofByte_length b), Bits.toNat_ofByte, UInt8.ofNat_toNat]
          have hstep : readerApply r .readByte = some ([b], r₁) := by rw [readerApply, hb]; rfl
          exact readerRun_step hstep hr
      · cases ha
    | recoverExhaustedBuffer => cases ha

theorem streamAnswers_readBits (bits : List Bool) :
    streamAnswers bits (List.replicate bits.length .readBit) = some (bits.map Bool.toUInt8) := by
  induction bits with
  | nil => rfl
  | cons bit bits ih =>
    rw [List.length_cons, List.replicate_succ, streamAnswers, ih]
    rfl

/-- Bits read one by one without an error are the first unread ones. -/
theorem readerRun_readBits {r r' : Reader} {n outs} (h : r.Readable)
    (hrun : readerRun r (List.replicate n .readBit) = some (outs, r')) (he : r'.context.error = none) :
    n ≤ r.unread.length ∧ outs = (r.unread.take n).map Bool.toUInt8 := by
  induction n generalizing r outs with
  | zero => cases hrun; exact ⟨Nat.zero_le _, rfl⟩
  | succ n ih =>
    obtain ⟨out, r₁, outs', ha, hr, rfl⟩ := readerRun_cons hrun
    obtain ⟨⟨bit, r₂⟩, hb, hout⟩ := Option.bind_eq_some_iff.mp ha
    cases hout
    match hu : r.unread with
    | [] =>
      rw [readerReadBit_nil h hu] at hb
      cases hb
      have hset := readerSetUnderflowError_error r
      rw [← readerRun_keepsError hr hset, he] at hset
      exact absurd rfl hset
    | bit' :: rest =>
      obtain ⟨r₃, hb', h₃, hu₃, -⟩ := readerReadBit_cons h hu
      rw [hb'] at hb
      cases hb
      obtain ⟨hle, houts⟩ := ih h₃ hr
      rw [hu₃] at hle houts
      exact ⟨by simpa using hle, by rw [houts]; rfl⟩

theorem toUInt8_map_injective {xs ys : List Bool} (h : xs.map Bool.toUInt8 = ys.map Bool.toUInt8) : xs = ys :=
  List.map_injective_iff.mpr (by decide) h

/-- **A readable reader serves exactly its unread bits.** To tell two streams
apart when one goes on where the other ends, a byte is pushed that differs
there. -/
theorem serves_iff {r : Reader} {bits} (h : r.Readable) (he : r.context.error = none) :
    Serves r bits ↔ r.unread = bits := by
  constructor
  · intro hs
    have hread : ∀ b : Byte, bits.length ≤ r.unread.length ∧
        (r.unread ++ Bits.ofByte b).take (bits.length + 8) = bits ++ Bits.ofByte b := by
      intro b
      have hb : (bufferMake [b]).bits = Bits.ofByte b := by simp [Buffer.bits]
      have hpos : 0 < (bufferMake [b]).length := Nat.one_pos
      obtain ⟨r₁, hp, h₁, hu₁, -, hctx, -⟩ := readerPushBuffer_spec h hpos
      have hanswer : streamAnswers bits (.pushBuffer (bufferMake [b]) ::
          List.replicate (bits ++ Bits.ofByte b).length .readBit) =
            some ((bits ++ Bits.ofByte b).map Bool.toUInt8) := by
        rw [streamAnswers, if_pos hpos, hb, streamAnswers_readBits]
      obtain ⟨r', hrun, he'⟩ := hs _ _ hanswer
      obtain ⟨out, r₂, outs, ha, hr, houts⟩ := readerRun_cons hrun
      rw [readerApply, hp] at ha
      cases ha
      obtain ⟨hle, hbits⟩ := readerRun_readBits h₁ hr he'
      rw [hu₁, hb] at hle hbits
      rw [hbits] at houts
      have htake := toUInt8_map_injective houts.symm
      simp only [List.length_append, Bits.ofByte_length] at hle htake
      exact ⟨by omega, htake⟩
    obtain ⟨hle, h0⟩ := hread 0
    obtain ⟨-, h1⟩ := hread 1
    by_cases hlen : bits.length = r.unread.length
    · rw [List.take_of_length_le (by simp [hlen])] at h0
      exact (List.append_inj h0 hlen.symm).1
    · -- the byte after the longer stream's bit cannot be both 0 and 1
      have hbit : ∀ b : Byte, (r.unread ++ Bits.ofByte b).take (bits.length + 8) = bits ++ Bits.ofByte b →
          r.unread[bits.length]? = some (b.toNat.testBit 0) := by
        intro b hb
        have hget := congrArg (·[bits.length]?) hb
        rw [List.getElem?_take_of_lt (by omega), List.getElem?_append_left (by omega),
          List.getElem?_append_right (Nat.le_refl _), Nat.sub_self, Bits.ofByte_getElem? b (by decide)] at hget
        exact hget
      have hne := (hbit 0 h0).symm.trans (hbit 1 h1)
      exact absurd hne (by decide)
  · rintro rfl ops outs ha
    exact readerRun_answers h he ha

end Scomp
