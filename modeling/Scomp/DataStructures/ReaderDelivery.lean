/-
What a reader without snapshots delivers over a whole run: the pushed bits,
each of them once and in order, and the buffers back when they are read.
-/
import Scomp.DataStructures.ReaderRun

namespace Scomp

inductive ReaderCall
  | pushBuffer (b : Buffer)
  | readBit
  | readByte
  | peekByte
  | recoverExhaustedBuffer
deriving DecidableEq, Repr

/-- A reader and what was done with it: the buffers pushed, the bits the
reads returned (those of a byte one by one), the bytes peeked with the number
of bits read before, and the buffers recovered. -/
structure ReaderHistory where
  reader : Reader
  pushed : List Buffer
  read : List Byte
  peeked : List (Nat × Byte)
  recovered : List Buffer

def ReaderHistory.init (context : Context) : ReaderHistory :=
  { reader := readerInit context, pushed := [], read := [], peeked := [], recovered := [] }

def ReaderHistory.call (h : ReaderHistory) : ReaderCall → Option ReaderHistory
  | .pushBuffer b => do
    let r ← readerPushBuffer h.reader b
    return { h with reader := r, pushed := h.pushed ++ [b] }
  | .readBit => do
    let (bit, r) ← readerReadBit h.reader
    return { h with reader := r, read := h.read ++ [bit] }
  | .readByte => do
    let (b, r) ← readerReadByte h.reader
    return { h with reader := r, read := h.read ++ (Bits.ofByte b).map Bool.toUInt8 }
  | .peekByte => do
    let (b, r) ← readerPeekByte h.reader
    return { h with reader := r, peeked := h.peeked ++ [(h.read.length, b)] }
  | .recoverExhaustedBuffer => do
    let (b, r) ← readerRecoverExhaustedBuffer h.reader
    return { h with reader := r, recovered := h.recovered ++ [b] }

def ReaderHistory.pushedBits (h : ReaderHistory) : List Bool := h.pushed.flatMap Buffer.bits

/-- What a call asks of its caller. -/
def ReaderHistory.Legal (h : ReaderHistory) : ReaderCall → Prop
  | .pushBuffer b => 0 < b.length
  | .readBit => h.read.length < h.pushedBits.length
  | .readByte | .peekByte => h.read.length % 8 = 0 ∧ h.read.length < h.pushedBits.length
  | .recoverExhaustedBuffer => readerHasExhaustedBuffer h.reader = true

instance (h : ReaderHistory) : DecidablePred h.Legal
  | .pushBuffer _ => inferInstanceAs (Decidable (_ < _))
  | .readBit => inferInstanceAs (Decidable (_ < _))
  | .readByte | .peekByte => inferInstanceAs (Decidable (_ ∧ _))
  | .recoverExhaustedBuffer => inferInstanceAs (Decidable (_ = true))

/-- Legal calls one after another. -/
def ReaderHistory.callAll (h : ReaderHistory) : List ReaderCall → Option ReaderHistory
  | [] => some h
  | c :: calls => if h.Legal c then (h.call c).bind fun h => h.callAll calls else none

inductive ReaderReaches (context : Context) : ReaderHistory → Prop
  | init : ReaderReaches context (.init context)
  | call {h h' : ReaderHistory} {c : ReaderCall} : ReaderReaches context h → h.Legal c → h.call c = some h' →
      ReaderReaches context h'

theorem ReaderReaches.callAll {context : Context} {h h' : ReaderHistory} {calls : List ReaderCall}
    (hreach : ReaderReaches context h) (hcalls : h.callAll calls = some h') : ReaderReaches context h' := by
  induction calls generalizing h with
  | nil =>
    cases hcalls
    exact hreach
  | cons c calls ih =>
    rw [ReaderHistory.callAll] at hcalls
    split at hcalls
    · next hlegal =>
      obtain ⟨h₁, hcall, hrest⟩ := Option.bind_eq_some_iff.mp hcalls
      exact ih (hreach.call hlegal hcall) hrest
    · cases hcalls

/-- What is seen of a reader from outside. -/
structure ReaderDelivers (context : Context) (h : ReaderHistory) : Prop where
  read : h.read <+: h.pushedBits.map Bool.toUInt8
  available : readerGetBitsAvailable h.reader = h.pushedBits.length - h.read.length
  peeked : ∀ p ∈ h.peeked, (h.pushedBits.drop p.1).take 8 = Bits.ofByte p.2
  recovered : h.recovered <+: h.pushed
  recoveredRead : (h.recovered.flatMap Buffer.bits).length ≤ h.read.length
  context : h.reader.context = context

/-! ## The invariant -/

structure ReaderHistoryOK (context : Context) (h : ReaderHistory) : Prop where
  ok : ReaderOK h.reader
  pushed : h.pushed = h.recovered ++ h.reader.buffers
  read : h.pushedBits.map Bool.toUInt8 = h.read ++ h.reader.unread.map Bool.toUInt8
  peeked : ∀ p ∈ h.peeked, (h.pushedBits.drop p.1).take 8 = Bits.ofByte p.2
  context : h.reader.context = context

theorem ReaderHistoryOK.length {context : Context} {h : ReaderHistory} (hok : ReaderHistoryOK context h) :
    h.pushedBits.length = h.read.length + h.reader.unread.length := by
  have hlen := congrArg List.length hok.read
  simpa using hlen

/-- Exhausted buffers have no unread bits. -/
theorem ReaderOK.unread_le {r : Reader} (h : ReaderOK r) :
    r.unread.length ≤ ((r.buffers.drop r.exhaustedBuffersCount).flatMap Buffer.bits).length := by
  have havailable := readerGetBitsAvailable_eq h
  rw [readerGetBitsAvailable, h.unconsumed] at havailable
  rw [flatMap_bits_length]
  omega

theorem ReaderHistoryOK.delivers {context : Context} {h : ReaderHistory} (hok : ReaderHistoryOK context h) :
    ReaderDelivers context h := by
  have hlen := hok.length
  refine ⟨⟨_, hok.read.symm⟩, ?_, hok.peeked, ⟨_, hok.pushed.symm⟩, ?_, hok.context⟩
  · rw [readerGetBitsAvailable_eq hok.ok]
    omega
  · have hunread := hok.ok.unread_le
    have hdrop : ((h.reader.buffers.drop h.reader.exhaustedBuffersCount).flatMap Buffer.bits).length ≤
        (h.reader.buffers.flatMap Buffer.bits).length := by
      conv_rhs => rw [← List.take_append_drop h.reader.exhaustedBuffersCount h.reader.buffers]
      rw [List.flatMap_append, List.length_append]
      exact Nat.le_add_left _ _
    rw [ReaderHistory.pushedBits, hok.pushed, List.flatMap_append, List.length_append] at hlen
    omega

/-- Bits known not to be behind the end stay what they are. -/
theorem take_drop_append {bits more expected : List Bool} {n : Nat} (h : (bits.drop n).take 8 = expected)
    (hexpected : expected.length = 8) : ((bits ++ more).drop n).take 8 = expected := by
  have hlen : 8 ≤ (bits.drop n).length := by
    rw [← hexpected, ← h, List.length_take]
    exact Nat.min_le_right _ _
  rw [List.drop_append_of_le_length (by rw [List.length_drop] at hlen; omega),
    List.take_append_of_le_length hlen]
  exact h

/-- The byte a call on a byte boundary finds. -/
theorem ReaderHistoryOK.nextByte {context : Context} {h : ReaderHistory} (hok : ReaderHistoryOK context h)
    (haligned : h.read.length % 8 = 0) (hdata : h.read.length < h.pushedBits.length) :
    h.reader.bitPointer % 8 = 0 ∧ ∃ b rest, h.reader.unreadBytes = b :: rest := by
  have hlen := hok.length
  have hpushed : h.pushedBits.length % 8 = 0 := by
    rw [ReaderHistory.pushedBits, flatMap_bits_length]
    exact Nat.mul_mod_right _ _
  have ha : h.reader.bitPointer % 8 = 0 := (Reader.aligned_iff hok.ok.toReadable).mpr (by omega)
  refine ⟨ha, List.exists_cons_of_ne_nil fun hnil => ?_⟩
  rw [Reader.unread_eq_ofBytes ha, hnil, Bits.ofBytes_nil, List.length_nil] at hlen
  omega

/-- **One call**: it goes through, and keeps the invariant. -/
theorem ReaderHistoryOK.call {context : Context} {h : ReaderHistory} {c : ReaderCall} (hok : ReaderHistoryOK context h)
    (hlegal : h.Legal c) : ∃ h', h.call c = some h' ∧ ReaderHistoryOK context h' := by
  obtain ⟨hreader, hpushed, hread, hpeeked, hcontext⟩ := id hok
  cases c with
  | pushBuffer b =>
    have hb : 0 < b.length := hlegal
    obtain ⟨r', hr, -, hunread, -, hctx, hkeep⟩ := readerPushBuffer_spec hreader.toReadable hb
    have hbuffers : r'.buffers = h.reader.buffers ++ [b] := by
      rw [readerPushBuffer, if_pos hb] at hr
      cases hr
      rfl
    refine ⟨{ h with reader := r', pushed := h.pushed ++ [b] }, by simp [ReaderHistory.call, hr], hkeep hreader, ?_, ?_,
      fun p hp => ?_, hctx.trans hcontext⟩
    · simp [hpushed, hbuffers]
    · simp only [ReaderHistory.pushedBits] at hread
      simp [ReaderHistory.pushedBits, hread, hunread]
    · rw [ReaderHistory.pushedBits, List.flatMap_append]
      exact take_drop_append (hpeeked p hp) (Bits.ofByte_length _)
  | readBit =>
    have hdata : h.read.length < h.pushedBits.length := hlegal
    have hlen := congrArg List.length hread
    simp only [List.length_append, List.length_map] at hlen
    obtain ⟨bit, rest, hunread⟩ := List.exists_cons_of_length_pos (show 0 < h.reader.unread.length by omega)
    obtain ⟨r', hr, -, hrest, hctx, hbuffers, hkeep⟩ := readerReadBit_cons hreader.toReadable hunread
    refine ⟨{ h with reader := r', read := h.read ++ [bit.toUInt8] }, by simp [ReaderHistory.call, hr], hkeep hreader,
      ?_, ?_, hpeeked, hctx.trans hcontext⟩
    · simp [hpushed, hbuffers]
    · rw [hunread] at hread
      simp only [ReaderHistory.pushedBits] at hread
      simp [ReaderHistory.pushedBits, hread, hrest]
  | readByte =>
    obtain ⟨ha, b, rest, hbytes⟩ := hok.nextByte hlegal.1 hlegal.2
    obtain ⟨r', hr, -, ha', hrest, hctx, hbuffers, hkeep⟩ := readerReadByte_cons hreader.toReadable ha hbytes
    refine ⟨{ h with reader := r', read := h.read ++ (Bits.ofByte b).map Bool.toUInt8 },
      by simp [ReaderHistory.call, hr], hkeep hreader, ?_, ?_, hpeeked, hctx.trans hcontext⟩
    · simp [hpushed, hbuffers]
    · rw [Reader.unread_eq_ofBytes ha, hbytes] at hread
      simp only [ReaderHistory.pushedBits] at hread
      simp [ReaderHistory.pushedBits, hread, Reader.unread_eq_ofBytes ha', hrest]
  | peekByte =>
    obtain ⟨ha, b, rest, hbytes⟩ := hok.nextByte hlegal.1 hlegal.2
    obtain ⟨r', hr, -, -, ha', hbytes', -, hctx, hbuffers, hkeep⟩ := readerPeekByte_cons hreader.toReadable ha hbytes
    have hunread : r'.unread = h.reader.unread := by
      rw [Reader.unread_eq_ofBytes ha, Reader.unread_eq_ofBytes ha', hbytes, hbytes']
    refine ⟨{ h with reader := r', peeked := h.peeked ++ [(h.read.length, b)] }, by simp [ReaderHistory.call, hr],
      hkeep hreader, ?_, ?_, fun p hp => ?_, hctx.trans hcontext⟩
    · simp [hpushed, hbuffers]
    · rw [← hunread] at hread
      exact hread
    · rcases List.mem_append.mp hp with hp | hp
      · exact hpeeked p hp
      · rw [List.mem_singleton.mp hp]
        have hdrop := congrArg (List.drop h.read.length) hread
        rw [List.drop_left, ← List.map_drop, Reader.unread_eq_ofBytes ha, hbytes] at hdrop
        show (h.pushedBits.drop h.read.length).take 8 = _
        rw [toUInt8_map_injective hdrop, Bits.ofBytes_cons, List.take_append_of_le_length (by rw [Bits.ofByte_length]),
          List.take_of_length_le (by rw [Bits.ofByte_length])]
  | recoverExhaustedBuffer =>
    obtain ⟨b, r', hr⟩ := readerRecover_of_exhausted hreader hlegal
    obtain ⟨hkeep, hunread, hbuffers, hctx⟩ := readerRecover_spec hreader hr
    refine ⟨{ h with reader := r', recovered := h.recovered ++ [b] }, by simp [ReaderHistory.call, hr], hkeep, ?_, ?_,
      hpeeked, hctx.trans hcontext⟩
    · simp [hpushed, hbuffers]
    · rw [← hunread] at hread
      exact hread

theorem ReaderReaches.ok {context : Context} {h : ReaderHistory} (hreach : ReaderReaches context h) :
    ReaderHistoryOK context h := by
  induction hreach with
  | init => exact ⟨.init context, rfl, rfl, by simp [ReaderHistory.init], rfl⟩
  | call _ hlegal hcall ih =>
    obtain ⟨h'', hcall', hok⟩ := ih.call hlegal
    rw [hcall'] at hcall
    cases hcall
    exact hok

/-- **Without snapshots the reader delivers the pushed bytes once and in
order**, at every point of every run; and no legal call gets stuck. -/
theorem reader_delivers (context : Context) (h : ReaderHistory) (hreach : ReaderReaches context h) :
    ReaderDelivers context h ∧ ∀ c, h.Legal c → ∃ h', h.call c = some h' ∧ ReaderDelivers context h' := by
  refine ⟨hreach.ok.delivers, fun c hlegal => ?_⟩
  obtain ⟨h', hcall, hok⟩ := hreach.ok.call hlegal
  exact ⟨h', hcall, hok.delivers⟩

/-- Three bytes in two buffers: two are read, the first buffer is taken back, a
peek looks into the second one, and a bit of it is read. -/
theorem reader_delivers_three :
    ∃ h, (ReaderHistory.init contextInit).callAll [.pushBuffer (bufferMake [1, 2]), .pushBuffer (bufferMake [5]),
        .readByte, .readByte, .peekByte, .recoverExhaustedBuffer, .readBit] = some h ∧
      h.read = [1, 0, 0, 0, 0, 0, 0, 0, 0, 1, 0, 0, 0, 0, 0, 0, 1] ∧ h.peeked = [(16, 5)] ∧
      h.recovered = [bufferMake [1, 2]] ∧ ReaderDelivers contextInit h ∧
      ∀ c, h.Legal c → ∃ h', h.call c = some h' ∧ ReaderDelivers contextInit h' := by
  have hseen : ((ReaderHistory.init contextInit).callAll [.pushBuffer (bufferMake [1, 2]), .pushBuffer (bufferMake [5]),
      .readByte, .readByte, .peekByte, .recoverExhaustedBuffer, .readBit]).map
        (fun h => (h.read, h.peeked, h.recovered)) =
      some ([1, 0, 0, 0, 0, 0, 0, 0, 0, 1, 0, 0, 0, 0, 0, 0, 1], [(16, 5)], [bufferMake [1, 2]]) := by decide +kernel
  obtain ⟨h, hcalls, hseen⟩ := Option.map_eq_some_iff.mp hseen
  simp only [Prod.mk.injEq] at hseen
  exact ⟨h, hcalls, hseen.1, hseen.2.1, hseen.2.2, reader_delivers contextInit h (.callAll .init hcalls)⟩

end Scomp
