/-
The decompressor as a stream: it is called while a safe amount of its input
has arrived, and at the end of the input until it returns false.

Whatever the chunks, and whatever output is taken on the way, it does what it
does with all of the input at hand.
-/
import Scomp.Lib.Until
import Scomp.Json.DecompressorAlike
import Scomp.Json.Streams

namespace Scomp

/-! ## Sessions -/

def JsonDecompressor.withReader (decomp : JsonDecompressor AcodDecoder) (reader : Reader) :
    JsonDecompressor AcodDecoder := decomp.withDecoder { decomp.decoder with reader := reader }

def JsonDecompressor.withWriter {δ : Type} (decomp : JsonDecompressor δ) (writer : Writer) : JsonDecompressor δ :=
  { decomp with strdecomp := { decomp.strdecomp with writer := writer } }

/-- A safe amount in bits; the reader is within a byte most of the time. -/
def decompressorHasSafeAmountOfData (decomp : JsonDecompressor AcodDecoder) : Bool :=
  readerGetBitsAvailable decomp.decoder.reader ≥ READER_SAFE_SIZE * 8

/-- One operation: the output taken, and whether the end has not been
reached. -/
def decompressApply (decomp : JsonDecompressor AcodDecoder) :
    StreamOp → Option (List Byte × Bool × JsonDecompressor AcodDecoder)
  | .pushBuffer b => do return ([], true, decomp.withReader (← readerPushBuffer decomp.decoder.reader b))
  | .recoverExhaustedBuffer => do return ([], true, decomp.withReader (← readerRecoverAny decomp.decoder.reader))
  | .output op => do
    let (taken, writer) ← writerApply decomp.writer op
    return (taken, true, decomp.withWriter writer)
  | .processNextToken =>
    if decompressorHasSafeAmountOfData decomp then do
      let (isMore, decomp) ← jsonDecompressorProcessNextToken decomp
      return ([], isMore, decomp)
    else some ([], true, decomp)

/-- Operations while the end has not been reached. -/
def decompressRun : List StreamOp → JsonDecompressor AcodDecoder →
    Option (List Byte × Bool × JsonDecompressor AcodDecoder)
  | [], decomp => some ([], true, decomp)
  | op :: ops, decomp => do
    let (taken, isMore, decomp) ← decompressApply decomp op
    if isMore then
      let (rest, isMore, decomp) ← decompressRun ops decomp
      return (taken ++ rest, isMore, decomp)
    else return (taken, false, decomp)

/-- A whole session, to the end, with everything that comes out. -/
def Decompresses (ops : List StreamOp) (decomp : JsonDecompressor AcodDecoder) (output : List Byte)
    (after : JsonDecompressor AcodDecoder) : Prop :=
  ∃ taken isMore last rest, decompressRun ops decomp = some (taken, isMore, last) ∧
    (if isMore = true then JsonFinishes last after else after = last) ∧
    (writerConsumeAllBuffers contextInit after.writer).1 = { isError := false, buffer := bufferMake rest } ∧
    output = taken ++ rest

/-! ## More input -/

/-- A decompressor that has all of its input, and one that still waits for
`more`. -/
def JsonExtends (atEnd : Prop) (more : List Bool) (context : Context) (bits : Nat) (taken taken' : List Byte)
    (decomp decomp' : JsonDecompressor AcodDecoder) : Prop :=
  JsonAlike (fun decoder decoder' => DecoderExtends atEnd more context bits decoder' decoder) taken taken' decomp decomp'

variable {atEnd : Prop} {more : List Bool} {context : Context} {bits : Nat} {taken taken' : List Byte}
  {decomp decomp' : JsonDecompressor AcodDecoder}

/-- **A call** on the one that has less does the same, when that is enough. -/
theorem JsonExtends.call {isMore : Bool} {after : JsonDecompressor AcodDecoder}
    (h : JsonExtends atEnd more context (37 * ACOD_MAX_SYMBOL_BITS) taken taken' decomp decomp')
    (hcall : jsonDecompressorProcessNextToken decomp = some (isMore, after)) :
    ∃ after', jsonDecompressorProcessNextToken decomp' = some (isMore, after') ∧
      JsonExtends atEnd more context 0 taken taken' after after' := by
  have halike := @jsonDecompressorProcessNextToken_alike AcodDecoder _ _ 0 (acodDecoder_readsAlike atEnd more context)
  rw [Nat.zero_add, Nat.zero_mul] at halike
  exact halike.run h hcall

/-- At the end any number of bits is enough. -/
theorem JsonExtends.ended {fewer : Nat} (h : JsonExtends atEnd [] context bits taken taken' decomp decomp') :
    JsonExtends True [] context fewer taken taken' decomp decomp' :=
  JsonAlike.mono h fun hdecoders => ⟨hdecoders.reader, hdecoders.same, fun _ => rfl, .inl trivial⟩

/-- At the end either is as good as the other. -/
theorem JsonExtends.symm (h : JsonExtends True more context bits taken taken' decomp decomp') :
    JsonExtends True [] context bits taken' taken decomp' decomp := by
  obtain ⟨⟨hlookback, hstrings, ⟨hat, hat', hbytes⟩, hdecoders, hstringsReady⟩, hbase, hjsm, hcontext, hready⟩ := h
  exact ⟨⟨hlookback.symm, hstrings.symm, ⟨hat', hat, hbytes.symm⟩, hdecoders.symm, by rw [hstrings]; exact hstringsReady⟩,
    hbase.symm, hjsm.symm, hcontext.symm, by rw [hbase]; exact hready⟩

/-- Calls until false, on either. -/
theorem JsonExtends.finishes {after : JsonDecompressor AcodDecoder}
    (h : JsonExtends True [] context bits taken taken' decomp decomp') (hfinishes : JsonFinishes decomp after) :
    ∃ after', JsonFinishes decomp' after' ∧ JsonExtends True [] context 0 taken taken' after after' := by
  obtain ⟨last, hreads, hlast⟩ := hfinishes
  have hreads' : ∃ last', JsonReads decomp' last' ∧ JsonExtends True [] context 0 taken taken' last last' := by
    clear hlast
    induction hreads with
    | refl => exact ⟨decomp', .refl, h.ended⟩
    | tail _ hstep ih =>
      obtain ⟨last', hreads', hlast'⟩ := ih
      obtain ⟨next', hstep', hnext⟩ := hlast'.ended.call hstep
      exact ⟨next', hreads'.tail hstep', hnext⟩
  obtain ⟨last', hreads', hextends⟩ := hreads'
  obtain ⟨after', hlast', hafter⟩ := hextends.ended.call hlast
  exact ⟨after', ⟨last', hreads', hlast'⟩, hafter⟩

/-! ## One operation -/

theorem JsonExtends.withReader {atEnd' : Prop} {more' : List Bool} {context' : Context} {bits' : Nat} {reader : Reader}
    (h : JsonExtends atEnd more context bits taken taken' decomp decomp')
    (hreader : reader.Extends decomp.decoder.reader more') (hended : atEnd' → more' = [])
    (henough : atEnd' ∨ bits' ≤ reader.unread.length ∧ reader.context = context') :
    JsonExtends atEnd' more' context' bits' taken taken' decomp (decomp'.withReader reader) := by
  obtain ⟨⟨hlookback, hstrings, hwriters, hdecoders, hstringsReady⟩, hbase, hjsm, hcontext, hready⟩ := h
  refine ⟨⟨hlookback, hstrings, hwriters, ⟨hreader, ?_, hended, henough⟩, hstringsReady⟩, hbase, hjsm, hcontext, hready⟩
  exact hdecoders.same

/-- The output of the one that takes some. -/
theorem JsonExtends.takes {op : WriterOp} {size : Nat} (h : JsonExtends atEnd more context bits taken taken' decomp decomp')
    (hsize : 0 < size) (hbits : op.bits = []) (hlegal : op.Legal size 0) :
    ∃ consumed w, writerApply decomp'.writer op = some (consumed, w) ∧
      JsonExtends atEnd more context bits taken (taken' ++ consumed) decomp (decomp'.withWriter w) := by
  obtain ⟨⟨hlookback, hstrings, ⟨hat, hat', hbytes⟩, hdecoders, hstringsReady⟩, hbase, hjsm, hcontext, hready⟩ := h
  obtain ⟨consumed, w, happly, hatw, hall⟩ := hat'.takes hsize hbits hlegal
  refine ⟨consumed, w, happly, ⟨hlookback, hstrings, ⟨hat, hatw, ?_⟩, hdecoders, hstringsReady⟩, hbase, hjsm, hcontext,
    hready⟩
  rw [List.append_assoc]
  exact (congrArg (taken' ++ ·) hall).trans hbytes

/-- What holds in a session before the end: the other decompressor has all the
input, and is at the same call. -/
structure StreamsAlike (all : List Bool) (context : Context) (ops : List StreamOp) (taken : List Byte)
    (full part : JsonDecompressor AcodDecoder) : Prop where
  waits : JsonExtends False (Bits.ofBytes (streamInput ops)) context 0 [] taken full part
  safe : ∃ kinds, JsonDecompSafe (fun decoder => DecoderBetween decoder all) kinds full

/-- **One operation** of a session, and what the other decompressor does
meanwhile: the same call, or nothing. -/
theorem StreamsAlike.apply {all : List Bool} {op : StreamOp} {ops : List StreamOp} {size : Nat}
    {full part : JsonDecompressor AcodDecoder} (h : StreamsAlike all context (op :: ops) taken full part) (hsize : 0 < size)
    (hlegal : op.Legal size) :
    ∃ consumed isMore part' full', decompressApply part op = some (consumed, isMore, part') ∧
      (if isMore = true then JsonReads full full' ∧ StreamsAlike all context ops (taken ++ consumed) full' part'
        else JsonFinishes full full' ∧
          ∃ more, JsonExtends False more context 0 [] (taken ++ consumed) full' part') := by
  obtain ⟨hextends, kinds, hsafe⟩ := h
  have hdecoders := hextends.strings.decoders
  obtain ⟨-, hcontext⟩ := hdecoders.enough.resolve_left id
  cases op with
  | pushBuffer b =>
    have hreader := hdecoders.reader
    rw [streamInput, Bits.ofBytes_append] at hreader
    obtain ⟨r, hpush, hextended, -⟩ := hreader.push hlegal
    refine ⟨[], true, part.withReader r, full, ?_, .refl, ?_, kinds, hsafe⟩
    · exact Option.bind_eq_some_iff.mpr ⟨r, hpush, rfl⟩
    · rw [List.append_nil]
      refine hextends.withReader hextended False.elim (.inr ⟨Nat.zero_le _, ?_⟩)
      rw [← hextended.context, hreader.context, hcontext]
  | recoverExhaustedBuffer =>
    have hreader := hdecoders.reader
    obtain ⟨r, hrecover, hok, hunread, hkept⟩ := readerRecoverAny_spec hreader.ok
    refine ⟨[], true, part.withReader r, full, ?_, .refl, ?_, kinds, hsafe⟩
    · exact Option.bind_eq_some_iff.mpr ⟨r, hrecover, rfl⟩
    · rw [List.append_nil]
      refine hextends.withReader ⟨hok, hreader.ok', ?_, hreader.context.trans hkept.symm⟩ False.elim
        (.inr ⟨Nat.zero_le _, hkept.trans hcontext⟩)
      rw [hunread]
      exact hreader.unread
  | output op =>
    obtain ⟨consumed, w, happly, hextends'⟩ := hextends.takes hsize hlegal.1 hlegal.2
    exact ⟨consumed, true, part.withWriter w, full, Option.bind_eq_some_iff.mpr ⟨_, happly, rfl⟩, .refl, hextends', kinds,
      hsafe⟩
  | processNextToken =>
    rw [decompressApply]
    by_cases henough : decompressorHasSafeAmountOfData part = true
    · have hbits : 37 * ACOD_MAX_SYMBOL_BITS ≤ part.decoder.reader.unread.length := by
        have hsafeAmount : READER_SAFE_SIZE * 8 ≤ readerGetBitsAvailable part.decoder.reader := of_decide_eq_true henough
        have hcounted : readerGetBitsAvailable part.decoder.reader = part.decoder.reader.unread.length :=
          readerGetBitsAvailable_eq hdecoders.reader.ok
        rw [hcounted, show READER_SAFE_SIZE * 8 = 4096 from rfl] at hsafeAmount
        rw [show 37 * ACOD_MAX_SYMBOL_BITS = 2368 from rfl]
        omega
      obtain ⟨isMore, token, decoded, full', -, hcall, hsafe', -⟩ := hsafe.call (acodDecoder_safe all) (acodDecoder_safe all)
      have hready : JsonExtends False (Bits.ofBytes (streamInput ops)) context (37 * ACOD_MAX_SYMBOL_BITS) [] taken full part :=
        JsonAlike.mono hextends fun hdecoders => ⟨hdecoders.reader, hdecoders.same, False.elim, .inr ⟨hbits, hcontext⟩⟩
      obtain ⟨part', hcall', hextends'⟩ := hready.call hcall
      refine ⟨[], isMore, part', full', ?_, ?_⟩
      · rw [if_pos henough]
        exact Option.bind_eq_some_iff.mpr ⟨_, hcall', rfl⟩
      · rw [List.append_nil]
        cases isMore with
        | true => exact ⟨.single hcall, hextends', _, hsafe'⟩
        | false => exact ⟨⟨full, .refl, hcall⟩, _, hextends'⟩
    · refine ⟨[], true, part, full, by rw [if_neg henough], .refl, ?_, kinds, hsafe⟩
      rw [List.append_nil]
      exact hextends

/-- **A session** before the end of its input. -/
theorem StreamsAlike.run {all : List Bool} {ops : List StreamOp} {size : Nat} {full part : JsonDecompressor AcodDecoder}
    (h : StreamsAlike all context ops taken full part) (hsize : 0 < size) (hlegal : ∀ op ∈ ops, op.Legal size) :
    ∃ consumed isMore part' full', decompressRun ops part = some (consumed, isMore, part') ∧
      (if isMore = true then JsonReads full full' ∧ JsonExtends False [] context 0 [] (taken ++ consumed) full' part'
        else JsonFinishes full full' ∧
          ∃ more, JsonExtends False more context 0 [] (taken ++ consumed) full' part') := by
  induction ops generalizing taken full part with
  | nil =>
    refine ⟨[], true, part, full, rfl, .refl, ?_⟩
    rw [List.append_nil]
    exact h.waits
  | cons op ops ih =>
    obtain ⟨consumed, isMore, part₁, full₁, happly, hafter⟩ := h.apply hsize (hlegal op (List.mem_cons_self ..))
    cases isMore with
    | false => exact ⟨consumed, false, part₁, full₁, by simp [decompressRun, happly], hafter⟩
    | true =>
      obtain ⟨hreads, halike⟩ := hafter
      obtain ⟨rest, isMore, part₂, full₂, hrun, hend⟩ := ih halike fun other hmem => hlegal other (List.mem_cons_of_mem _ hmem)
      refine ⟨consumed ++ rest, isMore, part₂, full₂, by simp [decompressRun, happly, hrun], ?_⟩
      rw [List.append_assoc] at hend
      cases isMore with
      | true => exact ⟨hreads.trans hend.1, hend.2⟩
      | false =>
        obtain ⟨⟨last, hlast, hfinal⟩, hextends⟩ := hend
        exact ⟨⟨last, hreads.trans hlast, hfinal⟩, hextends⟩

/-! ## Whole sessions -/

/-- Two decompressors at the same end, their readers and writers aside. -/
structure SameEnd (after after' : JsonDecompressor AcodDecoder) : Prop where
  base : after'.base = after.base
  jsm : after'.jsm = after.jsm
  context : after'.context = after.context
  strings : after'.strdecomp.base = after.strdecomp.base
  lookback : after'.strdecomp.lookbackBuffer = after.strdecomp.lookbackBuffer
  decoder : after'.decoder = { after.decoder with reader := after'.decoder.reader }
  error : after'.decoder.reader.context = after.decoder.reader.context

theorem JsonExtends.sameEnd (h : JsonExtends atEnd more context bits taken taken' decomp decomp') :
    SameEnd decomp decomp' := by
  obtain ⟨⟨hlookback, hstrings, -, hdecoders, -⟩, hbase, hjsm, hcontext, -⟩ := h
  refine ⟨hbase, hjsm, hcontext, hstrings, hlookback, ?_, hdecoders.reader.context.symm⟩
  have hsame : decomp.decoder = { decomp'.decoder with reader := decomp.decoder.reader } := hdecoders.same
  rw [hsame]

/-- The same the other way round, and from end to end. -/
theorem SameEnd.trans {first second third : JsonDecompressor AcodDecoder} (h : SameEnd first second)
    (h' : SameEnd first third) : SameEnd second third := by
  refine ⟨by rw [h.base, h'.base], by rw [h.jsm, h'.jsm], by rw [h.context, h'.context], by rw [h.strings, h'.strings],
    by rw [h.lookback, h'.lookback], ?_, by rw [h.error, h'.error]⟩
  rw [h'.decoder, h.decoder]

/-- All that comes out, of the one with some taken and of the other. -/
theorem JsonExtends.consume (h : JsonExtends atEnd more context bits [] taken decomp decomp') :
    ∃ rest, (writerConsumeAllBuffers contextInit decomp'.writer).1 = { isError := false, buffer := bufferMake rest } ∧
      taken ++ rest = decomp.writer.bytes :=
  ⟨decomp'.writer.bytes, h.strings.writers.atByte'.consume rfl, h.strings.writers.bytes⟩

section

variable {all : List Bool} {ops : List StreamOp} {size : Nat} {full part : JsonDecompressor AcodDecoder}
  (h : StreamsAlike all context ops [] full part) (hsize : 0 < size) (hlegal : ∀ op ∈ ops, op.Legal size)
include h hsize hlegal

/-- **A session that has an end** ends as calls with all the input at hand
do. -/
theorem StreamsAlike.finishes {output : List Byte} {after : JsonDecompressor AcodDecoder}
    (hends : Decompresses ops part output after) :
    ∃ final, JsonFinishes full final ∧ output = final.writer.bytes ∧ SameEnd final after := by
  obtain ⟨taken, isMore, last, rest, hrun, hfinishes, hconsume, houtput⟩ := hends
  obtain ⟨taken', isMore', last', full', hrun', hend⟩ := h.run hsize hlegal
  rw [hrun] at hrun'
  cases hrun'
  rw [List.nil_append] at hend
  have hfinal : ∃ final atEnd more, JsonFinishes full final ∧ JsonExtends atEnd more context 0 [] taken final after := by
    cases isMore with
    | true =>
      obtain ⟨hreads, hextends⟩ := hend
      obtain ⟨final, ⟨lastFull, hreads', hlast⟩, hafter⟩ := (@JsonExtends.ended _ _ _ _ _ _ _ 0 hextends).symm.finishes hfinishes
      exact ⟨final, True, [], ⟨lastFull, hreads.trans hreads', hlast⟩, hafter.symm⟩
    | false =>
      obtain rfl : after = last := hfinishes
      obtain ⟨hfull, more, hextends⟩ := hend
      exact ⟨full', False, more, hfull, hextends⟩
  obtain ⟨final, atEnd, more, hfull, hextends⟩ := hfinal
  obtain ⟨rest', hconsume', hall⟩ := hextends.consume
  rw [hconsume] at hconsume'
  have hrest : rest = rest' := by
    have hbytes := congrArg (fun r => r.buffer.bytes) hconsume'
    simpa using hbytes
  exact ⟨final, hfull, by rw [houtput, hrest, hall], hextends.sameEnd⟩

/-- Where those calls have an end, the session has it too. -/
theorem StreamsAlike.decompresses {final : JsonDecompressor AcodDecoder} (hfinishes : JsonFinishes full final) :
    ∃ after, Decompresses ops part final.writer.bytes after ∧ SameEnd final after := by
  obtain ⟨taken, isMore, last, full', hrun, hend⟩ := h.run hsize hlegal
  rw [List.nil_append] at hend
  have hafter : ∃ after atEnd more, (if isMore = true then JsonFinishes last after else after = last) ∧
      JsonExtends atEnd more context 0 [] taken final after := by
    cases isMore with
    | true =>
      obtain ⟨hreads, hextends⟩ := hend
      obtain ⟨after, hlast, hafter⟩ := (@JsonExtends.ended _ _ _ _ _ _ _ 0 hextends).finishes (Until.Finishes.of_reached hfinishes hreads)
      exact ⟨after, True, [], hlast, hafter⟩
    | false =>
      obtain ⟨hfull, more, hextends⟩ := hend
      have hsame : full' = final := Until.Finishes.unique hfull hfinishes
      rw [hsame] at hextends
      exact ⟨last, False, more, rfl, hextends⟩
  obtain ⟨after, atEnd, more, hends, hextends⟩ := hafter
  obtain ⟨rest, hconsume, hall⟩ := hextends.consume
  exact ⟨after, ⟨taken, isMore, last, rest, hrun, hends, hconsume, hall.symm⟩, hextends.sameEnd⟩

end

/-- A fresh decompressor with a fresh reader and writer. -/
def decompressorStart (context readerContext : Context) (staleBytes : List Byte) : JsonDecompressor AcodDecoder :=
  jsonDecompressorInit context (strdecompInit (writerInit staleBytes) (acodDecoderInit (readerInit readerContext)))

/-- A fresh decompressor whose reader has it all. -/
def decompressorWith (context : Context) (reader : Reader) (staleBytes : List Byte) : JsonDecompressor AcodDecoder :=
  jsonDecompressorInit context (strdecompInit (writerInit staleBytes) (acodDecoderInit reader))

/-- A session from the start, next to a reader that has been given all its
input. -/
theorem StreamsAlike.start (context readerContext : Context) {staleBytes staleBytes' : List Byte}
    (hsize : 0 < staleBytes.length) (hsize' : 0 < staleBytes'.length) {reader : Reader} {ops : List StreamOp}
    (hreader : ReaderOK reader) (hunread : reader.unread = Bits.ofBytes (streamInput ops))
    (hcontext : reader.context = readerContext) :
    StreamsAlike reader.unread readerContext ops [] (decompressorWith context reader staleBytes)
      (decompressorStart context readerContext staleBytes') := by
  constructor
  · refine ⟨⟨rfl, rfl, ⟨.init hsize, .init hsize', ?_⟩, ⟨⟨.init readerContext, hreader, ?_, hcontext⟩, rfl, False.elim, ?_⟩,
      .init⟩, rfl, rfl, rfl, JsonTablesReady.init.tokens, JsonTablesReady.init.whitespaces, JsonTablesReady.init.numbers⟩
    · show [] ++ (writerInit staleBytes').bytes = [] ++ (writerInit staleBytes).bytes
      rw [writerInit_bytes, writerInit_bytes]
    · have hnone : (readerInit readerContext).unread = [] := by
        rw [Reader.unread_eq_ofBytes (Reader.AtByte.init readerContext).aligned, readerInit_unreadBytes]
        rfl
      show reader.unread = (readerInit readerContext).unread ++ _
      rw [hnone, hunread, List.nil_append]
    · exact .inr ⟨Nat.zero_le _, rfl⟩
  · exact ⟨[], .init context (.init hsize) (.fresh (.init hreader))⟩

/-- **Decompression does not depend on how its input arrives or its output is
taken.** On any bytes, compressed ones or not, a session that calls while a
safe amount of data is there gets through without an error of the reader; and
two sessions with the same bytes have the same output and end alike, or
neither has an end. -/
theorem json_decompression_chunking_independent (context readerContext : Context) {staleBytes₁ staleBytes₂ : List Byte}
    (hsize₁ : 0 < staleBytes₁.length) (hsize₂ : 0 < staleBytes₂.length) {ops₁ ops₂ : List StreamOp}
    (hlegal₁ : ∀ op ∈ ops₁, op.Legal staleBytes₁.length) (hlegal₂ : ∀ op ∈ ops₂, op.Legal staleBytes₂.length)
    (hinput : streamInput ops₁ = streamInput ops₂) :
    (∃ taken isMore last, decompressRun ops₁ (decompressorStart context readerContext staleBytes₁) =
        some (taken, isMore, last) ∧ last.decoder.reader.context = readerContext) ∧
      ∀ output after₁, Decompresses ops₁ (decompressorStart context readerContext staleBytes₁) output after₁ →
        ∃ after₂, Decompresses ops₂ (decompressorStart context readerContext staleBytes₂) output after₂ ∧
          SameEnd after₁ after₂ := by
  obtain ⟨reader, hat, hbytes, hcontext⟩ := exists_reader readerContext (streamInput ops₁)
  have hreader := hat.ok
  have hunread : reader.unread = Bits.ofBytes (streamInput ops₁) := by
    rw [Reader.unread_eq_ofBytes hat.aligned, hbytes]
  have hstart₁ := @StreamsAlike.start context readerContext [0] _ (by decide) hsize₁ reader ops₁ hreader hunread hcontext
  have hstart₂ := @StreamsAlike.start context readerContext [0] _ (by decide) hsize₂ reader ops₂ hreader
    (by rw [hunread, hinput]) hcontext
  constructor
  · obtain ⟨taken, isMore, last, full', hrun, hend⟩ := hstart₁.run hsize₁ hlegal₁
    refine ⟨taken, isMore, last, hrun, ?_⟩
    cases isMore with
    | true => exact (hend.2.strings.decoders.enough.resolve_left id).2
    | false =>
      obtain ⟨-, more, hextends⟩ := hend
      exact (hextends.strings.decoders.enough.resolve_left id).2
  · intro output after₁ hends
    obtain ⟨final, hfinal, houtput, hsame₁⟩ := hstart₁.finishes hsize₁ hlegal₁ hends
    obtain ⟨after₂, hends₂, hsame₂⟩ := hstart₂.decompresses hsize₂ hlegal₂ hfinal
    exact ⟨after₂, by rw [houtput]; exact hends₂, hsame₁.trans hsame₂⟩

/-- Broken input with enough bytes after it for calls to read tokens before
the end. -/
def longBrokenInput : List Byte := brokenInput ++ List.replicate 600 0

theorem longBrokenInput_length : longBrokenInput.length = 609 := by
  rw [longBrokenInput, List.length_append, List.length_replicate]
  rfl

/-- In one buffer, and in two with buffers taken in between. -/
theorem json_decompression_chunking_independent_two :
    (∃ taken isMore last, decompressRun [.pushBuffer (bufferMake longBrokenInput), .processNextToken, .processNextToken]
        (decompressorStart contextInit contextInit [0xaa]) = some (taken, isMore, last) ∧
      last.decoder.reader.context = contextInit) ∧
    ∀ output after₁,
      Decompresses [.pushBuffer (bufferMake longBrokenInput), .processNextToken, .processNextToken]
        (decompressorStart contextInit contextInit [0xaa]) output after₁ →
      ∃ after₂, Decompresses [.pushBuffer (bufferMake (longBrokenInput.take 550)), .processNextToken,
          .output .consumeFullBuffer, .pushBuffer (bufferMake (longBrokenInput.drop 550)), .recoverExhaustedBuffer]
        (decompressorStart contextInit contextInit [0, 0]) output after₂ ∧ SameEnd after₁ after₂ := by
  refine json_decompression_chunking_independent contextInit contextInit (by decide) (by decide) ?_ ?_ (by decide +kernel)
  · simp [StreamOp.Legal, bufferMake, longBrokenInput_length]
  · simp [StreamOp.Legal, WriterOp.Legal, WriterOp.bits, bufferMake, longBrokenInput_length]

end Scomp
