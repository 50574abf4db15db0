/-
What comes out of the decompressor for documents sent one after another.

A document that stops within a string comes back like any other; it is the
documents after it that do not.
-/
import Scomp.Json.Documents

namespace Scomp

/-- The decompressor finishes each document, prints the bytes of its tokens,
and is reset. -/
def DocumentsReadBack {δ : Type} [SymbolDecoder δ] : JsonDecompressor δ → List (List Byte) → Prop
  | _, [] => True
  | decomp, source :: sources =>
    ∃ decomp' output, JsonFinishes decomp decomp' ∧ decomp'.writer.bytes = decomp.writer.bytes ++ output ∧
      output ++ (lexDocument source).2.2 = source ∧ DocumentsReadBack (jsonDecompressorReset decomp') sources

/-- **A run over documents**, of which only the last may stop within a
string. -/
theorem jsonCompressDocuments_readBack {comp : JsonCompressor} {emitted : List Byte} {readers : List Reader}
    (h : JcompHolds comp emitted []) (hready : JcompReady comp) (hstart : comp.tokenizer.jsm = jsmInit)
    (hr : ∀ r ∈ readers, r.AtByte) (hfits : ∀ r ∈ readers, DocumentFits r.unreadBytes)
    (hends : ∀ r ∈ readers.dropLast, documentEndsInString r.unreadBytes = false) :
    ∃ comp' codeds, jsonCompressDocuments comp readers = some (comp', codeds) ∧ AllCodable codeds.flatten ∧
      ∀ (δ : Type) [SymbolDecoder δ] (decomp : JsonDecompressor δ) (decoder : δ),
        JsonSynced decomp (comp.shared emitted) → Yields decomp.decoder codeds.flatten decoder →
        DocumentsReadBack decomp (readers.map Reader.unreadBytes) := by
  induction readers generalizing comp emitted with
  | nil => exact ⟨comp, [], rfl, fun c hc => by simp at hc, fun δ _ decomp decoder _ _ => trivial⟩
  | cons r readers ih =>
    obtain ⟨hat, hr⟩ := List.forall_mem_cons.mp hr
    obtain ⟨hfit, hfits⟩ := List.forall_mem_cons.mp hfits
    obtain ⟨comp₁, coded, base, emitted₁, hrun, hemits, hend, -⟩ :=
      @jsonCompressDocument_emits (comp.withReader r) emitted
        ⟨h.strings, h.room, h.state, h.plain, h.limits, h.jsm⟩ hstart hat
    obtain ⟨hready₁, hall⟩ := hemits.ready ⟨hready.tables, hready.strings⟩ hfit
    have hendsLater : ∀ r' ∈ readers.dropLast, documentEndsInString r'.unreadBytes = false := by
      intro r' hmem
      cases readers with
      | nil => cases hmem
      | cons next readers => exact hends r' (List.mem_cons_of_mem _ hmem)
    obtain ⟨comp₂, codeds, hrest, hall', hreads⟩ := ih hemits.holds hready₁ hemits.start hr hfits hendsLater
    refine ⟨comp₂, coded :: codeds, ?_, hall.append hall', fun δ _ decomp decoder hsynced hyields => ?_⟩
    · simp only [jsonCompressDocuments, hrun, hrest, Option.bind_eq_bind, Option.bind_some]
      rfl
    · obtain ⟨decoder₁, hfirst, hsecond⟩ := Yields.append hyields
      obtain ⟨decomp₁, hfinishes, htables, hstrings, hjsm, hbytes, rfl⟩ := hemits.decodes δ decomp decoder₁ hsynced hfirst
      refine ⟨decomp₁, _, hfinishes, hbytes, lexTokens_prints jsmInit r.unreadBytes r.unreadBytes.length, ?_⟩
      cases readers with
      | nil => trivial
      | cons next readers =>
        have hplain : jsonIsStringState base.currentState = false := by
          have hstops := hends r (List.mem_cons_self ..)
          rwa [documentEndsInString, show r = (comp.withReader r).tokenizer.reader from rfl, hend, Option.any_some] at hstops
        exact hreads δ _ decoder (hemits.synced hplain htables hstrings hjsm) hsecond

/-- **Documents through one arithmetic coder come back**, each of them whole
up to its first invalid token, when only the last stops within a string and
no fraction has more than 16 bits. -/
theorem json_documents_lossless {readers : List Reader} (hr : ∀ r ∈ readers, r.AtByte)
    (hfits : ∀ r ∈ readers, DocumentFits r.unreadBytes)
    (hends : ∀ r ∈ readers.dropLast, documentEndsInString r.unreadBytes = false) {staleCompressed staleOutput : List Byte}
    (hcompressed : 0 < staleCompressed.length) (houtput : 0 < staleOutput.length) :
    ∃ comp codeds compressed r',
      jsonCompressDocuments (jsonCompressorInit (readerInit contextInit) strcompInit) readers = some (comp, codeds) ∧
      (writerConsumeAllBuffers contextInit (acodEncoderDeinit
        (acodEncodeAll (acodEncoderInit (writerInit staleCompressed)) (codedInput codeds.flatten)))).1 =
          { isError := false, buffer := bufferMake compressed } ∧
      readerPushBuffer (readerInit contextInit) (bufferMake compressed) = some r' ∧
      DocumentsReadBack (jsonDecompressorInit contextInit (strdecompInit (writerInit staleOutput) (acodDecoderInit r')))
        (readers.map Reader.unreadBytes) := by
  obtain ⟨comp, codeds, hrun, hall, hreads⟩ :=
    jsonCompressDocuments_readBack (.init (readerInit contextInit)) (.init _) rfl hr hfits hends
  obtain ⟨compressed, r', hconsume, hpush, hacod, -⟩ := acodYields_of_consumed contextInit hcompressed hall.codedInput
  obtain ⟨decoder', hyields, -⟩ := hacod.yields
  exact ⟨comp, codeds, compressed, r', hrun, hconsume, hpush,
    hreads AcodDecoder _ _ (.init _ contextInit houtput (acodDecoderInit r')) hyields⟩

/-- The documents `[1]` and `"a`, which stops within its string. -/
theorem json_documents_lossless_two :
    ∃ readers comp codeds compressed r', readers.map Reader.unreadBytes = [[0x5b, 0x31, 0x5d], [0x22, 0x61]] ∧
      jsonCompressDocuments (jsonCompressorInit (readerInit contextInit) strcompInit) readers = some (comp, codeds) ∧
      (writerConsumeAllBuffers contextInit (acodEncoderDeinit
        (acodEncodeAll (acodEncoderInit (writerInit [0xaa])) (codedInput codeds.flatten)))).1 =
          { isError := false, buffer := bufferMake compressed } ∧
      readerPushBuffer (readerInit contextInit) (bufferMake compressed) = some r' ∧
      DocumentsReadBack (jsonDecompressorInit contextInit (strdecompInit (writerInit [0xaa]) (acodDecoderInit r')))
        [[0x5b, 0x31, 0x5d], [0x22, 0x61]] := by
  obtain ⟨readers, hr, hbytes⟩ := readersOf_inputs [[0x5b, 0x31, 0x5d], [0x22, 0x61]] (by simp)
  have hfits : ∀ r ∈ readers, DocumentFits r.unreadBytes := by
    intro r hmem
    have hsource : r.unreadBytes ∈ readers.map Reader.unreadBytes := List.mem_map_of_mem hmem
    rw [hbytes] at hsource
    simp only [List.mem_cons, List.not_mem_nil, or_false] at hsource
    rcases hsource with hsource | hsource <;> rw [hsource] <;> exact List.all_iff_forall_prop.mp (by decide)
  have hends : ∀ r ∈ readers.dropLast, documentEndsInString r.unreadBytes = false := by
    intro r hmem
    have hsource : r.unreadBytes ∈ (readers.map Reader.unreadBytes).dropLast := by
      rw [← List.map_dropLast]
      exact List.mem_map_of_mem hmem
    rw [hbytes, List.dropLast_cons_of_ne_nil (by simp), List.dropLast_singleton, List.mem_singleton] at hsource
    rw [hsource]
    decide
  obtain ⟨comp, codeds, compressed, r', hrun, hconsume, hpush, hback⟩ :=
    @json_documents_lossless readers hr hfits hends [0xaa] [0xaa] (by decide) (by decide)
  rw [hbytes] at hback
  exact ⟨readers, comp, codeds, compressed, r', hbytes, hrun, hconsume, hpush, hback⟩

end Scomp
