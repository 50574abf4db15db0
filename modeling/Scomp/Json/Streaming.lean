/-
From one stream to the other.

Any session with the compressor and any session with the decompressor that is
given its output: the chunks on either side, and what is taken when, are up
to the callers.
-/
import Scomp.Json.CompressorStreaming
import Scomp.Json.DecompressorStreaming
import Scomp.Json.RoundTrip

namespace Scomp

/-- What is promised for an input of a session: the decompressor prints the
bytes of its tokens, and its reader has no error. -/
def StreamsBack (compressed source : List Byte) : Prop :=
  ∀ (context readerContext : Context) (staleBytes : List Byte) (ops : List StreamOp), 0 < staleBytes.length →
    (∀ op ∈ ops, op.Legal staleBytes.length) → streamInput ops = compressed →
    ∃ output decomp, Decompresses ops (decompressorStart context readerContext staleBytes) output decomp ∧
      output ++ (lexDocument source).2.2 = source ∧ decomp.decoder.reader.context = readerContext

theorem readerPushed {context : Context} {bytes : List Byte} {r : Reader}
    (hpush : readerPushBuffer (readerInit context) (bufferMake bytes) = some r) : r.AtByte ∧ r.unreadBytes = bytes := by
  have hpos : 0 < (bufferMake bytes).length := by
    by_contra hnone
    rw [readerPushBuffer, if_neg hnone] at hpush
    cases hpush
  obtain ⟨r', hpush', hat, hbytes, -⟩ := (Reader.AtByte.init context).push hpos
  rw [hpush] at hpush'
  cases hpush'
  rw [readerInit_unreadBytes, bufferMake_bytes, List.nil_append] at hbytes
  exact ⟨hat, hbytes⟩

/-- **Compression is lossless from stream to stream**, up to the first
invalid token, while no fraction of the input has more than 16 bits. -/
theorem json_streaming_lossless (context : Context) {staleBytes : List Byte} (hsize : 0 < staleBytes.length)
    {ops : List StreamOp} (hlegal : ∀ op ∈ ops, op.Legal staleBytes.length)
    (hfits : ∀ token ∈ (lexDocument (streamInput ops)).1, TokenFits token) :
    ∃ compressed comp, compressAll ops (compressorStart context staleBytes) = some (compressed, comp) ∧
      comp.tokenizer.reader.context = context ∧ StreamsBack compressed (streamInput ops) := by
  obtain ⟨r, hat, hbytes, -⟩ := exists_reader contextInit (streamInput ops)
  obtain ⟨last, coded, base, emitted, hdocument, hemits, -⟩ := jsonCompressDocument_emits (.init r) rfl hat
  rw [show (jsonCompressorInit r strcompInit).tokenizer.reader.unreadBytes = streamInput ops from hbytes] at hemits
  have hone : 0 < ([0] : List Byte).length := by decide
  have hcodable : AllCodable coded := (hemits.ready (.init r) hfits).2
  obtain ⟨compressed, comp, hall, hconsume, -, -, -, hcontext⟩ :=
    compressAll_spec context hsize hone hlegal hat hbytes hdocument fun c hc => (hcodable c hc).lt
  refine ⟨compressed, comp, hall, hcontext, ?_⟩
  intro context' readerContext staleOutput ops' hsize' hlegal' hinput
  obtain ⟨compressed', r', hconsume', hpush, hacod, hreader⟩ := acodYields_of_consumed readerContext hone hcodable.codedInput
  have hsame : compressed' = compressed := by
    rw [hconsume] at hconsume'
    have hbuffers := congrArg (fun result => result.buffer.bytes) hconsume'
    simpa using hbuffers.symm
  rw [hsame] at hpush
  obtain ⟨hat', hbytes'⟩ := readerPushed hpush
  obtain ⟨decoder, hyields, hdecoder⟩ := hacod.yields
  obtain ⟨final, hfinishes, -, -, -, hwritten, hread⟩ :=
    hemits.decodes AcodDecoder _ _ (.init r context' hsize' (acodDecoderInit r')) hyields
  have hstart := StreamsAlike.start context' readerContext hsize' hsize' hat'.ok
    (by rw [Reader.unread_eq_ofBytes hat'.aligned, hbytes', hinput]) hreader
  obtain ⟨after, hdecompresses, hend⟩ := hstart.decompresses hsize' hlegal' hfinishes
  refine ⟨final.writer.bytes, after, hdecompresses, ?_, ?_⟩
  · have hprints := lexTokens_prints jsmInit (streamInput ops) (streamInput ops).length
    have hfresh : (decompressorWith context' r' staleOutput).writer.bytes = [] := writerInit_bytes staleOutput
    rw [hwritten]
    exact (congrArg (· ++ _) (congrArg (· ++ _) hfresh)).trans hprints
  · rw [hend.error, hread, hdecoder]
    exact hreader

/-- An array in two buffers; the call finds more than 512 bytes. -/
theorem json_streaming_lossless_array :
    ∃ compressed comp, compressAll [.pushBuffer (bufferMake (spacedArray.take 550)), .processNextToken,
        .pushBuffer (bufferMake (spacedArray.drop 550))] (compressorStart contextInit [0xaa]) = some (compressed, comp) ∧
      comp.tokenizer.reader.context = contextInit ∧ StreamsBack compressed spacedArray := by
  have hlossless := @json_streaming_lossless contextInit [0xaa] (by decide) [.pushBuffer (bufferMake (spacedArray.take 550)),
    .processNextToken, .pushBuffer (bufferMake (spacedArray.drop 550))]
    (by simp [StreamOp.Legal, bufferMake, spacedArray_length]) (List.all_iff_forall_prop.mp (by decide +kernel))
  have hinput : streamInput [.pushBuffer (bufferMake (spacedArray.take 550)), .processNextToken,
      .pushBuffer (bufferMake (spacedArray.drop 550))] = spacedArray := by decide +kernel
  rw [hinput] at hlossless
  exact hlossless

end Scomp
