/-
What comes out of the decompressor for one document.

First with the coder replaced by a channel that hands the written symbols
back: the two sides make the same calls with the same tables. Then with the
arithmetic coder between them.
-/
import Scomp.Json.DocumentRun

namespace Scomp

/-! ## Through a channel -/

/-- The buffers of an input, pushed one after another. -/
def readerPushAll : Reader → List Buffer → Option Reader
  | r, [] => some r
  | r, b :: buffers => do readerPushAll (← readerPushBuffer r b) buffers

theorem Reader.AtByte.pushAll {r : Reader} {chunks : List (List Byte)} (h : r.AtByte)
    (hchunks : ∀ chunk ∈ chunks, chunk ≠ []) :
    ∃ r', readerPushAll r (chunks.map bufferMake) = some r' ∧ r'.AtByte ∧
      r'.unreadBytes = r.unreadBytes ++ chunks.flatten := by
  induction chunks generalizing r with
  | nil => exact ⟨r, rfl, h, by simp⟩
  | cons chunk chunks ih =>
    have hpos : 0 < (bufferMake chunk).length := List.length_pos_iff.mpr (hchunks chunk (by simp))
    obtain ⟨r₁, hpush, hat, hbytes, -⟩ := h.push hpos
    obtain ⟨r₂, hall, hat₂, hbytes₂⟩ := ih hat fun other hmem => hchunks other (by simp [hmem])
    refine ⟨r₂, ?_, hat₂, ?_⟩
    · simp only [List.map_cons, readerPushAll, hpush, Option.bind_eq_bind, Option.bind_some, hall]
    · rw [hbytes₂, hbytes, bufferMake_bytes, List.flatten_cons, List.append_assoc]

/-- What a fresh compressor writes for tokens that fit is in its tables. -/
theorem jsonCompressDocument_contained {r : Reader} (h : r.AtByte) {comp : JsonCompressor} {coded : List CodedSymbol}
    (hrun : jsonCompressDocument (jsonCompressorInit r strcompInit) = some (comp, coded)) :
    (∀ c ∈ coded, c.Contained) ↔ ∀ token ∈ (lexDocument r.unreadBytes).1, TokenFits token := by
  obtain ⟨comp', coded', base, emitted, hrun', hemits, -⟩ := jsonCompressDocument_emits (.init r) rfl h
  rw [hrun] at hrun'
  cases hrun'
  constructor
  · exact hemits.fits (.init r)
  · intro hfits c hc
    exact ((hemits.ready (.init r) hfits).2 c hc).lt

/-- **Compressor and decompressor stay in lock-step on a document.** The
compressor processes any input, in whatever chunks; if it writes only symbols
of their tables, the decompressor reads as many symbols as were written, each
with the corresponding table in the same state, and returns false after the
last. -/
theorem json_lockstep (readerContext context : Context) (staleBytes : List Byte) (hsize : 0 < staleBytes.length)
    (chunks : List (List Byte)) (hchunks : ∀ chunk ∈ chunks, chunk ≠ []) :
    ∃ r comp coded, readerPushAll (readerInit readerContext) (chunks.map bufferMake) = some r ∧
      jsonCompressDocument (jsonCompressorInit r strcompInit) = some (comp, coded) ∧
      ((∀ c ∈ coded, c.Contained) →
        ∃ decomp, JsonFinishes (jsonDecompressorInit context
            (strdecompInit (writerInit staleBytes) (⟨coded.map CodedSymbol.symbol, []⟩ : Channel))) decomp ∧
          decomp.decoder = ⟨[], coded.map fun c => (c.ref, c.table)⟩) := by
  obtain ⟨r, hpush, hat, -⟩ := (Reader.AtByte.init readerContext).pushAll hchunks
  obtain ⟨comp, coded, base, emitted, hrun, hemits, -⟩ := jsonCompressDocument_emits (.init r) rfl hat
  refine ⟨r, comp, coded, hpush, hrun, fun _ => ?_⟩
  have hyields := Channel.yields coded [] []
  rw [List.append_nil, List.nil_append] at hyields
  obtain ⟨decomp, hfinishes, -, -, -, -, hdecoder⟩ :=
    hemits.decodes Channel _ _ (.init r context hsize _) hyields
  exact ⟨decomp, hfinishes, hdecoder⟩

/-- The document `[]` in two chunks. -/
theorem json_lockstep_array :
    ∃ r comp coded decomp, readerPushAll (readerInit contextInit) [bufferMake [0x5b], bufferMake [0x5d]] = some r ∧
      jsonCompressDocument (jsonCompressorInit r strcompInit) = some (comp, coded) ∧
      JsonFinishes (jsonDecompressorInit contextInit
        (strdecompInit (writerInit [0xaa]) (⟨coded.map CodedSymbol.symbol, []⟩ : Channel))) decomp ∧
      decomp.decoder = ⟨[], coded.map fun c => (c.ref, c.table)⟩ := by
  have hchunks : ∀ chunk ∈ ([[0x5b], [0x5d]] : List (List Byte)), chunk ≠ [] := by simp
  obtain ⟨r, comp, coded, hpush, hrun, hreads⟩ :=
    json_lockstep contextInit contextInit [0xaa] (by decide) [[0x5b], [0x5d]] hchunks
  obtain ⟨r', hpush', hat, hbytes⟩ := (Reader.AtByte.init contextInit).pushAll hchunks
  rw [hpush] at hpush'
  cases hpush'
  have hfits : ∀ token ∈ (lexDocument r.unreadBytes).1, TokenFits token := by
    rw [hbytes, readerInit_unreadBytes]
    intro token ht
    have hkind : token.kind ∈ (lexDocument [0x5b, 0x5d]).1.map JsonToken.kind := List.mem_map_of_mem ht
    refine .of_kind fun hnumber => ?_
    rw [hnumber] at hkind
    exact absurd hkind (by decide)
  obtain ⟨decomp, hfinishes, hdecoder⟩ := hreads ((jsonCompressDocument_contained hat hrun).2 hfits)
  exact ⟨r, comp, coded, decomp, hpush, hrun, hfinishes, hdecoder⟩

/-! ## Through the arithmetic coder -/

/-- What is promised for an input in one buffer: only symbols of their tables
are written, the compressed bytes come out of the encoder's writer, and a
fresh decompressor turns them into the bytes that the compressor consumed,
all of them where no token was invalid. -/
def JsonLossless (src : List Byte) : Prop :=
  ∀ staleCompressed staleOutput : List Byte, 0 < staleCompressed.length → 0 < staleOutput.length →
    ∃ r comp coded compressed r' decomp output,
      readerPushBuffer (readerInit contextInit) (bufferMake src) = some r ∧
      jsonCompressDocument (jsonCompressorInit r strcompInit) = some (comp, coded) ∧
      (∀ c ∈ coded, c.Contained) ∧
      (writerConsumeAllBuffers contextInit
        (acodEncoderDeinit (acodEncodeAll (acodEncoderInit (writerInit staleCompressed)) (codedInput coded)))).1 =
          { isError := false, buffer := bufferMake compressed } ∧
      readerPushBuffer (readerInit contextInit) (bufferMake compressed) = some r' ∧
      JsonFinishes (jsonDecompressorInit contextInit (strdecompInit (writerInit staleOutput) (acodDecoderInit r')))
        decomp ∧
      (writerConsumeAllBuffers contextInit decomp.writer).1 = { isError := false, buffer := bufferMake output } ∧
      output ++ comp.tokenizer.reader.unreadBytes = src ∧
      (jsonCompressorAcceptsAll (src.length + 1) (jsonCompressorInit r strcompInit) = some true → output = src)

/-- A fraction of the input that is too large for its tables breaks it. -/
theorem JsonLossless.fits {src : List Byte} (h : JsonLossless src) (hsrc : src ≠ []) :
    ∀ token ∈ (lexDocument src).1, TokenFits token := by
  have hpos : 0 < (bufferMake src).length := List.length_pos_iff.mpr hsrc
  obtain ⟨r, comp, coded, compressed, r', decomp, output, hpush, hrun, hcontained, -⟩ := h [0] [0] (by decide) (by decide)
  obtain ⟨r₁, hpush₁, hat, hbytes, -⟩ := (Reader.AtByte.init contextInit).push hpos
  rw [hpush] at hpush₁
  cases hpush₁
  rw [readerInit_unreadBytes, bufferMake_bytes, List.nil_append] at hbytes
  have hfits := (jsonCompressDocument_contained hat hrun).1 hcontained
  rw [hbytes] at hfits
  exact hfits

/-- **When JSON compression is lossless**: exactly as long as no number of
the input has a fraction of more than 16 bits. -/
theorem json_compression_lossless_iff {src : List Byte} (hsrc : src ≠ []) :
    JsonLossless src ↔ ∀ token ∈ (lexDocument src).1, TokenFits token := by
  constructor
  · intro h
    exact h.fits hsrc
  · intro hfits staleCompressed staleOutput hcompressed houtput
    have hpos : 0 < (bufferMake src).length := List.length_pos_iff.mpr hsrc
    obtain ⟨r, hpush, hat, hbytes, hbuffers⟩ := (Reader.AtByte.init contextInit).push hpos
    rw [readerInit_unreadBytes, bufferMake_bytes, List.nil_append] at hbytes
    obtain ⟨comp, coded, base, emitted, hrun, hemits, -, hend, haccepts⟩ := jsonCompressDocument_emits (.init r) rfl hat
    rw [show (jsonCompressorInit r strcompInit).tokenizer.reader.unreadBytes = src from hbytes] at hemits hend haccepts
    have hall : AllCodable coded := (hemits.ready (.init r) hfits).2
    obtain ⟨compressed, r', hconsume, hpush', hacod, -⟩ := acodYields_of_consumed contextInit hcompressed hall.codedInput
    obtain ⟨decoder', hyields, -⟩ := hacod.yields
    obtain ⟨decomp, hfinishes, -, hsynced, -, hwritten, -⟩ :=
      hemits.decodes AcodDecoder _ _ (.init r contextInit houtput (acodDecoderInit r')) hyields
    refine ⟨r, comp, coded, compressed, r', decomp, decomp.writer.bytes, hpush, hrun, fun c hc => (hall c hc).lt,
      hconsume, hpush', hfinishes, hsynced.writer.consume rfl, ?_⟩
    have hprints := lexTokens_prints jsmInit src src.length
    have hfresh : (jsonDecompressorInit contextInit
        (strdecompInit (writerInit staleOutput) (acodDecoderInit r'))).writer.bytes = [] := writerInit_bytes staleOutput
    have houtput : decomp.writer.bytes ++ comp.tokenizer.reader.unreadBytes = src := by
      rw [hwritten, hfresh, List.nil_append, hend (bufferMake src) hbuffers]
      exact hprints
    refine ⟨houtput, fun hvalid => ?_⟩
    rw [haccepts hvalid, List.append_nil] at houtput
    exact houtput

/-- The document `[0.5]`. -/
theorem json_compression_lossless_half : JsonLossless [0x5b, 0x30, 0x2e, 0x35, 0x5d] :=
  (json_compression_lossless_iff (by decide)).2 (List.all_iff_forall_prop.mp (by decide))

/-- The document `0.65536`, whose fraction has 17 bits. -/
theorem json_compression_loses_fraction : ¬JsonLossless [0x30, 0x2e, 0x36, 0x35, 0x35, 0x33, 0x36] := by
  intro h
  have hfits := List.all_iff_forall_prop.mpr (h.fits (by decide))
  exact absurd hfits (by decide)

end Scomp
