/-
Whole JSON documents through the compressor and the decompressor: the
tokenizer takes in all the bytes of each, so all of them come back.
-/
import Scomp.Json.DocumentGrammar
import Scomp.Json.DocumentsLossless

namespace Scomp

/-- The lexing steps take the words of the stack's language apart, down to
ROOT and the last byte, and no others. -/
theorem spells_iff_lexTokens {fuel : Nat} {stack : List JsonState} {bytes : List Byte}
    (h : StackSafe stack JSON_MAX_STATE_STACK_LENGTH) (hfuel : bytes.length ≤ fuel) :
    Spells stack bytes ↔
      (lexTokens (jsmOf stack JSON_MAX_STATE_STACK_LENGTH) bytes fuel).2 = (jsmOf [.root] JSON_MAX_STATE_STACK_LENGTH, []) := by
  have hstack : ∀ stack', jsmOf stack' JSON_MAX_STATE_STACK_LENGTH = jsmOf [.root] JSON_MAX_STATE_STACK_LENGTH ↔
      stack' = [.root] := fun stack' => ⟨fun he => congrArg (fun jsm => jsm.stateStack.values) he, fun he => by rw [he]⟩
  induction fuel generalizing stack bytes with
  | zero =>
    obtain rfl : bytes = [] := List.eq_nil_of_length_eq_zero (by omega)
    simp [lexTokens, spells_nil, hstack]
  | succ fuel ih =>
    by_cases hne : bytes = []
    · simp [hne, lexTokens_nil, spells_nil, hstack]
    rw [spells_step h hne, lexTokens]
    cases hstep : lexStep (jsmOf stack JSON_MAX_STATE_STACK_LENGTH) bytes with
    | none => simp [hne]
    | some step =>
      obtain ⟨token, n, jsm'⟩ := step
      have hpos := (lexStep_valid hstep).1.pos
      obtain ⟨state, -, -, hp⟩ := lexStep_eq_some hstep
      obtain ⟨stack', -, -, hsafe, rfl⟩ := (h.accepts_iff token.kind _).mp hp
      have hrest := @ih stack' (bytes.drop n) hsafe (by rw [List.length_drop]; omega)
      refine Iff.trans ?_ hrest
      constructor
      · rintro ⟨_, _, stack'', he, -, hspells⟩
        cases he
        exact hspells
      · exact fun hspells => ⟨token, n, stack', rfl, hsafe, hspells⟩

theorem isJsonDocument_iff_lexDocument (bytes : List Byte) :
    IsJsonDocument bytes ↔ (lexDocument bytes).2 = (jsmOf [.root] JSON_MAX_STATE_STACK_LENGTH, []) :=
  (spells_start_iff bytes).symm.trans (spells_iff_lexTokens ⟨rfl, by decide, by simp [RoomOK]⟩ (Nat.le_refl _))

theorem documentEndsInString_of_isJsonDocument {bytes : List Byte} (h : IsJsonDocument bytes) :
    documentEndsInString bytes = false := by
  rw [documentEndsInString, (isJsonDocument_iff_lexDocument bytes).mp h]
  rfl

/-- The decompressor finishes each document, prints exactly its bytes, and is
reset. -/
def DocumentsComeBack {δ : Type} [SymbolDecoder δ] : JsonDecompressor δ → List (List Byte) → Prop
  | _, [] => True
  | decomp, source :: sources =>
    ∃ decomp', JsonFinishes decomp decomp' ∧ decomp'.writer.bytes = decomp.writer.bytes ++ source ∧
      DocumentsComeBack (jsonDecompressorReset decomp') sources

theorem DocumentsReadBack.comeBack {δ : Type} [SymbolDecoder δ] {decomp : JsonDecompressor δ} {sources : List (List Byte)}
    (h : DocumentsReadBack decomp sources) (hsources : ∀ source ∈ sources, IsJsonDocument source) :
    DocumentsComeBack decomp sources := by
  induction sources generalizing decomp with
  | nil => trivial
  | cons source sources ih =>
    obtain ⟨hsource, hsources⟩ := List.forall_mem_cons.mp hsources
    obtain ⟨decomp', output, hfinishes, hbytes, hprinted, hrest⟩ := h
    rw [(isJsonDocument_iff_lexDocument source).mp hsource, List.append_nil] at hprinted
    exact ⟨decomp', hfinishes, hprinted ▸ hbytes, ih hrest hsources⟩

/-- **JSON documents come back byte for byte**, one after another through one
arithmetic coder, when no fraction has more than 16 bits. -/
theorem json_documents_whole {readers : List Reader} (hr : ∀ r ∈ readers, r.AtByte)
    (hdocuments : ∀ r ∈ readers, IsJsonDocument r.unreadBytes) (hfits : ∀ r ∈ readers, DocumentFits r.unreadBytes)
    {staleCompressed staleOutput : List Byte} (hcompressed : 0 < staleCompressed.length)
    (houtput : 0 < staleOutput.length) :
    ∃ comp codeds compressed r',
      jsonCompressDocuments (jsonCompressorInit (readerInit contextInit) strcompInit) readers = some (comp, codeds) ∧
      (writerConsumeAllBuffers contextInit (acodEncoderDeinit
        (acodEncodeAll (acodEncoderInit (writerInit staleCompressed)) (codedInput codeds.flatten)))).1 =
          { isError := false, buffer := bufferMake compressed } ∧
      readerPushBuffer (readerInit contextInit) (bufferMake compressed) = some r' ∧
      DocumentsComeBack (jsonDecompressorInit contextInit (strdecompInit (writerInit staleOutput) (acodDecoderInit r')))
        (readers.map Reader.unreadBytes) := by
  obtain ⟨comp, codeds, hrun, hall, hreads⟩ :=
    jsonCompressDocuments_readBack (.init (readerInit contextInit)) (.init _) rfl hr hfits fun r hmem =>
      documentEndsInString_of_isJsonDocument (hdocuments r (List.mem_of_mem_dropLast hmem))
  obtain ⟨compressed, r', hconsume, hpush, hacod, -⟩ := acodYields_of_consumed contextInit hcompressed hall.codedInput
  obtain ⟨decoder', hyields, -⟩ := hacod.yields
  refine ⟨comp, codeds, compressed, r', hrun, hconsume, hpush,
    (hreads AcodDecoder _ _ (.init _ contextInit houtput (acodDecoderInit r')) hyields).comeBack fun source hsource => ?_⟩
  obtain ⟨r, hmem, rfl⟩ := List.mem_map.mp hsource
  exact hdocuments r hmem

/-- The documents `[1]` and `{"a":0.5}`. -/
theorem json_documents_whole_two :
    ∃ readers comp codeds compressed r', readers.map Reader.unreadBytes =
        [[0x5b, 0x31, 0x5d], [0x7b, 0x22, 0x61, 0x22, 0x3a, 0x30, 0x2e, 0x35, 0x7d]] ∧
      jsonCompressDocuments (jsonCompressorInit (readerInit contextInit) strcompInit) readers = some (comp, codeds) ∧
      (writerConsumeAllBuffers contextInit (acodEncoderDeinit
        (acodEncodeAll (acodEncoderInit (writerInit [0xaa])) (codedInput codeds.flatten)))).1 =
          { isError := false, buffer := bufferMake compressed } ∧
      readerPushBuffer (readerInit contextInit) (bufferMake compressed) = some r' ∧
      DocumentsComeBack (jsonDecompressorInit contextInit (strdecompInit (writerInit [0xaa]) (acodDecoderInit r')))
        [[0x5b, 0x31, 0x5d], [0x7b, 0x22, 0x61, 0x22, 0x3a, 0x30, 0x2e, 0x35, 0x7d]] := by
  obtain ⟨readers, hr, hbytes⟩ := readersOf_inputs
    [[0x5b, 0x31, 0x5d], [0x7b, 0x22, 0x61, 0x22, 0x3a, 0x30, 0x2e, 0x35, 0x7d]] (by simp)
  have hsource : ∀ r ∈ readers, r.unreadBytes = [0x5b, 0x31, 0x5d] ∨
      r.unreadBytes = [0x7b, 0x22, 0x61, 0x22, 0x3a, 0x30, 0x2e, 0x35, 0x7d] := by
    intro r hmem
    have hsource : r.unreadBytes ∈ readers.map Reader.unreadBytes := List.mem_map_of_mem hmem
    rw [hbytes] at hsource
    simpa using hsource
  have hdocuments : ∀ r ∈ readers, IsJsonDocument r.unreadBytes := by
    intro r hmem
    rcases hsource r hmem with hsource | hsource <;> rw [hsource, isJsonDocument_iff_lexDocument] <;> rfl
  have hfits : ∀ r ∈ readers, DocumentFits r.unreadBytes := by
    intro r hmem
    rcases hsource r hmem with hsource | hsource <;> rw [hsource] <;> exact List.all_iff_forall_prop.mp (by decide)
  obtain ⟨comp, codeds, compressed, r', hrun, hconsume, hpush, hback⟩ :=
    @json_documents_whole readers hr hdocuments hfits [0xaa] [0xaa] (by decide) (by decide)
  rw [hbytes] at hback
  exact ⟨readers, comp, codeds, compressed, r', hbytes, hrun, hconsume, hpush, hback⟩

end Scomp
