/-
Documents sent one after another through the same pair.

The end of a document is a symbol of the current state's table.
`json_compressor_finalize` does not count it, and neither does the
decompressor outside strings; within a string the decompressor counts it.
So the tables of the two sides stay the same up to the first document that
stops within a string, and differ after it.
-/
import Scomp.Lib.Until
import Scomp.Json.RoundTrip

namespace Scomp

/-- A document that stops or breaks within a string or an object key. -/
def documentEndsInString (bytes : List Byte) : Bool :=
  (jsmGetCurrentState (lexDocument bytes).2.1).any jsonIsStringState

def JsonCompressor.withReader (comp : JsonCompressor) (r : Reader) : JsonCompressor :=
  { comp with tokenizer := { comp.tokenizer with reader := r } }

/-- Each document is what its reader holds. -/
def jsonCompressDocuments (comp : JsonCompressor) : List Reader → Option (JsonCompressor × List (List CodedSymbol))
  | [] => some (comp, [])
  | r :: readers => do
    let (comp, coded) ← jsonCompressDocument (comp.withReader r)
    let (comp, rest) ← jsonCompressDocuments comp readers
    return (comp, coded :: rest)

section Synced

variable {δ : Type}

/-- Each table has the same frequencies on both sides. -/
structure SameTables (comp : JsonCompressor) (decomp : JsonDecompressor δ) : Prop where
  tokens : ∀ state, decomp.base.tables state = comp.base.tables state
  whitespaces : decomp.base.whitespaces = comp.base.whitespaces
  numbers : ∀ part, decomp.base.numberTables part = comp.base.numberTables part
  strings : decomp.strdecomp.base = comp.strcomp.base

variable [SymbolDecoder δ]

/-- The decompressor finishes each document and is reset; then the tables are
the compressor's. -/
def DocumentsSynced : JsonCompressor → JsonDecompressor δ → List Reader → Prop
  | _, _, [] => True
  | comp, decomp, r :: readers =>
    ∃ comp' coded decomp', jsonCompressDocument (comp.withReader r) = some (comp', coded) ∧
      JsonFinishes decomp decomp' ∧ SameTables comp' (jsonDecompressorReset decomp') ∧
      DocumentsSynced comp' (jsonDecompressorReset decomp') readers

end Synced

/-! ## One document -/

section OneDocument

variable {δ : Type}

/-- A document that does not stop within a string leaves the two sides in
step. -/
theorem DocumentEmits.synced {comp comp' : JsonCompressor} {base : JsonCompressionBase} {tokens : List JsonToken}
    {coded : List CodedSymbol} {emitted emitted' : List Byte} {decomp' : JsonDecompressor δ}
    (h : DocumentEmits comp comp' base tokens coded emitted emitted')
    (hstate : jsonIsStringState base.currentState = false) (htables : decomp'.base = jsonEndedTables base)
    (hstrings : StrSynced decomp'.strdecomp comp'.strcomp.base emitted') (hjsm : jsmReset decomp'.jsm = jsmInit) :
    JsonSynced (jsonDecompressorReset decomp') (comp'.shared emitted') := by
  have hended : jsonEndedTables base = base := by simp [jsonEndedTables, hstate]
  refine ⟨?_, hstrings, ?_⟩
  · show jsonCompressionBaseReset decomp'.base = comp'.base
    rw [htables, hended, h.tables]
  · show jsmReset decomp'.jsm = comp'.tokenizer.jsm
    rw [hjsm, h.start]

theorem JsonSynced.sameTables {comp : JsonCompressor} {decomp : JsonDecompressor δ} {emitted : List Byte}
    (h : JsonSynced decomp (comp.shared emitted)) : SameTables comp decomp := by
  have htables : decomp.base = comp.base := h.tables
  exact ⟨fun state => by rw [htables], by rw [htables], fun part => by rw [htables], h.strings.tables⟩

/-- A document that stops within a string does not. -/
theorem DocumentEmits.differs {comp comp' : JsonCompressor} {base : JsonCompressionBase} {tokens : List JsonToken}
    {coded : List CodedSymbol} {emitted emitted' : List Byte} {decomp' : JsonDecompressor δ}
    (h : DocumentEmits comp comp' base tokens coded emitted emitted') (hready : JcompReady comp')
    (hstate : jsonIsStringState base.currentState = true) (htables : decomp'.base = jsonEndedTables base) :
    ¬SameTables comp' (jsonDecompressorReset decomp') := by
  intro hsame
  have htable : comp'.base.tables base.currentState = base.tables base.currentState := by rw [h.tables]; rfl
  have hended : (jsonDecompressorReset decomp').base.tables base.currentState =
      ftableIncrement (base.tables base.currentState) (jsonEndSymbol base).symbol := by
    show decomp'.base.tables base.currentState = _
    rw [htables, jsonEndedTables, if_pos hstate]
    exact Function.update_self ..
  have hequal := hsame.tokens base.currentState
  have hok := hready.tables.tokens base.currentState
  rw [htable] at hequal hok
  rw [hended] at hequal
  exact ftableIncrement_ne _ hok.ok (by rw [hok.limit_eq]; decide) hequal

end OneDocument

/-! ## All documents -/

/-- No number of the document has a fraction that is too large. -/
def DocumentFits (bytes : List Byte) : Prop := ∀ token ∈ (lexDocument bytes).1, TokenFits token

/-- **A run over documents**: it never fails, and the two sides stay
synchronised exactly as long as no document stops within a string. -/
theorem jsonCompressDocuments_emits {comp : JsonCompressor} {emitted : List Byte} {readers : List Reader}
    (h : JcompHolds comp emitted []) (hstart : comp.tokenizer.jsm = jsmInit) (hr : ∀ r ∈ readers, r.AtByte) :
    ∃ comp' codeds, jsonCompressDocuments comp readers = some (comp', codeds) ∧
      (JcompReady comp → (∀ c ∈ codeds.flatten, c.Contained) → ∀ r ∈ readers, DocumentFits r.unreadBytes) ∧
      (JcompReady comp → (∀ r ∈ readers, DocumentFits r.unreadBytes) → AllCodable codeds.flatten ∧
        ∀ (δ : Type) [SymbolDecoder δ] (decomp : JsonDecompressor δ) (decoder : δ),
          JsonSynced decomp (comp.shared emitted) → Yields decomp.decoder codeds.flatten decoder →
          (DocumentsSynced comp decomp readers ↔ ∀ r ∈ readers, documentEndsInString r.unreadBytes = false)) := by
  induction readers generalizing comp emitted with
  | nil =>
    refine ⟨comp, [], rfl, fun _ _ r hmem => (by cases hmem), fun _ _ =>
      ⟨fun c hc => by simp at hc, fun δ _ decomp decoder _ _ => ?_⟩⟩
    simp [DocumentsSynced]
  | cons r readers ih =>
    obtain ⟨comp₁, coded, base, emitted₁, hrun, hemits, hend, -⟩ :=
      @jsonCompressDocument_emits (comp.withReader r) emitted
        ⟨h.strings, h.room, h.state, h.plain, h.limits, h.jsm⟩ hstart (hr r (by simp))
    obtain ⟨comp₂, codeds, hrest, hcontains, hsynced⟩ :=
      ih hemits.holds hemits.start fun r' hmem => hr r' (by simp [hmem])
    have hends : documentEndsInString r.unreadBytes = jsonIsStringState base.currentState := by
      rw [documentEndsInString, show r = (comp.withReader r).tokenizer.reader from rfl, hend, Option.any_some]
    have hready₀ : JcompReady comp → JcompReady (comp.withReader r) := fun hready => ⟨hready.tables, hready.strings⟩
    refine ⟨comp₂, coded :: codeds, ?_, fun hready hcontained => ?_, fun hready hfits => ?_⟩
    · simp only [jsonCompressDocuments, hrun, hrest, Option.bind_eq_bind, Option.bind_some]
      rfl
    · rw [List.flatten_cons] at hcontained
      have hfirst := hemits.fits (hready₀ hready) fun c hc => hcontained c (List.mem_append_left _ hc)
      have hready₁ := (hemits.ready (hready₀ hready) hfirst).1
      have hrest := hcontains hready₁ fun c hc => hcontained c (List.mem_append_right _ hc)
      exact List.forall_mem_cons.mpr ⟨hfirst, hrest⟩
    obtain ⟨hfitsFirst, hfitsRest⟩ := List.forall_mem_cons.mp hfits
    obtain ⟨hready₁, hall⟩ := hemits.ready (hready₀ hready) hfitsFirst
    obtain ⟨hall', hiff⟩ := hsynced hready₁ hfitsRest
    rw [List.flatten_cons]
    refine ⟨hall.append hall', fun δ _ decomp decoder hstep hyields => ?_⟩
    obtain ⟨decoder₁, hfirst, hsecond⟩ := hyields.append
    obtain ⟨decomp₁, hfinishes, htables, hstrings, hjsm, -, rfl⟩ := hemits.decodes δ decomp decoder₁ hstep hfirst
    -- both runs are determined, so the first document is this one
    have hcons : DocumentsSynced comp decomp (r :: readers) ↔ SameTables comp₁ (jsonDecompressorReset decomp₁) ∧
        DocumentsSynced comp₁ (jsonDecompressorReset decomp₁) readers := by
      constructor
      · rintro ⟨comp', coded', decomp', hrun', hfinishes', hsame, hlater⟩
        rw [hrun] at hrun'
        cases hrun'
        obtain rfl := Until.Finishes.unique hfinishes hfinishes'
        exact ⟨hsame, hlater⟩
      · rintro ⟨hsame, hlater⟩
        exact ⟨comp₁, coded, decomp₁, hrun, hfinishes, hsame, hlater⟩
    rw [hcons, List.forall_mem_cons, hends]
    cases hstate : jsonIsStringState base.currentState with
    | true =>
      have hdiffers := hemits.differs hready₁ hstate htables
      exact ⟨fun h => absurd h.1 hdiffers, fun h => absurd h.1 (by decide)⟩
    | false =>
      have hnext := hemits.synced hstate htables hstrings hjsm
      have hlater := hiff δ (jsonDecompressorReset decomp₁) decoder hnext hsecond
      exact ⟨fun h => ⟨rfl, hlater.1 h.2⟩, fun h => ⟨hnext.sameTables, hlater.2 h.2⟩⟩

/-- All documents are compressed with symbols of their tables. -/
def DocumentsContained (readers : List Reader) : Prop :=
  ∃ comp codeds, jsonCompressDocuments (jsonCompressorInit (readerInit contextInit) strcompInit) readers =
    some (comp, codeds) ∧ ∀ c ∈ codeds.flatten, c.Contained

/-- The documents go through one arithmetic encoder; a fresh decompressor on
its bytes is in step with the compressor after each of them. -/
def JsonDocumentsSynced (readers : List Reader) : Prop :=
  ∀ staleCompressed staleOutput : List Byte, 0 < staleCompressed.length → 0 < staleOutput.length →
    ∃ comp codeds compressed r',
      jsonCompressDocuments (jsonCompressorInit (readerInit contextInit) strcompInit) readers = some (comp, codeds) ∧
      (writerConsumeAllBuffers contextInit (acodEncoderDeinit
        (acodEncodeAll (acodEncoderInit (writerInit staleCompressed)) (codedInput codeds.flatten)))).1 =
          { isError := false, buffer := bufferMake compressed } ∧
      readerPushBuffer (readerInit contextInit) (bufferMake compressed) = some r' ∧
      DocumentsSynced (jsonCompressorInit (readerInit contextInit) strcompInit)
        (jsonDecompressorInit contextInit (strdecompInit (writerInit staleOutput) (acodDecoderInit r'))) readers

/-- What a fresh pair does with documents, whatever the memory of the writers. -/
theorem jsonDocuments_fresh {readers : List Reader} (hr : ∀ r ∈ readers, r.AtByte)
    (hfits : ∀ r ∈ readers, DocumentFits r.unreadBytes) {staleCompressed staleOutput : List Byte}
    (hcompressed : 0 < staleCompressed.length) (houtput : 0 < staleOutput.length) :
    ∃ comp codeds compressed r',
      jsonCompressDocuments (jsonCompressorInit (readerInit contextInit) strcompInit) readers = some (comp, codeds) ∧
      (writerConsumeAllBuffers contextInit (acodEncoderDeinit
        (acodEncodeAll (acodEncoderInit (writerInit staleCompressed)) (codedInput codeds.flatten)))).1 =
          { isError := false, buffer := bufferMake compressed } ∧
      readerPushBuffer (readerInit contextInit) (bufferMake compressed) = some r' ∧
      (DocumentsSynced (jsonCompressorInit (readerInit contextInit) strcompInit)
          (jsonDecompressorInit contextInit (strdecompInit (writerInit staleOutput) (acodDecoderInit r'))) readers ↔
        ∀ r ∈ readers, documentEndsInString r.unreadBytes = false) := by
  obtain ⟨comp, codeds, hrun, -, hemits⟩ := jsonCompressDocuments_emits (.init (readerInit contextInit)) rfl hr
  obtain ⟨hall, hiff⟩ := hemits (.init _) hfits
  obtain ⟨compressed, r', hconsume, hpush, hacod, -⟩ := acodYields_of_consumed contextInit hcompressed hall.codedInput
  obtain ⟨decoder', hyields, -⟩ := hacod.yields
  exact ⟨comp, codeds, compressed, r', hrun, hconsume, hpush,
    hiff AcodDecoder _ _ (.init _ contextInit houtput (acodDecoderInit r')) hyields⟩

theorem documentsContained_iff {readers : List Reader} (hr : ∀ r ∈ readers, r.AtByte) :
    DocumentsContained readers ↔ ∀ r ∈ readers, DocumentFits r.unreadBytes := by
  obtain ⟨comp, codeds, hrun, hfits, hemits⟩ := jsonCompressDocuments_emits (.init (readerInit contextInit)) rfl hr
  constructor
  · rintro ⟨comp', codeds', hrun', hcontained⟩
    rw [hrun] at hrun'
    cases hrun'
    exact hfits (.init _) hcontained
  · intro h
    obtain ⟨hall, -⟩ := hemits (.init _) h
    exact ⟨comp, codeds, hrun, fun c hc => (hall c hc).lt⟩

/-- A document that stops within a string ends the synchrony. -/
theorem JsonDocumentsSynced.ends {readers : List Reader} (hsynced : JsonDocumentsSynced readers)
    (hr : ∀ r ∈ readers, r.AtByte) (hcontained : DocumentsContained readers) :
    ∀ r ∈ readers, documentEndsInString r.unreadBytes = false := by
  obtain ⟨comp, codeds, compressed, r', hrun, hconsume, hpush, hsame⟩ := hsynced [0] [0] (by decide) (by decide)
  obtain ⟨comp₁, codeds₁, compressed₁, r₁, hrun₁, hconsume₁, hpush₁, hiff⟩ :=
    @jsonDocuments_fresh _ hr ((documentsContained_iff hr).1 hcontained) [0] [0] (by decide) (by decide)
  rw [hrun] at hrun₁
  cases hrun₁
  have hbuffer : bufferMake compressed = bufferMake compressed₁ :=
    congrArg BufferOrError.buffer (hconsume.symm.trans hconsume₁)
  rw [← hbuffer, hpush] at hpush₁
  cases hpush₁
  exact hiff.1 hsame

/-- **When documents stay synchronised**: exactly as long as none of them
stops within a string or an object key. -/
theorem json_documents_synced_iff {readers : List Reader} (hr : ∀ r ∈ readers, r.AtByte)
    (hcontained : DocumentsContained readers) :
    JsonDocumentsSynced readers ↔ ∀ r ∈ readers, documentEndsInString r.unreadBytes = false := by
  constructor
  · intro hsynced
    exact hsynced.ends hr hcontained
  · intro hends staleCompressed staleOutput hcompressed houtput
    obtain ⟨comp, codeds, compressed, r', hrun, hconsume, hpush, hiff⟩ :=
      jsonDocuments_fresh hr ((documentsContained_iff hr).1 hcontained) hcompressed houtput
    exact ⟨comp, codeds, compressed, r', hrun, hconsume, hpush, hiff.2 hends⟩

/-- A reader for each of these inputs. -/
theorem readersOf_inputs (inputs : List (List Byte)) (hne : ∀ src ∈ inputs, src ≠ []) :
    ∃ readers : List Reader, (∀ r ∈ readers, r.AtByte) ∧ readers.map Reader.unreadBytes = inputs := by
  induction inputs with
  | nil => exact ⟨[], by simp, rfl⟩
  | cons src inputs ih =>
    have hpos : 0 < (bufferMake src).length := List.length_pos_iff.mpr (hne src (by simp))
    obtain ⟨readers, hat, hbytes⟩ := ih fun other hmem => hne other (by simp [hmem])
    obtain ⟨r, -, hr, hread, -⟩ := (Reader.AtByte.init contextInit).push hpos
    rw [readerInit_unreadBytes, bufferMake_bytes, List.nil_append] at hread
    exact ⟨r :: readers, List.forall_mem_cons.mpr ⟨hr, hat⟩, by rw [List.map_cons, hread, hbytes]⟩

/-- The documents `[1`, which stops, and `"a"`. -/
theorem json_documents_synced_two :
    ∃ readers : List Reader, readers.map Reader.unreadBytes = [[0x5b, 0x31], [0x22, 0x61, 0x22]] ∧
      JsonDocumentsSynced readers := by
  obtain ⟨readers, hr, hbytes⟩ := readersOf_inputs [[0x5b, 0x31], [0x22, 0x61, 0x22]] (by simp)
  have hall : ∀ p : List Byte → Prop, (∀ src ∈ ([[0x5b, 0x31], [0x22, 0x61, 0x22]] : List (List Byte)), p src) →
      ∀ r ∈ readers, p r.unreadBytes := by
    intro p hp r hmem
    exact hp _ (by rw [← hbytes]; exact List.mem_map_of_mem hmem)
  have hfits : ∀ r ∈ readers, DocumentFits r.unreadBytes := by
    refine hall DocumentFits fun src hmem => ?_
    simp only [List.mem_cons, List.not_mem_nil, or_false] at hmem
    rcases hmem with rfl | rfl <;> exact List.all_iff_forall_prop.mp (by decide)
  have hends : ∀ r ∈ readers, documentEndsInString r.unreadBytes = false := by
    refine hall (fun src => documentEndsInString src = false) fun src hmem => ?_
    simp only [List.mem_cons, List.not_mem_nil, or_false] at hmem
    rcases hmem with rfl | rfl <;> decide
  exact ⟨readers, hbytes, (json_documents_synced_iff hr ((documentsContained_iff hr).2 hfits)).2 hends⟩

/-- The document `"a`, which stops within its string. -/
theorem json_documents_desynced :
    ∃ readers : List Reader, readers.map Reader.unreadBytes = [[0x22, 0x61]] ∧ (∀ r ∈ readers, r.AtByte) ∧
      DocumentsContained readers ∧ ¬JsonDocumentsSynced readers := by
  obtain ⟨readers, hr, hbytes⟩ := readersOf_inputs [[0x22, 0x61]] (by simp)
  obtain ⟨r, rfl⟩ : ∃ r, readers = [r] := by
    have hlength := congrArg List.length hbytes
    simp only [List.length_map, List.length_cons, List.length_nil] at hlength
    exact List.length_eq_one_iff.mp hlength
  have hread : r.unreadBytes = [0x22, 0x61] := by simpa using hbytes
  have hcontained : DocumentsContained [r] := by
    rw [documentsContained_iff hr]
    intro r' hmem
    rw [List.mem_singleton.mp hmem, hread]
    exact List.all_iff_forall_prop.mp (by decide)
  refine ⟨[r], hbytes, hr, hcontained, fun hsynced => ?_⟩
  have hends := hsynced.ends hr hcontained r (by simp)
  rw [hread] at hends
  exact absurd hends (by decide)

end Scomp
