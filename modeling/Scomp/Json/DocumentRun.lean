/-
A whole document: all its tokens, and its end.

`lexTokens` is what a document consists of, without the reader: its tokens,
the state machine after them, and the bytes from the first invalid token on.
The compressor writes for these tokens and ends the document; a decompressor
in step prints them and returns false.
-/
import Scomp.Json.Emission
import Scomp.Json.Chunking

namespace Scomp

/-! ## The tokens of a document -/

/-- `fuel` is as many tokens as there may be. -/
def lexTokens (jsm : JsonStateMachine) (bytes : List Byte) : Nat → List JsonToken × JsonStateMachine × List Byte
  | 0 => ([], jsm, bytes)
  | fuel + 1 =>
    match lexStep jsm bytes with
    | none => ([], jsm, bytes)
    | some (token, n, jsm') =>
      let (tokens, last, rest) := lexTokens jsm' (bytes.drop n) fuel
      (token :: tokens, last, rest)

/-- A document starts with a fresh state machine. -/
def lexDocument (bytes : List Byte) : List JsonToken × JsonStateMachine × List Byte :=
  lexTokens jsmInit bytes bytes.length

theorem lexStep_nil (jsm : JsonStateMachine) : lexStep jsm [] = none := by
  rcases hstep : lexStep jsm [] with _ | ⟨token, n, jsm'⟩
  · rfl
  · have hle := (lexStep_valid hstep).1.le
    have hpos := (lexStep_valid hstep).1.pos
    rw [List.length_nil] at hle
    omega

theorem lexTokens_nil (jsm : JsonStateMachine) (fuel : Nat) : lexTokens jsm [] fuel = ([], jsm, []) := by
  cases fuel with
  | zero => rfl
  | succ fuel => rw [lexTokens, lexStep_nil]

/-- The tokens print back as the bytes they were read from. -/
theorem lexTokens_prints (jsm : JsonStateMachine) (bytes : List Byte) (fuel : Nat) :
    (lexTokens jsm bytes fuel).1.flatMap printToken ++ (lexTokens jsm bytes fuel).2.2 = bytes := by
  induction fuel generalizing jsm bytes with
  | zero => rfl
  | succ fuel ih =>
    rw [lexTokens]
    rcases hstep : lexStep jsm bytes with _ | ⟨token, n, jsm'⟩
    · rfl
    · have hprinted := (lexStep_valid hstep).1.printed
      have hrest := ih jsm' (bytes.drop n)
      simp only [List.flatMap_cons, hprinted, List.append_assoc, hrest, List.take_append_drop]

/-! ## All tokens -/

theorem lexStep_wellFormed {jsm jsm' : JsonStateMachine} {state : JsonState} {bytes : List Byte} {token : JsonToken}
    {n : Nat} (h : lexStep jsm bytes = some (token, n, jsm')) (hstate : jsmGetCurrentState jsm = some state) :
    TokenWellFormed (jsonIsStringState state) token ∧ jsmProcessToken jsm token.kind = some (true, jsm') := by
  obtain ⟨state', hstate', hscan, hprocess⟩ := lexStep_eq_some h
  rw [hstate] at hstate'
  cases hstate'
  exact ⟨scanToken_wellFormed hscan, hprocess⟩

/-- No token is invalid until no bytes are left. -/
def jsonCompressorAcceptsAll : Nat → JsonCompressor → Option Bool
  | 0, _ => none
  | fuel + 1, comp => do
    if (← readerGetBytesAvailable comp.tokenizer.reader) > 0 then
      let (isValid, comp, _) ← jsonCompressorProcessNextToken comp
      if isValid then jsonCompressorAcceptsAll fuel comp else return false
    else
      return true

/-- **The compressor writes for the tokens of the input**, and stops at the
first invalid one. `last` is the compressor before that token. -/
theorem jsonCompressorProcessAll_emits {fuel : Nat} {comp : JsonCompressor} {emitted pending : List Byte}
    (n : Nat) (h : JcompHolds comp emitted pending) (hr : comp.tokenizer.reader.AtByte)
    (hfuel : comp.tokenizer.reader.unreadBytes.length < fuel) (hn : comp.tokenizer.reader.unreadBytes.length ≤ n) :
    ∃ last tokenizer coded emitted' pending',
      jsonCompressorProcessAll fuel comp = some ({ last with tokenizer := tokenizer }, coded) ∧
      JcompEmits comp last (lexTokens comp.tokenizer.jsm comp.tokenizer.reader.unreadBytes n).1 coded
        emitted pending emitted' pending' ∧
      last.tokenizer.jsm = (lexTokens comp.tokenizer.jsm comp.tokenizer.reader.unreadBytes n).2.1 ∧
      JsmOK tokenizer.jsm ∧
      (∀ b, comp.tokenizer.reader.buffers = [b] →
        tokenizer.reader.unreadBytes = (lexTokens comp.tokenizer.jsm comp.tokenizer.reader.unreadBytes n).2.2) ∧
      (jsonCompressorAcceptsAll fuel comp = some true → tokenizer.reader.unreadBytes = []) := by
  induction fuel generalizing comp emitted pending n with
  | zero => omega
  | succ fuel ih =>
    simp only [jsonCompressorProcessAll, jsonCompressorAcceptsAll, hr.bytesAvailable, Option.bind_eq_bind,
      Option.bind_some]
    by_cases hne : comp.tokenizer.reader.unreadBytes = []
    · simp only [hne, List.length_nil, lexTokens_nil]
      exact ⟨comp, comp.tokenizer, [], emitted, pending, rfl, .nil h, rfl, h.jsm, fun _ _ => hne, fun _ => hne⟩
    · have hpos := List.length_pos_iff.mpr hne
      rw [if_pos (by omega), if_pos (by omega)]
      obtain ⟨n, rfl⟩ : ∃ m, n = m + 1 := ⟨n - 1, by omega⟩
      have hparse := jsonTokenizerParseNext_lexes h.jsm hr hne
      rcases hstep : lexStep comp.tokenizer.jsm comp.tokenizer.reader.unreadBytes with _ | ⟨token, k, jsm'⟩
      · rw [hstep] at hparse
        obtain ⟨tokenizer, hparsed, -, hjsm, hunread⟩ := hparse
        refine ⟨comp, tokenizer, [], emitted, pending, ?_, ?_, ?_, hjsm, ?_, fun haccepts => ?_⟩
        · simp only [jsonCompressorProcessNextToken, hparsed, Option.bind_eq_bind, Option.bind_some]
          rfl
        · simp only [lexTokens, hstep]
          exact .nil h
        · simp only [lexTokens, hstep]
        · simpa only [lexTokens, hstep] using hunread
        · simp [jsonCompressorProcessNextToken, hparsed, INVALID_JSON_TOKEN] at haccepts
      · rw [hstep] at hparse
        obtain ⟨hjsm, reader, hparsed, hahead⟩ := hparse
        obtain ⟨hreprints, -⟩ := lexStep_valid hstep
        obtain ⟨hw, haccepted⟩ := lexStep_wellFormed hstep h.state
        have hk := hreprints.pos
        obtain ⟨comp₁, first, emitted₁, pending₁, hwrite, htokenizer, hemits⟩ :=
          @JcompHolds.writeToken _ _ _ _ ⟨jsm', reader⟩ h hw hreprints.valid haccepted hjsm
        have hunread : comp₁.tokenizer.reader.unreadBytes = comp.tokenizer.reader.unreadBytes.drop k := by
          rw [htokenizer]
          exact hahead.unread
        have hlength : comp₁.tokenizer.reader.unreadBytes.length ≤ n := by
          rw [hunread, List.length_drop]
          omega
        obtain ⟨last, tokenizer, rest, emitted₂, pending₂, hall, hemits₂, hlast, hok, hend, haccepts⟩ :=
          ih n hemits.holds (by rw [htokenizer]; exact hahead.atByte) (by rw [hunread, List.length_drop]; omega) hlength
        rw [hunread, htokenizer] at hemits₂ hlast hend
        refine ⟨last, tokenizer, first ++ rest, emitted₂, pending₂, ?_, ?_, ?_, hok, fun b hb => ?_, fun hvalid => ?_⟩
        · simp only [jsonCompressorProcessNextToken, hparsed, if_neg hreprints.valid, hwrite, hall,
            Option.bind_eq_bind, Option.bind_some, Option.pure_def, if_true]
        · simp only [lexTokens, hstep]
          exact hemits.append hemits₂
        · simp only [lexTokens, hstep]
          exact hlast
        · simp only [lexTokens, hstep]
          exact hend b (hahead.buffers.trans hb)
        · simp only [jsonCompressorProcessNextToken, hparsed, if_neg hreprints.valid, hwrite,
            Option.bind_eq_bind, Option.bind_some, Option.pure_def, if_true] at hvalid
          exact haccepts hvalid

/-! ## The end -/

/-- The decompressor's tables after a document that ended here: within a
string it counts the end, which the compressor does not. -/
def jsonEndedTables (base : JsonCompressionBase) : JsonCompressionBase :=
  if jsonIsStringState base.currentState then jsonCompressionBaseIncrementCurrent base (jsonEndSymbol base).symbol
  else base

theorem JsonTablesReady.encodableEnd {base : JsonCompressionBase} (h : JsonTablesReady base) :
    AllCodable [jsonEndSymbol base] := by
  have heof : (jsonEndSymbol base).symbol < 18 := by
    show ftableGetEofSymbol (base.tables base.currentState) < 18
    rw [ftableGetEofSymbol_of_length (h.limits base.currentState) (by decide)]
    decide
  intro c hc
  obtain rfl := List.mem_singleton.mp hc
  exact (h.tokens base.currentState).codable heof

/-- **The end of a document** on both sides, in any state. -/
theorem JcompHolds.finalize {last : JsonCompressor} {emitted pending : List Byte} (h : JcompHolds last emitted pending)
    (tokenizer : JsonTokenizer) :
    ∃ strcomp coded, jsonCompressorFinalize { last with tokenizer := tokenizer } =
        some (jsonCompressorReset { last with tokenizer := tokenizer, strcomp := strcomp }, coded) ∧
      StrcompHolds strcomp (emitted ++ pending) [] ∧
      (JcompReady last → StringTablesReady strcomp.base ∧ AllCodable coded) ∧
      ∀ (δ : Type) [SymbolDecoder δ] (decomp : JsonDecompressor δ) (decoder : δ),
        JsonSynced decomp (last.shared emitted) → Yields decomp.decoder coded decoder →
        ∃ decomp', JsonFinishes decomp decomp' ∧
          JsonSynced decomp' ⟨jsonEndedTables last.base, strcomp.base, last.tokenizer.jsm, emitted ++ pending⟩ ∧
          decomp'.writer.bytes = decomp.writer.bytes ++ pending ∧ decomp'.decoder = decoder := by
  by_cases hs : jsonIsStringState last.base.currentState = true
  · obtain ⟨strcomp, coded, hflush, hstrings, hended, hdecodes⟩ := h.flush hs
    refine ⟨strcompEnded strcomp, coded ++ [strcompEndSymbol strcomp] ++ [jsonEndSymbol last.base], ?_, hstrings,
      fun hready => ?_, fun δ _ decomp decoder hsynced hyields => ?_⟩
    · simp only [jsonCompressorFinalize, if_pos hs, hflush, Option.bind_eq_bind, Option.bind_some]
      rfl
    · obtain ⟨hready', hall⟩ := hended hready.strings
      exact ⟨hready', hall.append hready.tables.encodableEnd⟩
    · rw [List.append_assoc] at hyields
      obtain ⟨decoder₁, hstring, hend⟩ := hyields.append
      obtain ⟨decomp₁, hreads, hsynced₁, hbytes₁, rfl⟩ := hdecodes δ decomp decoder₁ hsynced hstring
      obtain ⟨decomp₂, hread, hsynced₂, hwriter, hdecoder⟩ := hsynced₁.readStringEnd hs hend
      refine ⟨decomp₂, ⟨decomp₁, hreads, hread⟩, ?_, by rw [hwriter, hbytes₁], hdecoder⟩
      rw [jsonEndedTables, if_pos hs]
      exact hsynced₂
  · have hplain : jsonIsStringState last.base.currentState = false := by simpa using hs
    obtain rfl := h.plain hplain
    refine ⟨last.strcomp, [jsonEndSymbol last.base], ?_, by simpa using h.strings,
      fun hready => ⟨hready.strings, hready.tables.encodableEnd⟩, fun δ _ decomp decoder hsynced hyields => ?_⟩
    · simp only [jsonCompressorFinalize, if_neg hs, Option.bind_eq_bind, Option.bind_some]
      rfl
    · obtain ⟨decomp₁, hread, hsynced₁, hwriter, hdecoder⟩ := hsynced.readEnd hplain hyields
      refine ⟨decomp₁, ⟨decomp, .refl, hread⟩, ?_, by simp [hwriter], hdecoder⟩
      rw [jsonEndedTables, if_neg hs, List.append_nil]
      exact hsynced₁

/-! ## Documents -/

theorem JsmOK.reset {jsm : JsonStateMachine} (h : JsmOK jsm) : jsmReset jsm = jsmInit := by
  obtain ⟨stack, rfl, -⟩ := h
  rfl

/-- A compressor's run over a document with these tokens. `base` is its side
of the tables where the document ends. -/
structure DocumentEmits (comp comp' : JsonCompressor) (base : JsonCompressionBase) (tokens : List JsonToken)
    (coded : List CodedSymbol) (emitted emitted' : List Byte) : Prop where
  holds : JcompHolds comp' emitted' []
  start : comp'.tokenizer.jsm = jsmInit
  tables : comp'.base = jsonCompressionBaseReset base
  ready : JcompReady comp → (∀ token ∈ tokens, TokenFits token) → JcompReady comp' ∧ AllCodable coded
  fits : JcompReady comp → (∀ c ∈ coded, c.Contained) → ∀ token ∈ tokens, TokenFits token
  decodes : ∀ (δ : Type) [SymbolDecoder δ] (decomp : JsonDecompressor δ) (decoder : δ),
    JsonSynced decomp (comp.shared emitted) → Yields decomp.decoder coded decoder →
    ∃ decomp', JsonFinishes decomp decomp' ∧ decomp'.base = jsonEndedTables base ∧
      StrSynced decomp'.strdecomp comp'.strcomp.base emitted' ∧ jsmReset decomp'.jsm = jsmInit ∧
      decomp'.writer.bytes = decomp.writer.bytes ++ tokens.flatMap printToken ∧ decomp'.decoder = decoder

/-- **A document**: the compressor never fails on it, and whatever decoder
yields what it writes, a decompressor in step prints its tokens and ends. -/
theorem jsonCompressDocument_emits {comp : JsonCompressor} {emitted : List Byte} (h : JcompHolds comp emitted [])
    (hstart : comp.tokenizer.jsm = jsmInit) (hr : comp.tokenizer.reader.AtByte) :
    ∃ comp' coded base emitted', jsonCompressDocument comp = some (comp', coded) ∧
      DocumentEmits comp comp' base (lexDocument comp.tokenizer.reader.unreadBytes).1 coded emitted emitted' ∧
      jsmGetCurrentState (lexDocument comp.tokenizer.reader.unreadBytes).2.1 = some base.currentState ∧
      (∀ b, comp.tokenizer.reader.buffers = [b] →
        comp'.tokenizer.reader.unreadBytes = (lexDocument comp.tokenizer.reader.unreadBytes).2.2) ∧
      (jsonCompressorAcceptsAll (comp.tokenizer.reader.unreadBytes.length + 1) comp = some true →
        comp'.tokenizer.reader.unreadBytes = []) := by
  obtain ⟨last, tokenizer, body, emitted₁, pending₁, hall, hemits, hlast, hok, hend, haccepts⟩ :=
    @jsonCompressorProcessAll_emits (comp.tokenizer.reader.unreadBytes.length + 1) comp emitted []
      comp.tokenizer.reader.unreadBytes.length h hr (Nat.lt_succ_self _) (Nat.le_refl _)
  rw [hstart] at hemits hlast hend
  obtain ⟨strcomp, tail, hfinalize, hstrings, hready, hfinishes⟩ := hemits.holds.finalize tokenizer
  have hreset := hok.reset
  refine ⟨jsonCompressorReset { last with tokenizer := tokenizer, strcomp := strcomp }, body ++ tail, last.base,
    emitted₁ ++ pending₁, ?_, ⟨?_, hreset, rfl, fun hready₀ hfits => ?_, fun hready₀ hcontained => ?_, ?_⟩, ?_, hend, haccepts⟩
  · simp only [jsonCompressDocument, hr.bytesAvailable, Option.bind_eq_bind, Option.bind_some, Int.toNat_natCast, hall,
      hfinalize]
    rfl
  · refine ⟨hstrings, by decide, ?_, fun _ => rfl, hemits.holds.limits, ?_⟩
    · show jsmGetCurrentState (jsmReset tokenizer.jsm) = some .start
      rw [hreset]
      rfl
    · show JsmOK (jsmReset tokenizer.jsm)
      rw [hreset]
      exact .init
  · obtain ⟨hready₁, hencodable⟩ := hemits.ready hready₀ hfits
    obtain ⟨hstringsReady, hencodable'⟩ := hready hready₁
    exact ⟨⟨⟨hready₁.tables.tokens, hready₁.tables.whitespaces, hready₁.tables.numbers⟩, hstringsReady⟩,
      hencodable.append hencodable'⟩
  · exact hemits.fits hready₀ fun c hc => hcontained c (List.mem_append_left _ hc)
  · intro δ _ decomp decoder hsynced hyields
    obtain ⟨bytes, hbytes, hdecodes⟩ := hemits.decodes
    obtain ⟨decoder₁, hfirst, hsecond⟩ := hyields.append
    obtain ⟨decomp₁, hreads, hsynced₁, hbytes₁, rfl⟩ := hdecodes δ decomp decoder₁ hsynced hfirst
    obtain ⟨decomp₂, ⟨final, hreads', hreturn⟩, hsynced₂, hbytes₂, hdecoder⟩ := hfinishes δ decomp₁ decoder hsynced₁ hsecond
    refine ⟨decomp₂, ⟨final, hreads.trans hreads', hreturn⟩, hsynced₂.tables, hsynced₂.strings, ?_, ?_, hdecoder⟩
    · rw [hsynced₂.jsm]
      exact hemits.holds.jsm.reset
    · rw [hbytes₂, hbytes₁, List.append_assoc, hbytes, List.nil_append]
      rfl
  · rw [lexDocument, ← hlast]
    exact hemits.holds.state

/-! ## The first document -/

theorem JcompHolds.init (r : Reader) : JcompHolds (jsonCompressorInit r strcompInit) [] [] :=
  ⟨.init, by decide, rfl, fun _ => rfl, JsonTablesReady.init.limits, .init⟩

theorem JcompReady.init (r : Reader) : JcompReady (jsonCompressorInit r strcompInit) := ⟨.init, .init⟩

/-- A fresh pair is in step. -/
theorem JsonSynced.init {δ : Type} (r : Reader) (context : Context) {staleBytes : List Byte}
    (hsize : 0 < staleBytes.length) (decoder : δ) :
    JsonSynced (jsonDecompressorInit context (strdecompInit (writerInit staleBytes) decoder))
      ((jsonCompressorInit r strcompInit).shared []) :=
  ⟨rfl, .init (.init hsize) decoder, rfl⟩

end Scomp
