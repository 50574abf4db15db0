/-
The compressor as a stream: it is called while a safe amount of its input has
arrived, and at the end of the input until an invalid token or no bytes are
left.

What it writes depends on the tokens alone (`JcompWrites`), so the chunks of
the input and the output taken on the way make no difference to the
compressed bytes.
-/
import Scomp.ArithmeticCoding.EncoderDraining
import Scomp.ArithmeticCoding.Precision
import Scomp.Json.Documents
import Scomp.Json.Streams

namespace Scomp

/-! ## Sessions -/

/-- A compressor, and the encoder that it writes to. -/
structure CompressorSession where
  comp : JsonCompressor
  encoder : AcodEncoder

def CompressorSession.reader (session : CompressorSession) : Reader := session.comp.tokenizer.reader

def CompressorSession.withReader (session : CompressorSession) (reader : Reader) : CompressorSession :=
  { session with comp := session.comp.withReader reader }

def CompressorSession.withWriter (session : CompressorSession) (writer : Writer) : CompressorSession :=
  { session with encoder := { session.encoder with writer := writer } }

/-- What a compressor has written goes to the encoder. -/
def CompressorSession.wrote (session : CompressorSession) (comp : JsonCompressor) (coded : List CodedSymbol) :
    CompressorSession := ⟨comp, acodEncodeAll session.encoder (codedInput coded)⟩

/-- `none`: a symbol is not in its table, against the assertion of
`ftree_sum`. -/
def CompressorSession.write (session : CompressorSession) (comp : JsonCompressor) (coded : List CodedSymbol) :
    Option CompressorSession :=
  if ∀ c ∈ coded, c.Contained then some (session.wrote comp coded) else none

/-- One operation: the output taken, and whether no token was invalid. -/
def compressApply (session : CompressorSession) : StreamOp → Option (List Byte × Bool × CompressorSession)
  | .pushBuffer b => do return ([], true, session.withReader (← readerPushBuffer session.reader b))
  | .recoverExhaustedBuffer => do return ([], true, session.withReader (← readerRecoverAny session.reader))
  | .output op => do
    let (taken, writer) ← writerApply session.encoder.writer op
    return (taken, true, session.withWriter writer)
  | .processNextToken => do
    if ← readerHasSafeAmountOfData session.reader then
      let (isValid, comp, coded) ← jsonCompressorProcessNextToken session.comp
      return ([], isValid, ← session.write comp coded)
    else return ([], true, session)

/-- Operations until a token is invalid. -/
def compressRun : List StreamOp → CompressorSession → Option (List Byte × Bool × CompressorSession)
  | [], session => some ([], true, session)
  | op :: ops, session => do
    let (taken, isValid, session) ← compressApply session op
    if isValid then
      let (rest, isValid, session) ← compressRun ops session
      return (taken ++ rest, isValid, session)
    else return (taken, false, session)

/-- The rest of the input, when all of it has arrived. -/
def compressRest (session : CompressorSession) : Option CompressorSession := do
  let available ← readerGetBytesAvailable session.reader
  let (comp, coded) ← jsonCompressorProcessAll (available.toNat + 1) session.comp
  session.write comp coded

/-- The end of the document, and the output that has not been taken. -/
def compressFinish (session : CompressorSession) : Option (List Byte × JsonCompressor) := do
  let (comp, coded) ← jsonCompressorFinalize session.comp
  let session ← session.write comp coded
  let (rest, _) := writerConsumeAllBuffers contextInit (acodEncoderDeinit session.encoder)
  if rest.isError then none else return (rest.buffer.bytes, comp)

/-- A whole session, with everything that comes out. -/
def compressAll (ops : List StreamOp) (session : CompressorSession) : Option (List Byte × JsonCompressor) := do
  let (taken, isValid, session) ← compressRun ops session
  let session ← if isValid then compressRest session else some session
  let (rest, comp) ← compressFinish session
  return (taken ++ rest, comp)

/-! ## What the compressor writes -/

/-- The symbols for these bytes up to the first invalid token, and the tables
after them. No reader is looked at. -/
inductive JcompWrites : JsonCompressor → List Byte → List CodedSymbol → JsonCompressionBase → StringCompressor → Prop
  | stop {comp bytes} : lexStep comp.tokenizer.jsm bytes = none → JcompWrites comp bytes [] comp.base comp.strcomp
  | token {comp comp' bytes token n jsm reader first rest base strcomp} :
      lexStep comp.tokenizer.jsm bytes = some (token, n, jsm) →
      jsonCompressorWriteToken { comp with tokenizer := ⟨jsm, reader⟩ } token = some (comp', first) →
      JcompWrites comp' (bytes.drop n) rest base strcomp → JcompWrites comp bytes (first ++ rest) base strcomp

/-- Only the state of the tokenizer matters when a token is written. -/
theorem jsonCompressorWriteToken_withReader {comp comp' : JsonCompressor} {jsm : JsonStateMachine} {reader : Reader}
    {token : JsonToken} {coded : List CodedSymbol} (reader' : Reader)
    (h : jsonCompressorWriteToken { comp with tokenizer := ⟨jsm, reader⟩ } token = some (comp', coded)) :
    jsonCompressorWriteToken { comp with tokenizer := ⟨jsm, reader'⟩ } token = some (comp'.withReader reader', coded) ∧
      comp'.tokenizer = ⟨jsm, reader⟩ := by
  simp only [jsonCompressorWriteToken, jsonTokenizerGetCurrentState] at h ⊢
  obtain ⟨newState, hstate, h⟩ := Option.bind_eq_some_iff.mp h
  simp only [hstate, Option.bind_eq_bind, Option.bind_some]
  split at h
  · next hs =>
    cases h
    rw [if_pos hs]
    exact ⟨rfl, rfl⟩
  · next hs =>
    rw [if_neg hs]
    obtain ⟨⟨strcomp, first⟩, hwrite, h⟩ := Option.bind_eq_some_iff.mp h
    simp only [hwrite, Option.bind_some]
    split at h
    · next hkind =>
      cases h
      rw [if_pos hkind]
      exact ⟨rfl, rfl⟩
    · next hkind =>
      cases h
      rw [if_neg hkind]
      exact ⟨rfl, rfl⟩

theorem JcompWrites.withReader {comp : JsonCompressor} {bytes : List Byte} {coded : List CodedSymbol}
    {base : JsonCompressionBase} {strcomp : StringCompressor} (h : JcompWrites comp bytes coded base strcomp)
    (reader : Reader) : JcompWrites (comp.withReader reader) bytes coded base strcomp := by
  cases h with
  | stop hstep => exact .stop hstep
  | token hstep hwrite hrest => exact .token hstep hwrite hrest

/-- **A call with bytes to read**: the next token, or an invalid one. -/
theorem jsonCompressorProcessNextToken_lexes {comp : JsonCompressor} (hjsm : JsmOK comp.tokenizer.jsm)
    (hr : comp.tokenizer.reader.AtByte) (hne : comp.tokenizer.reader.unreadBytes ≠ []) :
    match lexStep comp.tokenizer.jsm comp.tokenizer.reader.unreadBytes with
    | none => ∃ tokenizer, jsonCompressorProcessNextToken comp = some (false, { comp with tokenizer := tokenizer }, []) ∧
        JsmOK tokenizer.jsm ∧ tokenizer.reader.context = comp.tokenizer.reader.context
    | some (token, n, jsm) => JsmOK jsm ∧ ∃ reader, comp.tokenizer.reader.Ahead reader n ∧
        jsonCompressorProcessNextToken comp =
          (jsonCompressorWriteToken { comp with tokenizer := ⟨jsm, reader⟩ } token).map fun (comp, coded) =>
            (true, comp, coded) := by
  have hparse := jsonTokenizerParseNext_lexes hjsm hr hne
  cases hstep : lexStep comp.tokenizer.jsm comp.tokenizer.reader.unreadBytes with
  | none =>
    rw [hstep] at hparse
    obtain ⟨tokenizer, hparsed, hcontext, hjsm', -⟩ := hparse
    refine ⟨tokenizer, ?_, hjsm', hcontext⟩
    simp only [jsonCompressorProcessNextToken, hparsed, Option.bind_eq_bind, Option.bind_some]
    rfl
  | some step =>
    obtain ⟨token, n, jsm⟩ := step
    rw [hstep] at hparse
    obtain ⟨hjsm', reader, hparsed, hahead⟩ := hparse
    refine ⟨hjsm', reader, hahead, ?_⟩
    simp only [jsonCompressorProcessNextToken, hparsed, Option.bind_eq_bind, Option.bind_some,
      if_neg (lexStep_valid hstep).1.valid]
    cases jsonCompressorWriteToken { comp with tokenizer := ⟨jsm, reader⟩ } token <;> rfl

/-- What a run to the end of its reader has written. -/
theorem jsonCompressorProcessAll_writes {fuel : Nat} {comp comp' : JsonCompressor} {coded : List CodedSymbol}
    (hjsm : JsmOK comp.tokenizer.jsm) (hr : comp.tokenizer.reader.AtByte)
    (hrun : jsonCompressorProcessAll fuel comp = some (comp', coded)) :
    JcompWrites comp comp.tokenizer.reader.unreadBytes coded comp'.base comp'.strcomp := by
  induction fuel generalizing comp coded with
  | zero => cases hrun
  | succ fuel ih =>
    simp only [jsonCompressorProcessAll, hr.bytesAvailable, Option.bind_eq_bind, Option.bind_some] at hrun
    by_cases hne : comp.tokenizer.reader.unreadBytes = []
    · rw [if_neg (by simp [hne])] at hrun
      cases hrun
      exact .stop (by rw [hne]; exact lexStep_nil _)
    · have hpos := List.length_pos_iff.mpr hne
      rw [if_pos (by omega)] at hrun
      have hcall := jsonCompressorProcessNextToken_lexes hjsm hr hne
      cases hstep : lexStep comp.tokenizer.jsm comp.tokenizer.reader.unreadBytes with
      | none =>
        rw [hstep] at hcall
        obtain ⟨tokenizer, hprocess, -⟩ := hcall
        rw [hprocess] at hrun
        cases hrun
        exact .stop hstep
      | some step =>
        obtain ⟨token, n, jsm⟩ := step
        rw [hstep] at hcall
        obtain ⟨hjsm', reader, hahead, hprocess⟩ := hcall
        rw [hprocess] at hrun
        obtain ⟨⟨isValid, comp₁, first⟩, hwritten, hrun⟩ := Option.bind_eq_some_iff.mp hrun
        obtain ⟨⟨comp₂, first'⟩, hwrite, hsame⟩ := Option.map_eq_some_iff.mp hwritten
        cases hsame
        obtain ⟨⟨last, rest⟩, hrest, hrun⟩ := Option.bind_eq_some_iff.mp hrun
        cases hrun
        obtain ⟨-, htokenizer⟩ := jsonCompressorWriteToken_withReader reader hwrite
        have hwrites := ih (by rw [htokenizer]; exact hjsm') (by rw [htokenizer]; exact hahead.atByte) hrest
        rw [htokenizer] at hwrites
        rw [hahead.unread] at hwrites
        exact .token hstep hwrite hwrites

/-- A run to the end of its reader, when it is known what it writes. -/
theorem JcompWrites.processAll {comp : JsonCompressor} {bytes : List Byte} {coded : List CodedSymbol}
    {base : JsonCompressionBase} {strcomp : StringCompressor} (h : JcompWrites comp bytes coded base strcomp)
    (hjsm : JsmOK comp.tokenizer.jsm) (hr : comp.tokenizer.reader.AtByte)
    (hbytes : comp.tokenizer.reader.unreadBytes = bytes) {fuel : Nat} (hfuel : bytes.length < fuel) :
    ∃ tokenizer, jsonCompressorProcessAll fuel comp =
        some ({ base := base, strcomp := strcomp, tokenizer := tokenizer }, coded) ∧
      JsmOK tokenizer.jsm ∧ tokenizer.reader.context = comp.tokenizer.reader.context := by
  induction fuel generalizing comp bytes coded with
  | zero => omega
  | succ fuel ih =>
    subst hbytes
    simp only [jsonCompressorProcessAll, hr.bytesAvailable, Option.bind_eq_bind, Option.bind_some]
    by_cases hne : comp.tokenizer.reader.unreadBytes = []
    · rw [if_neg (by simp [hne])]
      cases h with
      | stop => exact ⟨comp.tokenizer, rfl, hjsm, rfl⟩
      | token hstep => rw [hne, lexStep_nil] at hstep; cases hstep
    · have hpos := List.length_pos_iff.mpr hne
      have hcall := jsonCompressorProcessNextToken_lexes hjsm hr hne
      rw [if_pos (by omega)]
      cases h with
      | stop hstep =>
        rw [hstep] at hcall
        obtain ⟨tokenizer, hprocess, hjsm', hcontext⟩ := hcall
        rw [hprocess]
        exact ⟨tokenizer, rfl, hjsm', hcontext⟩
      | @token _ comp' _ token n jsm reader₀ first rest _ _ hstep hwrite hrest =>
        rw [hstep] at hcall
        obtain ⟨hjsm', reader, hahead, hprocess⟩ := hcall
        obtain ⟨hwrite', htokenizer⟩ := jsonCompressorWriteToken_withReader reader hwrite
        have hfewer : (comp.tokenizer.reader.unreadBytes.drop n).length < fuel := by
          have hn := (lexStep_valid hstep).1.pos
          rw [List.length_drop]
          omega
        obtain ⟨tokenizer, hall, hok, hcontext⟩ := @ih (comp'.withReader reader) _ _ (hrest.withReader reader)
          (by simpa [JsonCompressor.withReader, htokenizer] using hjsm') hahead.atByte hahead.unread hfewer
        refine ⟨tokenizer, ?_, hok, hcontext.trans hahead.context⟩
        simp only [hprocess, hwrite', Option.map_some, Option.bind_some, hall, if_true]
        rfl

/-! ## One operation -/

/-- What holds in a session: these symbols are still to be written, and
`encoder` has been given all the symbols before them. -/
structure CompressesOn (context : Context) (ops : List StreamOp) (coded : List CodedSymbol) (base : JsonCompressionBase)
    (strcomp : StringCompressor) (taken : List Byte) (encoder : AcodEncoder) (session : CompressorSession) : Prop where
  jsm : JsmOK session.comp.tokenizer.jsm
  atByte : session.reader.AtByte
  context : session.reader.context = context
  writes : JcompWrites session.comp (session.reader.unreadBytes ++ streamInput ops) coded base strcomp
  contained : ∀ c ∈ coded, c.Contained
  encoders : EncodersAlike [] taken encoder session.encoder

/-- What holds after the last token. -/
structure CompressesNoMore (context : Context) (base : JsonCompressionBase) (strcomp : StringCompressor)
    (taken : List Byte) (encoder : AcodEncoder) (session : CompressorSession) : Prop where
  jsm : JsmOK session.comp.tokenizer.jsm
  context : session.reader.context = context
  base : session.comp.base = base
  strcomp : session.comp.strcomp = strcomp
  encoders : EncodersAlike [] taken encoder session.encoder

variable {context : Context} {op : StreamOp} {ops : List StreamOp} {size : Nat} {coded : List CodedSymbol}
  {base : JsonCompressionBase} {strcomp : StringCompressor} {taken : List Byte} {encoder : AcodEncoder}
  {session : CompressorSession}

theorem CompressesOn.withReader {op : StreamOp} {reader : Reader}
    (h : CompressesOn context (op :: ops) coded base strcomp taken encoder session) (hat : reader.AtByte)
    (hbytes : reader.unreadBytes ++ streamInput ops = session.reader.unreadBytes ++ streamInput (op :: ops))
    (hcontext : reader.context = session.reader.context) :
    CompressesOn context ops coded base strcomp taken encoder (session.withReader reader) := by
  refine ⟨h.jsm, hat, hcontext.trans h.context, ?_, h.contained, h.encoders⟩
  have hwrites := h.writes.withReader reader
  rw [← hbytes] at hwrites
  exact hwrites

/-- A call, when what is still to come does not change the next token. -/
theorem CompressesOn.processNextToken
    (h : CompressesOn context (.processNextToken :: ops) coded base strcomp taken encoder session)
    (hsafe : 306 ≤ session.reader.unreadBytes.length) :
    ∃ isValid comp first rest, jsonCompressorProcessNextToken session.comp = some (isValid, comp, first) ∧
      coded = first ++ rest ∧ session.write comp first = some (session.wrote comp first) ∧
      (if isValid = true then CompressesOn context ops rest base strcomp taken
          (acodEncodeAll encoder (codedInput first)) (session.wrote comp first)
        else rest = [] ∧ CompressesNoMore context base strcomp taken (acodEncodeAll encoder (codedInput first))
          (session.wrote comp first)) := by
  have hne : session.reader.unreadBytes ≠ [] := by
    intro hnil
    rw [hnil] at hsafe
    exact absurd hsafe (by decide)
  have hcontained := h.contained
  have hcall := jsonCompressorProcessNextToken_lexes h.jsm h.atByte hne
  have hwrites : JcompWrites session.comp (session.reader.unreadBytes ++ streamInput ops) coded base strcomp := h.writes
  have hlex : lexStep session.comp.tokenizer.jsm (session.reader.unreadBytes ++ streamInput ops) =
      lexStep session.comp.tokenizer.jsm session.comp.tokenizer.reader.unreadBytes := lexStep_append _ hsafe
  generalize hall : session.reader.unreadBytes ++ streamInput ops = bytes at hwrites hlex
  cases hwrites with
  | stop hstep =>
    rw [← hlex, hstep] at hcall
    obtain ⟨tokenizer, hprocess, hjsm, hcontext⟩ := hcall
    exact ⟨false, _, [], [], hprocess, rfl, if_pos hcontained, rfl, hjsm, hcontext.trans h.context, rfl, rfl,
      h.encoders.encodeAll _⟩
  | @token _ comp' _ token n jsm reader₀ first rest _ _ hstep hwrite hrest =>
    rw [← hlex, hstep] at hcall
    obtain ⟨hjsm, reader, hahead, hprocess⟩ := hcall
    obtain ⟨hwrite', htokenizer⟩ := jsonCompressorWriteToken_withReader reader hwrite
    rw [hwrite'] at hprocess
    obtain ⟨hfirst, hafter⟩ := List.forall_mem_append.mp hcontained
    refine ⟨true, _, first, rest, hprocess, rfl, if_pos hfirst, ?_, hahead.atByte, hahead.context.trans h.context, ?_,
      hafter, h.encoders.encodeAll _⟩
    · simpa [CompressorSession.wrote, JsonCompressor.withReader, htokenizer] using hjsm
    · have hunread : reader.unreadBytes ++ streamInput ops = bytes.drop n := by
        rw [hahead.unread, ← hall]
        exact (List.drop_append_of_le_length hahead.le).symm
      have hwrites := hrest.withReader reader
      rw [← hunread] at hwrites
      exact hwrites

/-- **One operation** of a session. -/
theorem CompressesOn.apply (h : CompressesOn context (op :: ops) coded base strcomp taken encoder session)
    (hsize : 0 < size) (hlegal : op.Legal size) :
    ∃ consumed isValid session' first rest, compressApply session op = some (consumed, isValid, session') ∧
      coded = first ++ rest ∧
      (if isValid = true then CompressesOn context ops rest base strcomp (taken ++ consumed)
          (acodEncodeAll encoder (codedInput first)) session'
        else rest = [] ∧ CompressesNoMore context base strcomp (taken ++ consumed)
          (acodEncodeAll encoder (codedInput first)) session') := by
  cases op with
  | pushBuffer b =>
    have hpos : 0 < b.length := hlegal
    obtain ⟨reader, hpush, hat, hbytes, -⟩ := h.atByte.push hpos
    have hcontext : reader.context = session.reader.context := by
      rw [readerPushBuffer, if_pos hpos] at hpush
      cases hpush
      rfl
    refine ⟨[], true, session.withReader reader, [], coded, ?_, rfl, ?_⟩
    · exact Option.bind_eq_some_iff.mpr ⟨reader, hpush, rfl⟩
    · rw [List.append_nil]
      exact h.withReader hat (by rw [hbytes, List.append_assoc]; rfl) hcontext
  | recoverExhaustedBuffer =>
    obtain ⟨reader, hrecover, hat, hbytes, hcontext⟩ := h.atByte.recoverAny
    refine ⟨[], true, session.withReader reader, [], coded, ?_, rfl, ?_⟩
    · exact Option.bind_eq_some_iff.mpr ⟨reader, hrecover, rfl⟩
    · rw [List.append_nil]
      exact h.withReader hat (by rw [hbytes]; rfl) hcontext
  | output op =>
    obtain ⟨consumed, w, happly, hencoders⟩ := h.encoders.takes hsize hlegal.1 hlegal.2
    exact ⟨consumed, true, session.withWriter w, [], coded, Option.bind_eq_some_iff.mpr ⟨_, happly, rfl⟩, rfl,
      h.jsm, h.atByte, h.context, h.writes, h.contained, hencoders⟩
  | processNextToken =>
    simp only [compressApply, readerHasSafeAmountOfData, h.atByte.bytesAvailable, Option.bind_eq_bind, Option.bind_some,
      Option.pure_def]
    by_cases hsafe : (READER_SAFE_SIZE : Int) ≤ session.reader.unreadBytes.length
    · have hmany : 306 ≤ session.reader.unreadBytes.length := by
        rw [show READER_SAFE_SIZE = 512 from rfl] at hsafe
        omega
      obtain ⟨isValid, comp, first, rest, hprocess, hcoded, hwrite, hafter⟩ := h.processNextToken hmany
      refine ⟨[], isValid, session.wrote comp first, first, rest, ?_, hcoded, ?_⟩
      · simp [hsafe, hprocess, hwrite]
      · rw [List.append_nil]
        exact hafter
    · refine ⟨[], true, session, [], coded, by simp [hsafe], rfl, ?_⟩
      rw [List.append_nil]
      exact ⟨h.jsm, h.atByte, h.context, h.writes, h.contained, h.encoders⟩

/-! ## Whole sessions -/

/-- **A session** before the end of its input. -/
theorem CompressesOn.run (h : CompressesOn context ops coded base strcomp taken encoder session) (hsize : 0 < size)
    (hlegal : ∀ op ∈ ops, op.Legal size) :
    ∃ consumed isValid session' first rest, compressRun ops session = some (consumed, isValid, session') ∧
      coded = first ++ rest ∧
      (if isValid = true then CompressesOn context [] rest base strcomp (taken ++ consumed)
          (acodEncodeAll encoder (codedInput first)) session'
        else rest = [] ∧ CompressesNoMore context base strcomp (taken ++ consumed)
          (acodEncodeAll encoder (codedInput first)) session') := by
  induction ops generalizing coded taken encoder session with
  | nil =>
    refine ⟨[], true, session, [], coded, rfl, rfl, ?_⟩
    rw [List.append_nil]
    exact h
  | cons op ops ih =>
    have hop := hlegal op (List.mem_cons_self ..)
    obtain ⟨consumed, isValid, session₁, first, rest, happly, rfl, hafter⟩ := h.apply hsize hop
    cases isValid with
    | false =>
      exact ⟨consumed, false, session₁, first, rest, by simp [compressRun, happly], rfl, hafter⟩
    | true =>
      obtain ⟨consumed', isValid', session₂, second, rest', hrun, rfl, hend⟩ :=
        ih hafter fun other hmem => hlegal other (List.mem_cons_of_mem _ hmem)
      refine ⟨consumed ++ consumed', isValid', session₂, first ++ second, rest', by simp [compressRun, happly, hrun],
        (List.append_assoc ..).symm, ?_⟩
      rw [codedInput, List.map_append, acodEncodeAll_append, ← List.append_assoc]
      exact hend

theorem CompressesOn.rest (h : CompressesOn context [] coded base strcomp taken encoder session) :
    ∃ session', compressRest session = some session' ∧
      CompressesNoMore context base strcomp taken (acodEncodeAll encoder (codedInput coded)) session' := by
  have hbytes : session.reader.unreadBytes = session.reader.unreadBytes ++ streamInput [] := (List.append_nil _).symm
  obtain ⟨tokenizer, hall, hjsm, hcontext⟩ :=
    h.writes.processAll h.jsm h.atByte hbytes (Nat.lt_succ_self _)
  rw [← hbytes] at hall
  refine ⟨session.wrote ⟨base, strcomp, tokenizer⟩ coded, ?_, hjsm, hcontext.trans h.context, rfl, rfl,
    h.encoders.encodeAll _⟩
  simp only [compressRest, h.atByte.bytesAvailable, Option.bind_eq_bind, Option.bind_some, Int.toNat_natCast, hall,
    CompressorSession.write, if_pos h.contained]

/-- The end of the document depends on the tables alone. -/
theorem jsonCompressorFinalize_tables {comp comp₁ comp' : JsonCompressor} {coded : List CodedSymbol}
    (hbase : comp'.base = comp.base) (hstrcomp : comp'.strcomp = comp.strcomp)
    (h : jsonCompressorFinalize comp = some (comp₁, coded)) :
    jsonCompressorFinalize comp' = some ({ comp₁ with tokenizer := jsonTokenizerReset comp'.tokenizer }, coded) := by
  simp only [jsonCompressorFinalize, hbase, hstrcomp] at h ⊢
  split at h
  · next hs =>
    obtain ⟨⟨strcomp, first⟩, hflush, h⟩ := Option.bind_eq_some_iff.mp h
    rw [if_pos hs]
    simp only [hflush, Option.bind_eq_bind, Option.bind_some]
    cases h
    rfl
  · next hs =>
    rw [if_neg hs]
    cases h
    rfl

theorem CompressesNoMore.finish {comp comp₁ : JsonCompressor}
    (h : CompressesNoMore context comp.base comp.strcomp taken encoder session)
    (hfinalize : jsonCompressorFinalize comp = some (comp₁, coded)) (hcontained : ∀ c ∈ coded, c.Contained) :
    ∃ rest comp', compressFinish session = some (rest, comp') ∧
      (writerConsumeAllBuffers contextInit (acodEncoderDeinit (acodEncodeAll encoder (codedInput coded)))).1 =
        { isError := false, buffer := bufferMake (taken ++ rest) } ∧
      comp'.base = comp₁.base ∧ comp'.strcomp = comp₁.strcomp ∧ comp'.tokenizer.jsm = jsmInit ∧
      comp'.tokenizer.reader.context = context := by
  have hcontext : contextIsErrored contextInit = false := rfl
  obtain ⟨all, rest, hall, hrest, hsame⟩ := (h.encoders.encodeAll (codedInput coded)).finish hcontext
  refine ⟨rest, { comp₁ with tokenizer := jsonTokenizerReset session.comp.tokenizer }, ?_, ?_, rfl, rfl, h.jsm.reset,
    h.context⟩
  · simp only [compressFinish, jsonCompressorFinalize_tables h.base h.strcomp hfinalize, CompressorSession.write,
      if_pos hcontained, CompressorSession.wrote, hrest, Option.bind_eq_bind, Option.bind_some, bufferMake_bytes]
    rfl
  · rw [hall, hsame, List.nil_append]

/-- A fresh compressor, with a fresh reader and writer. -/
def compressorStart (context : Context) (staleBytes : List Byte) : CompressorSession :=
  ⟨jsonCompressorInit (readerInit context) strcompInit, acodEncoderInit (writerInit staleBytes)⟩

/-- **A whole session** gives the bytes of the document in one piece. -/
theorem compressAll_spec (context : Context) {staleBytes staleBytes' : List Byte} {r : Reader} {comp : JsonCompressor}
    (hsize : 0 < staleBytes.length) (hsize' : 0 < staleBytes'.length) (hlegal : ∀ op ∈ ops, op.Legal staleBytes.length)
    (hr : r.AtByte) (hunread : r.unreadBytes = streamInput ops)
    (hdocument : jsonCompressDocument (jsonCompressorInit r strcompInit) = some (comp, coded))
    (hcontained : ∀ c ∈ coded, c.Contained) :
    ∃ compressed comp', compressAll ops (compressorStart context staleBytes) = some (compressed, comp') ∧
      (writerConsumeAllBuffers contextInit
        (acodEncoderDeinit (acodEncodeAll (acodEncoderInit (writerInit staleBytes')) (codedInput coded)))).1 =
          { isError := false, buffer := bufferMake compressed } ∧
      comp'.base = comp.base ∧ comp'.strcomp = comp.strcomp ∧ comp'.tokenizer.jsm = jsmInit ∧
      comp'.tokenizer.reader.context = context := by
  simp only [jsonCompressDocument] at hdocument
  obtain ⟨available, -, hdocument⟩ := Option.bind_eq_some_iff.mp hdocument
  obtain ⟨⟨comp₁, body⟩, hbody, hdocument⟩ := Option.bind_eq_some_iff.mp hdocument
  obtain ⟨⟨comp₂, tail⟩, htail, hdocument⟩ := Option.bind_eq_some_iff.mp hdocument
  cases hdocument
  obtain ⟨hcontained, hlast⟩ := List.forall_mem_append.mp hcontained
  have hwrites := (jsonCompressorProcessAll_writes .init hr hbody).withReader (readerInit context)
  have hstart : CompressesOn context ops body comp₁.base comp₁.strcomp [] (acodEncoderInit (writerInit staleBytes'))
      (compressorStart context staleBytes) := by
    refine ⟨.init, .init context, rfl, ?_, hcontained, .init hsize' hsize⟩
    have hinput : (readerInit context).unreadBytes ++ streamInput ops = r.unreadBytes := by
      rw [readerInit_unreadBytes, List.nil_append, hunread]
    rw [show (compressorStart context staleBytes).reader = readerInit context from rfl, hinput]
    exact hwrites
  obtain ⟨taken, isValid, session₁, first, rest, hrun, rfl, hafter⟩ := hstart.run hsize hlegal
  rw [List.nil_append] at hafter
  have hrest : ∃ session₂, (if isValid = true then compressRest session₁ else some session₁) = some session₂ ∧
      CompressesNoMore context comp₁.base comp₁.strcomp taken
        (acodEncodeAll (acodEncoderInit (writerInit staleBytes')) (codedInput (first ++ rest))) session₂ := by
    rw [codedInput, List.map_append, acodEncodeAll_append]
    cases isValid with
    | true => exact hafter.rest
    | false =>
      obtain ⟨rfl, hnoMore⟩ := hafter
      exact ⟨session₁, rfl, hnoMore⟩
  obtain ⟨session₂, hrest, hnoMore⟩ := hrest
  obtain ⟨last, comp', hfinish, hall, hbase, hstrcomp, hjsm, hcontext⟩ := hnoMore.finish htail hlast
  refine ⟨taken ++ last, comp', ?_, ?_, hbase, hstrcomp, hjsm, hcontext⟩
  · cases isValid with
    | true =>
      have hrest : compressRest session₁ = some session₂ := hrest
      simp only [compressAll, hrun, hrest, hfinish, Option.bind_eq_bind, Option.bind_some, if_true, Option.pure_def]
    | false =>
      obtain rfl : session₁ = session₂ := Option.some.inj hrest
      simp only [compressAll, hrun, hfinish, Option.bind_eq_bind, Option.bind_some, Bool.false_eq_true, if_false,
        Option.pure_def]
  · rw [codedInput, List.map_append, acodEncodeAll_append]
    exact hall

/-- **The compressed bytes do not depend on how the input arrives or the
output is taken.** Two sessions with the same input, no fraction of which has
more than 16 bits, both get through, give the same bytes, and leave the same
tables; neither reader has an error. -/
theorem json_compression_chunking_independent (context₁ context₂ : Context) {staleBytes₁ staleBytes₂ : List Byte}
    (hsize₁ : 0 < staleBytes₁.length) (hsize₂ : 0 < staleBytes₂.length) {ops₁ ops₂ : List StreamOp}
    (hlegal₁ : ∀ op ∈ ops₁, op.Legal staleBytes₁.length) (hlegal₂ : ∀ op ∈ ops₂, op.Legal staleBytes₂.length)
    (hinput : streamInput ops₁ = streamInput ops₂) (hfits : DocumentFits (streamInput ops₁)) :
    ∃ compressed comp₁ comp₂,
      compressAll ops₁ (compressorStart context₁ staleBytes₁) = some (compressed, comp₁) ∧
      compressAll ops₂ (compressorStart context₂ staleBytes₂) = some (compressed, comp₂) ∧
      comp₁.base = comp₂.base ∧ comp₁.strcomp = comp₂.strcomp ∧ comp₁.tokenizer.jsm = comp₂.tokenizer.jsm ∧
      comp₁.tokenizer.reader.context = context₁ ∧ comp₂.tokenizer.reader.context = context₂ := by
  obtain ⟨r, hat, hbytes, -⟩ := exists_reader contextInit (streamInput ops₁)
  obtain ⟨comp, coded, -, -, hdocument, -⟩ := jsonCompressDocument_emits (.init r) rfl hat
  have hone : 0 < ([0] : List Byte).length := by decide
  have hcontained := (jsonCompressDocument_contained hat hdocument).mpr (by rw [hbytes]; exact hfits)
  have hspec₁ := compressAll_spec context₁ hsize₁ hone hlegal₁ hat hbytes hdocument hcontained
  have hspec₂ := compressAll_spec context₂ hsize₂ hone hlegal₂ hat (hbytes.trans hinput) hdocument hcontained
  obtain ⟨compressed₁, comp₁, hall₁, hconsume₁, hbase₁, hstrcomp₁, hjsm₁, hcontext₁⟩ := hspec₁
  obtain ⟨compressed₂, comp₂, hall₂, hconsume₂, hbase₂, hstrcomp₂, hjsm₂, hcontext₂⟩ := hspec₂
  have hsame : compressed₁ = compressed₂ := by
    rw [hconsume₁] at hconsume₂
    have hbuffers := congrArg (fun result => result.buffer.bytes) hconsume₂
    simpa using hbuffers
  refine ⟨compressed₁, comp₁, comp₂, hall₁, by rw [hsame]; exact hall₂, ?_, ?_, ?_, hcontext₁, hcontext₂⟩
  · rw [hbase₁, hbase₂]
  · rw [hstrcomp₁, hstrcomp₂]
  · rw [hjsm₁, hjsm₂]

/-- The document `[1]`, with enough whitespace in it for calls to read tokens
before the end. -/
def spacedArray : List Byte := 0x5b :: List.replicate 600 0x20 ++ [0x31, 0x5d]

theorem spacedArray_length : spacedArray.length = 603 := by
  rw [spacedArray, List.length_append, List.length_cons, List.length_replicate]
  rfl

/-- In one buffer, and in two with output taken in between. -/
theorem json_compression_chunking_independent_array :
    ∃ compressed comp₁ comp₂,
      compressAll [.pushBuffer (bufferMake spacedArray), .processNextToken, .processNextToken]
        (compressorStart contextInit [0xaa]) = some (compressed, comp₁) ∧
      compressAll [.pushBuffer (bufferMake (spacedArray.take 550)), .processNextToken, .output .consumeFullBuffer,
          .pushBuffer (bufferMake (spacedArray.drop 550)), .recoverExhaustedBuffer, .processNextToken,
          .output (.allocationsHold [7, 7])]
        (compressorStart contextInit [0, 0]) = some (compressed, comp₂) ∧
      comp₁.base = comp₂.base ∧ comp₁.strcomp = comp₂.strcomp ∧ comp₁.tokenizer.jsm = comp₂.tokenizer.jsm ∧
      comp₁.tokenizer.reader.context = contextInit ∧ comp₂.tokenizer.reader.context = contextInit := by
  refine json_compression_chunking_independent contextInit contextInit (by decide) (by decide) ?_ ?_ (by decide +kernel)
    (List.all_iff_forall_prop.mp (by decide +kernel))
  · simp [StreamOp.Legal, bufferMake, spacedArray_length]
  · simp [StreamOp.Legal, WriterOp.Legal, WriterOp.bits, bufferMake, spacedArray_length]

end Scomp
