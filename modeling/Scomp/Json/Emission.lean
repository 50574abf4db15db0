/-
What the compressor writes for one token, and what the decompressor makes of
it.

A token inside a string may stay in the match buffer for a while, so the two
sides are compared where the compressor's writes have arrived: the bytes the
decompressor has printed, followed by the compressor's pending ones, are the
bytes of the tokens so far.
-/
import Scomp.Json.Lockstep
import Scomp.Json.Compressor

namespace Scomp

/-! ## Which numbers fit their tables -/

/-- The fraction tables are made for 16 bits, the tokenizer reads 64. -/
def TokenFits (token : JsonToken) : Prop :=
  token.kind = .number → hasFlag token.number.flags JSON_NUMBER_HAS_FRACTION = true →
    token.number.fractionPart.toNat < 65536

instance : DecidablePred TokenFits := fun _ => inferInstanceAs (Decidable (_ → _ → _))

theorem jsonCompressionWriteUint_ready {base : JsonCompressionBase} {part : NumberPart} {value : UInt64}
    (h : JsonTablesReady base) (hfits : uintLengthSymbol value < part.limit) :
    JsonTablesReady (jsonCompressionWriteUint base part value).1 ∧
      AllCodable (jsonCompressionWriteUint base part value).2 := by
  obtain ⟨hready, hall⟩ := @uintWriterWrite_ready (fun table => .number part table) _ _ _ (h.numbers part) hfits
  refine ⟨⟨h.tokens, h.whitespaces, fun part' => ?_⟩, hall⟩
  show UintTablesReady (Function.update base.numberTables part _ part') part'.limit
  by_cases hpart : part' = part
  · subst hpart
    rw [Function.update_self]
    exact hready
  · rw [Function.update_of_ne hpart]
    exact h.numbers part'

theorem jsonCompressionWriteUints_ready {base : JsonCompressionBase} {writes : List (NumberPart × UInt64)}
    (h : JsonTablesReady base) (hfits : ∀ write ∈ writes, uintLengthSymbol write.2 < write.1.limit) :
    JsonTablesReady (jsonCompressionWriteUints base writes).1 ∧
      AllCodable (jsonCompressionWriteUints base writes).2 := by
  induction writes generalizing base with
  | nil => exact ⟨h, fun c hc => by cases hc⟩
  | cons write writes ih =>
    obtain ⟨part, value⟩ := write
    obtain ⟨hready, hall⟩ := jsonCompressionWriteUint_ready h (hfits (part, value) (by simp))
    obtain ⟨hready', hall'⟩ := ih hready fun write hmem => hfits write (by simp [hmem])
    exact ⟨hready', hall.append hall'⟩

/-- Symbols of their tables are written only for numbers that fit. -/
theorem jsonCompressionWriteUints_fits {base : JsonCompressionBase} {writes : List (NumberPart × UInt64)}
    (h : JsonTablesReady base) (hcontained : ∀ c ∈ (jsonCompressionWriteUints base writes).2, c.Contained) :
    ∀ write ∈ writes, uintLengthSymbol write.2 < write.1.limit := by
  induction writes generalizing base with
  | nil => simp
  | cons write writes ih =>
    obtain ⟨part, value⟩ := write
    simp only [jsonCompressionWriteUints, List.mem_append] at hcontained
    have hfirst := uintWriterWrite_fits (h.numbers part) fun c hc => hcontained c (.inl hc)
    have hready := (jsonCompressionWriteUint_ready h hfirst).1
    intro write hmem
    rcases List.mem_cons.mp hmem with rfl | hmem
    · exact hfirst
    · exact ih hready (fun c hc => hcontained c (.inr hc)) write hmem

/-- Of the parts of a number only the fraction can be too large. -/
theorem jsonNumberWrites_fit_iff {number : JsonNumberToken} (h : NumberWellFormed number) :
    (∀ write ∈ jsonNumberWrites number, uintLengthSymbol write.2 < write.1.limit) ↔
      (hasFlag number.flags JSON_NUMBER_HAS_FRACTION = true → number.fractionPart.toNat < 65536) := by
  have hlt : ∀ (value : UInt64) count, uintLengthSymbol value < count + 1 ↔ value.toNat < 2 ^ (4 * count) :=
    fun value count => Nat.lt_succ_iff.trans (uintLengthSymbol_le_iff value count)
  have hflags := h.flags
  have hfractionZeroes := h.fractionZeroes
  have hexponentZeroes := h.exponentZeroes
  have hinteger := number.integerPart.toNat_lt
  have hexponent := number.exponentPart.toNat_lt
  simp only [jsonNumberWrites, List.forall_mem_cons, List.forall_mem_append]
  constructor
  · rintro ⟨-, ⟨-, hfraction⟩, -⟩ hflag
    rw [if_pos hflag] at hfraction
    exact (hlt number.fractionPart 4).mp (hfraction (.frac, number.fractionPart) (by simp))
  · intro hfraction
    refine ⟨(hlt _ 2).mpr ?_, ⟨?_, ?_⟩, ?_⟩
    · rw [UInt8.toNat_toUInt64]
      omega
    · split
      · simp
      · simp only [List.mem_singleton, forall_eq]
        exact (hlt _ 16).mpr hinteger
    · by_cases hflag : hasFlag number.flags JSON_NUMBER_HAS_FRACTION = true
      · rw [if_pos hflag]
        simp only [List.forall_mem_cons, List.not_mem_nil, false_implies, implies_true, and_true]
        refine ⟨(hlt _ 2).mpr ?_, (hlt _ 4).mpr (hfraction hflag)⟩
        rw [UInt8.toNat_toUInt64]
        omega
      · rw [if_neg hflag]
        simp
    · split
      · simp only [List.forall_mem_cons, List.not_mem_nil, false_implies, implies_true, and_true]
        refine ⟨(hlt _ 2).mpr ?_, (hlt _ 4).mpr ?_⟩
        · rw [UInt8.toNat_toUInt64]
          omega
        · rw [UInt16.toNat_toUInt64]
          omega
      · simp

theorem jsonCompressionWriteWhitespace_ready {base : JsonCompressionBase} {b : Byte} (h : JsonTablesReady base) :
    JsonTablesReady (jsonCompressionWriteWhitespace base b).1 ∧
      AllCodable (jsonCompressionWriteWhitespace base b).2 := by
  have hs := getSymbolByWhitespaceChar_lt b
  refine ⟨⟨h.tokens, h.whitespaces.increment hs, h.numbers⟩, fun c hc => ?_⟩
  obtain rfl := List.mem_singleton.mp hc
  exact h.whitespaces.codable hs

theorem jsonCompressorWriteNonstringToken_ready {base : JsonCompressionBase} {newState : JsonState} {token : JsonToken}
    (h : JsonTablesReady base) (hw : TokenWellFormed false token) :
    (TokenFits token → JsonTablesReady (jsonCompressorWriteNonstringToken base newState token).1 ∧
        AllCodable (jsonCompressorWriteNonstringToken base newState token).2) ∧
      ((∀ c ∈ (jsonCompressorWriteNonstringToken base newState token).2, c.Contained) → TokenFits token) := by
  obtain ⟨-, -, hnumber⟩ := hw
  have hs : token.kind.toSymbol < 18 := Nat.lt_succ_of_le (Nat.le_succ_of_le (toSymbol_le_max token.kind))
  have hready : JsonTablesReady { jsonCompressionBaseIncrementCurrent base token.kind.toSymbol with
      currentState := newState } :=
    ⟨(h.increment hs).tokens, (h.increment hs).whitespaces, (h.increment hs).numbers⟩
  simp only [jsonCompressorWriteNonstringToken, List.forall_mem_cons]
  generalize { jsonCompressionBaseIncrementCurrent base token.kind.toSymbol with currentState := newState } = base₁ at *
  have hkind : Codable (jsonCompressionBaseGetCurrentFtable base) token.kind.toSymbol :=
    (h.tokens base.currentState).codable hs
  have hother : ∀ coded : List CodedSymbol, token.kind ≠ .number →
      ((∀ c ∈ coded, c.Contained) → TokenFits token) := fun coded hne _ hn => absurd hn hne
  rw [jsonCompressionWritePayload]
  split
  · next hk =>
    obtain ⟨hready', hall⟩ := @jsonCompressionWriteWhitespace_ready _ token.character hready
    exact ⟨fun _ => ⟨hready', AllCodable.cons hkind hall⟩, fun hc => hother _ (by rw [hk]; decide) hc.2⟩
  · next hk =>
    have hiff := jsonNumberWrites_fit_iff (hnumber hk)
    refine ⟨fun hfits => ?_, fun hc _ => hiff.mp (jsonCompressionWriteUints_fits hready hc.2)⟩
    obtain ⟨hready', hall⟩ := jsonCompressionWriteUints_ready hready (hiff.mpr (hfits hk))
    exact ⟨hready', AllCodable.cons hkind hall⟩
  · next _ hk =>
    exact ⟨fun _ => ⟨hready, AllCodable.cons hkind fun c hc => by cases hc⟩, fun hc => hother _ hk hc.2⟩

/-! ## What stays the same -/

theorem jsonCompressionWriteUints_keeps (base : JsonCompressionBase) (writes : List (NumberPart × UInt64)) :
    (jsonCompressionWriteUints base writes).1.tables = base.tables ∧
      (jsonCompressionWriteUints base writes).1.currentState = base.currentState := by
  induction writes generalizing base with
  | nil => exact ⟨rfl, rfl⟩
  | cons write writes ih =>
    obtain ⟨htables, hstate⟩ := ih (jsonCompressionWriteUint base write.1 write.2).1
    exact ⟨htables, hstate⟩

theorem jsonCompressionWritePayload_keeps (base : JsonCompressionBase) (token : JsonToken) :
    (jsonCompressionWritePayload base token).1.tables = base.tables ∧
      (jsonCompressionWritePayload base token).1.currentState = base.currentState := by
  unfold jsonCompressionWritePayload
  split
  · exact ⟨rfl, rfl⟩
  · exact jsonCompressionWriteUints_keeps base _
  · exact ⟨rfl, rfl⟩

theorem jsonCompressorWriteNonstringToken_keeps {base : JsonCompressionBase} (h : base.LimitsOK)
    (newState : JsonState) (token : JsonToken) :
    (jsonCompressorWriteNonstringToken base newState token).1.LimitsOK ∧
      (jsonCompressorWriteNonstringToken base newState token).1.currentState = newState := by
  have hkeeps := jsonCompressionWritePayload_keeps
    { jsonCompressionBaseIncrementCurrent base token.kind.toSymbol with currentState := newState } token
  refine ⟨fun state => ?_, hkeeps.2⟩
  show ((jsonCompressionWritePayload _ token).1.tables state).length = 18
  rw [hkeeps.1]
  exact h.increment token.kind.toSymbol state

/-! ## Runs of both sides -/

/-- What a compressor shares with the decompressor, once these bytes went
through the string compression. -/
def JsonCompressor.shared (comp : JsonCompressor) (emitted : List Byte) : JsonShared :=
  { tables := comp.base, strings := comp.strcomp.base, jsm := comp.tokenizer.jsm, emitted := emitted }

/-- Given these symbols, a decompressor in step prints these bytes, in calls
that return true, and is in step again. -/
def JsonDecodes (shared shared' : JsonShared) (coded : List CodedSymbol) (bytes : List Byte) : Prop :=
  ∀ (δ : Type) [SymbolDecoder δ] (decomp : JsonDecompressor δ) (decoder : δ), JsonSynced decomp shared →
    Yields decomp.decoder coded decoder →
    ∃ decomp', JsonReads decomp decomp' ∧ JsonSynced decomp' shared' ∧
      decomp'.writer.bytes = decomp.writer.bytes ++ bytes ∧ decomp'.decoder = decoder

theorem JsonDecodes.nil (shared : JsonShared) : JsonDecodes shared shared [] [] := by
  intro δ _ decomp decoder h hyields
  exact ⟨decomp, .refl, h, (List.append_nil _).symm, hyields.symm⟩

theorem JsonDecodes.append {shared shared₁ shared₂ : JsonShared} {coded coded' : List CodedSymbol}
    {bytes bytes' : List Byte} (h : JsonDecodes shared shared₁ coded bytes)
    (h' : JsonDecodes shared₁ shared₂ coded' bytes') :
    JsonDecodes shared shared₂ (coded ++ coded') (bytes ++ bytes') := by
  intro δ _ decomp decoder hsynced hyields
  obtain ⟨decoder₁, hfirst, hsecond⟩ := hyields.append
  obtain ⟨decomp₁, hreads, hsynced₁, hbytes, rfl⟩ := h δ decomp decoder₁ hsynced hfirst
  obtain ⟨decomp₂, hreads', hsynced₂, hbytes', hdecoder⟩ := h' δ decomp₁ decoder hsynced₁ hsecond
  exact ⟨decomp₂, hreads.trans hreads', hsynced₂, by rw [hbytes', hbytes, List.append_assoc], hdecoder⟩

/-- What the string compressor has emitted, the decompressor reads in calls
that return true. -/
theorem StrDecodes.json {strings strings' : StringCompressionBase} {coded : List CodedSymbol}
    {emitted bytes : List Byte} {tables : JsonCompressionBase} {jsm : JsonStateMachine}
    (h : StrDecodes strings strings' coded emitted bytes)
    (hstate : jsonIsStringState tables.currentState = true) :
    JsonDecodes ⟨tables, strings, jsm, emitted⟩ ⟨tables, strings', jsm, emitted ++ bytes⟩ coded bytes := by
  intro δ _ decomp decoder hsynced hyields
  obtain ⟨strdecomp, hreads, hstrings, hbytes, hdecoder⟩ := h δ decomp.strdecomp decoder hsynced.strings hyields
  refine ⟨{ decomp with strdecomp := strdecomp }, ?_, ⟨hsynced.tables, hstrings, hsynced.jsm⟩, hbytes, hdecoder⟩
  exact jsonReads_of_strdecompReads (by rw [hsynced.tables]; exact hstate) hreads

/-- The compressor's state agrees with its tokenizer's, and only strings keep
bytes back. -/
structure JcompHolds (comp : JsonCompressor) (emitted pending : List Byte) : Prop where
  strings : StrcompHolds comp.strcomp emitted pending
  room : pending.length + 1 < BSM_MATCH_LENGTH_LIMIT
  state : jsmGetCurrentState comp.tokenizer.jsm = some comp.base.currentState
  plain : jsonIsStringState comp.base.currentState = false → pending = []
  limits : comp.base.LimitsOK
  jsm : JsmOK comp.tokenizer.jsm

structure JcompReady (comp : JsonCompressor) : Prop where
  tables : JsonTablesReady comp.base
  strings : StringTablesReady comp.strcomp.base

/-- A part of a compressor's run that writes these symbols for these tokens. -/
structure JcompEmits (comp comp' : JsonCompressor) (tokens : List JsonToken) (coded : List CodedSymbol)
    (emitted pending emitted' pending' : List Byte) : Prop where
  holds : JcompHolds comp' emitted' pending'
  ready : JcompReady comp → (∀ token ∈ tokens, TokenFits token) → JcompReady comp' ∧ AllCodable coded
  fits : JcompReady comp → (∀ c ∈ coded, c.Contained) → ∀ token ∈ tokens, TokenFits token
  decodes : ∃ bytes, bytes ++ pending' = pending ++ tokens.flatMap printToken ∧
    JsonDecodes (comp.shared emitted) (comp'.shared emitted') coded bytes

theorem JcompEmits.nil {comp : JsonCompressor} {emitted pending : List Byte} (h : JcompHolds comp emitted pending) :
    JcompEmits comp comp [] [] emitted pending emitted pending :=
  ⟨h, fun hready _ => ⟨hready, fun c hc => by cases hc⟩, fun _ _ token ht => (by cases ht),
    [], by simp, .nil _⟩

theorem JcompEmits.append {comp comp₁ comp₂ : JsonCompressor} {tokens tokens' : List JsonToken}
    {coded coded' : List CodedSymbol} {emitted pending emitted₁ pending₁ emitted₂ pending₂ : List Byte}
    (h : JcompEmits comp comp₁ tokens coded emitted pending emitted₁ pending₁)
    (h' : JcompEmits comp₁ comp₂ tokens' coded' emitted₁ pending₁ emitted₂ pending₂) :
    JcompEmits comp comp₂ (tokens ++ tokens') (coded ++ coded') emitted pending emitted₂ pending₂ := by
  refine ⟨h'.holds, fun hready hfits => ?_, fun hready hcontained => ?_, ?_⟩
  · obtain ⟨hready₁, hall⟩ := h.ready hready fun token ht => hfits token (List.mem_append_left _ ht)
    obtain ⟨hready₂, hall'⟩ := h'.ready hready₁ fun token ht => hfits token (List.mem_append_right _ ht)
    exact ⟨hready₂, hall.append hall'⟩
  · have hfits := h.fits hready fun c hc => hcontained c (List.mem_append_left _ hc)
    have hfits' := h'.fits (h.ready hready hfits).1 fun c hc => hcontained c (List.mem_append_right _ hc)
    intro token ht
    rcases List.mem_append.mp ht with ht | ht
    · exact hfits token ht
    · exact hfits' token ht
  · obtain ⟨bytes, hbytes, hdecodes⟩ := h.decodes
    obtain ⟨bytes', hbytes', hdecodes'⟩ := h'.decodes
    refine ⟨bytes ++ bytes', ?_, hdecodes.append hdecodes'⟩
    rw [List.append_assoc, hbytes', ← List.append_assoc, hbytes, List.append_assoc, List.flatMap_append]

/-! ## One token -/

/-- Only numbers can fail to fit. -/
theorem TokenFits.of_kind {token : JsonToken} (h : token.kind ≠ .number) : TokenFits token :=
  fun hnumber => absurd hnumber h

theorem jsmProcessToken_stringCharacter {jsm : JsonStateMachine} {state : JsonState} {kind : JsonTokenKind}
    (hcurrent : jsmGetCurrentState jsm = some state) (hstate : jsonIsStringState state = true)
    (hkind : isStringCharacterKind kind = true) : jsmProcessToken jsm kind = some (true, jsm) := by
  simp only [jsmProcessToken, hcurrent, Option.bind_eq_bind, Option.bind_some]
  cases state with
  | string | objectKey => cases kind <;> first | rfl | cases hkind
  | _ => cases hstate

section Token

variable {comp : JsonCompressor} {emitted pending : List Byte} {token : JsonToken} {tokenizer : JsonTokenizer}

theorem JcompHolds.nonstringToken (h : JcompHolds comp emitted pending)
    (hs : jsonIsStringState comp.base.currentState = false) (hw : TokenWellFormed false token)
    (hkind : token.kind ≠ .invalid)
    (haccepted : jsmProcessToken comp.tokenizer.jsm token.kind = some (true, tokenizer.jsm)) (hjsm : JsmOK tokenizer.jsm) :
    ∃ comp' coded emitted' pending',
      jsonCompressorWriteToken { comp with tokenizer := tokenizer } token = some (comp', coded) ∧
      comp'.tokenizer = tokenizer ∧ JcompEmits comp comp' [token] coded emitted pending emitted' pending' := by
  obtain ⟨newState, hnew⟩ := hjsm.currentState
  obtain rfl := h.plain hs
  obtain ⟨hlimits, hcurrent⟩ := jsonCompressorWriteNonstringToken_keeps h.limits newState token
  refine ⟨{ comp with
      tokenizer := tokenizer, base := (jsonCompressorWriteNonstringToken comp.base newState token).1 },
    (jsonCompressorWriteNonstringToken comp.base newState token).2, emitted, [], ?_, rfl,
    ⟨h.strings, h.room, by rw [hcurrent]; exact hnew, fun _ => rfl, hlimits, hjsm⟩, fun hready hfits => ?_,
    fun hready hcontained => ?_, printToken token, by simp, ?_⟩
  · have hget : jsonTokenizerGetCurrentState tokenizer = some newState := hnew
    simp only [jsonCompressorWriteToken, hget, hs, Option.bind_eq_bind, Option.bind_some, Bool.not_false, if_true]
    rfl
  · obtain ⟨hready', hall⟩ := (jsonCompressorWriteNonstringToken_ready hready.tables hw).1 (hfits token (by simp))
    exact ⟨⟨hready', hready.strings⟩, hall⟩
  · simpa using (jsonCompressorWriteNonstringToken_ready hready.tables hw).2 hcontained
  · intro δ _ decomp decoder hsynced hyields
    obtain ⟨decomp', hread, hsynced', hbytes, hdecoder⟩ :=
      hsynced.readToken h.limits hs hkind hw haccepted hnew hyields
    exact ⟨decomp', .single hread, hsynced', hbytes, hdecoder⟩

theorem JcompHolds.stringCharacter (h : JcompHolds comp emitted pending)
    (hs : jsonIsStringState comp.base.currentState = true) (hchar : isStringCharacterKind token.kind = true)
    (hbytes : jsonStringTokenBytes token = printToken token)
    (haccepted : jsmProcessToken comp.tokenizer.jsm token.kind = some (true, tokenizer.jsm)) :
    ∃ comp' coded emitted' pending',
      jsonCompressorWriteToken { comp with tokenizer := tokenizer } token = some (comp', coded) ∧
      comp'.tokenizer = tokenizer ∧ JcompEmits comp comp' [token] coded emitted pending emitted' pending' := by
  have hsame : tokenizer.jsm = comp.tokenizer.jsm := by
    rw [jsmProcessToken_stringCharacter h.state hs hchar] at haccepted
    simpa using haccepted.symm
  obtain ⟨strcomp, coded, bytes, pending', hwrite, hsplit, hroom, hemits⟩ :=
    strcompWriteAll_emits h.strings h.room (jsonStringTokenBytes token)
  have hnumber : token.kind ≠ .number := by
    intro hk
    rw [hk] at hchar
    cases hchar
  have hdelimiter : token.kind ≠ .stringDelimiter := by
    intro hk
    rw [hk] at hchar
    cases hchar
  have hget : jsonTokenizerGetCurrentState tokenizer = some comp.base.currentState := by
    rw [← h.state, ← hsame]
    rfl
  refine ⟨{ comp with tokenizer := tokenizer, strcomp := strcomp }, coded, emitted ++ bytes, pending', ?_, rfl,
    ⟨hemits.holds, hroom, by rw [hsame]; exact h.state, fun hplain => absurd hplain (by simp [hs]), h.limits,
      by rw [hsame]; exact h.jsm⟩, fun hready _ => ?_, fun _ _ => by simpa using TokenFits.of_kind hnumber,
    bytes, by rw [hsplit, hbytes]; simp, ?_⟩
  · simp only [jsonCompressorWriteToken, jsonCompressorWriteStringToken, hget, hs, hchar, hwrite,
      Option.bind_eq_bind, Option.bind_some, Bool.not_true, Bool.false_eq_true, if_false, if_true, if_neg hdelimiter]
    rfl
  · obtain ⟨hready', hall⟩ := hemits.ready hready.strings
    exact ⟨⟨hready.tables, hready'⟩, hall⟩
  · have hshared : JsonCompressor.shared { comp with tokenizer := tokenizer, strcomp := strcomp } (emitted ++ bytes) =
        ⟨comp.base, strcomp.base, comp.tokenizer.jsm, emitted ++ bytes⟩ := by simp [JsonCompressor.shared, hsame]
    rw [hshared]
    exact hemits.decodes.json hs

/-- The string compressor after a flush. -/
def strcompEnded (compressor : StringCompressor) : StringCompressor :=
  { compressor with
    base := (strcompWriteMainSymbol compressor.base (ftableGetEofSymbol compressor.base.mainSymbolTable)).1 }

/-- What a flush writes last. -/
def strcompEndSymbol (compressor : StringCompressor) : CodedSymbol :=
  (strcompWriteMainSymbol compressor.base (ftableGetEofSymbol compressor.base.mainSymbolTable)).2

theorem strcompEnded_ready {compressor : StringCompressor} (h : StringTablesReady compressor.base) :
    StringTablesReady (strcompEnded compressor).base ∧ AllCodable [strcompEndSymbol compressor] := by
  have heof : ftableGetEofSymbol compressor.base.mainSymbolTable < 258 := by
    rw [ftableGetEofSymbol_of_length h.main.limit_eq (by decide)]
    decide
  exact strcompWriteMainSymbol_ready h heof

/-- The end of a string empties the string compressor. -/
theorem JcompHolds.flush (h : JcompHolds comp emitted pending) (hs : jsonIsStringState comp.base.currentState = true) :
    ∃ strcomp coded, strcompFlush comp.strcomp = some (strcompEnded strcomp, coded ++ [strcompEndSymbol strcomp]) ∧
      StrcompHolds (strcompEnded strcomp) (emitted ++ pending) [] ∧
      (StringTablesReady comp.strcomp.base → StringTablesReady (strcompEnded strcomp).base ∧
        AllCodable (coded ++ [strcompEndSymbol strcomp])) ∧
      JsonDecodes (comp.shared emitted) ⟨comp.base, strcomp.base, comp.tokenizer.jsm, emitted ++ pending⟩ coded
        pending := by
  obtain ⟨strcomp, coded, hemits, hflush⟩ := strcompFlush_emits h.strings
  obtain ⟨hinput, hbytes, hroom, hbsm⟩ := hemits.holds
  refine ⟨strcomp, coded, hflush, ⟨hinput, hbytes, hroom, hbsm⟩, fun hready => ?_, hemits.decodes.json hs⟩
  obtain ⟨hready', hall⟩ := hemits.ready hready
  obtain ⟨hended, hend⟩ := strcompEnded_ready hready'
  exact ⟨hended, hall.append hend⟩

theorem JcompHolds.stringDelimiter (h : JcompHolds comp emitted pending)
    (hs : jsonIsStringState comp.base.currentState = true) (hkind : token.kind = .stringDelimiter)
    (haccepted : jsmProcessToken comp.tokenizer.jsm token.kind = some (true, tokenizer.jsm)) (hjsm : JsmOK tokenizer.jsm) :
    ∃ comp' coded emitted' pending',
      jsonCompressorWriteToken { comp with tokenizer := tokenizer } token = some (comp', coded) ∧
      comp'.tokenizer = tokenizer ∧ JcompEmits comp comp' [token] coded emitted pending emitted' pending' := by
  obtain ⟨newState, hnew⟩ := hjsm.currentState
  obtain ⟨strcomp, coded, hflush, hstrings, hended, hdecodes⟩ := h.flush hs
  obtain ⟨hlimits, hcurrent⟩ := jsonCompressorWriteNonstringToken_keeps h.limits newState token
  have hw : TokenWellFormed false token := by simp [TokenWellFormed, hkind, isStringCharacterKind]
  have hfits : TokenFits token := .of_kind (by simp [hkind])
  refine ⟨{ comp with
      tokenizer := tokenizer, strcomp := strcompEnded strcomp
      base := (jsonCompressorWriteNonstringToken comp.base newState token).1 },
    coded ++ [strcompEndSymbol strcomp] ++ (jsonCompressorWriteNonstringToken comp.base newState token).2,
    emitted ++ pending, [], ?_, rfl,
    ⟨hstrings, by decide, by rw [hcurrent]; exact hnew, fun _ => rfl, hlimits, hjsm⟩, fun hready _ => ?_,
    fun _ _ => by simpa using hfits, pending ++ printToken token, by simp, ?_⟩
  · have hget : jsonTokenizerGetCurrentState tokenizer = some newState := hnew
    have hchar : isStringCharacterKind token.kind = false := by simp [hkind, isStringCharacterKind]
    simp only [jsonCompressorWriteToken, jsonCompressorWriteStringToken, hget, hs, hchar, hflush,
      Option.bind_eq_bind, Option.bind_some, Bool.not_true, Bool.false_eq_true, if_false, if_pos hkind]
    rfl
  · obtain ⟨hstringsReady, hall⟩ := hended hready.strings
    obtain ⟨htables, hall'⟩ := (jsonCompressorWriteNonstringToken_ready hready.tables hw).1 hfits
    exact ⟨⟨htables, hstringsReady⟩, hall.append hall'⟩
  · intro δ _ decomp decoder hsynced hyields
    rw [List.append_assoc] at hyields
    obtain ⟨decoder₁, hstring, hdelimiter⟩ := hyields.append
    obtain ⟨decomp₁, hreads, hsynced₁, hbytes₁, rfl⟩ := hdecodes δ decomp decoder₁ hsynced hstring
    obtain ⟨decomp₂, hread, hsynced₂, hbytes₂, hdecoder⟩ :=
      hsynced₁.readDelimiter h.limits hs hkind haccepted hnew hdelimiter
    exact ⟨decomp₂, hreads.tail hread, hsynced₂, by rw [hbytes₂, hbytes₁, List.append_assoc], hdecoder⟩

/-- **One token** on both sides, in any state. -/
theorem JcompHolds.writeToken (h : JcompHolds comp emitted pending)
    (hw : TokenWellFormed (jsonIsStringState comp.base.currentState) token) (hkind : token.kind ≠ .invalid)
    (haccepted : jsmProcessToken comp.tokenizer.jsm token.kind = some (true, tokenizer.jsm)) (hjsm : JsmOK tokenizer.jsm) :
    ∃ comp' coded emitted' pending',
      jsonCompressorWriteToken { comp with tokenizer := tokenizer } token = some (comp', coded) ∧
      comp'.tokenizer = tokenizer ∧ JcompEmits comp comp' [token] coded emitted pending emitted' pending' := by
  cases hs : jsonIsStringState comp.base.currentState with
  | false =>
    rw [hs] at hw
    exact h.nonstringToken hs hw hkind haccepted hjsm
  | true =>
    rw [hs] at hw
    rcases hw with hdelimiter | ⟨hchar, hbytes⟩
    · exact h.stringDelimiter hs hdelimiter haccepted hjsm
    · exact h.stringCharacter hs hchar hbytes haccepted

end Token

end Scomp
