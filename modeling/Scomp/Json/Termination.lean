/-
When decompression ends.

`json_decompressor_process_next_token` never looks at the error that the
decoder leaves in the context when its input has run out. After the input
only zeroes are read, and they bring the code word to the low end of the
interval or to the middle of the range. At the low end all reads give the
first symbol: it is an invalid token outside strings, but a byte within
them.
-/
import Scomp.Lib.Until
import Scomp.ArithmeticCoding.DecoderProgress
import Scomp.Json.DecompressorSafety
import Scomp.Json.RoundTrip

namespace Scomp

open IntervalCoding

/-- Within a string, where the decoder has nothing but first symbols left. -/
def JsonDecompressor.StarvedInString (decomp : JsonDecompressor AcodDecoder) : Prop :=
  jsonIsStringState decomp.base.currentState = true ∧ decomp.decoder.Starved

instance (decomp : JsonDecompressor AcodDecoder) : Decidable decomp.StarvedInString :=
  inferInstanceAs (Decidable (_ ∧ _))

/-! ## Calls of a run -/

section Runs

variable {δ : Type} [SymbolDecoder δ] {P : δ → Prop} {kinds : List JsonTokenKind} {decomp decomp' : JsonDecompressor δ}

theorem JsonDecompSafe.returns (hP : SafeDecoder P) (h : JsonDecompSafe P kinds decomp) :
    ∃ isMore decomp', jsonDecompressorProcessNextToken decomp = some (isMore, decomp') := by
  obtain ⟨isMore, -, -, decomp', -, hcall, -⟩ := h.call hP hP
  exact ⟨isMore, decomp', hcall⟩

/-- One call of a run. -/
theorem JsonDecompSafe.continues {P' : δ → Prop} (hfirst : SafeRead P P') (hP : SafeDecoder P')
    (h : JsonDecompSafe P kinds decomp) (hcall : jsonDecompressorProcessNextToken decomp = some (true, decomp')) :
    ∃ kinds', JsonDecompSafe P' kinds' decomp' := by
  obtain ⟨isMore, token, -, decomp₁, -, hcall', hsafe, -⟩ := h.call hfirst hP
  rw [hcall] at hcall'
  cases hcall'
  exact ⟨_, hsafe⟩

theorem JsonDecompSafe.reads (hP : SafeDecoder P) (h : JsonDecompSafe P kinds decomp) (hreads : JsonReads decomp decomp') :
    ∃ kinds', JsonDecompSafe P kinds' decomp' := by
  induction hreads with
  | refl => exact ⟨kinds, h⟩
  | tail _ hcall ih =>
    obtain ⟨kinds₁, h₁⟩ := ih
    exact h₁.continues hP hP hcall

end Runs

/-! ## Starved -/

variable {all : List Bool} {kinds : List JsonTokenKind} {decomp : JsonDecompressor AcodDecoder}

/-- **A call in a starved string** prints a zero byte and changes nothing. -/
theorem JsonDecompSafe.callStarvedInString
    (h : JsonDecompSafe (DecoderStarved all) kinds decomp)
    (hstring : jsonIsStringState decomp.base.currentState = true) :
    ∃ decomp', jsonDecompressorProcessNextToken decomp = some (true, decomp') ∧
      JsonDecompSafe (DecoderStarved all) kinds decomp' ∧
      decomp'.base = decomp.base := by
  have hmain := h.strdecomp.tables.main
  obtain ⟨decoder, hread, hstarved⟩ := h.strdecomp.decoder.read (hmain.codable (show 0 < 258 by decide))
  have hread' : SymbolDecoder.read decomp.strdecomp.decoder (.string .main) decomp.strdecomp.base.mainSymbolTable =
    some (0, decoder) := hread
  obtain ⟨strdecomp, hemit, hstrdecomp⟩ := @StrdecompSafe.emit _ (DecoderStarved all)
    { decomp.strdecomp with
      base := { decomp.strdecomp.base with mainSymbolTable := ftableIncrement decomp.strdecomp.base.mainSymbolTable 0 }
      decoder := decoder }
    ⟨h.strdecomp.tables.increment (by decide), h.strdecomp.lookback, h.strdecomp.writer, hstarved⟩ (UInt8.ofNat 0)
  have heof : ¬ 0 = ftableGetEofSymbol (ftableIncrement decomp.strdecomp.base.mainSymbolTable 0) := by
    rw [ftableGetEofSymbol_increment, ftableGetEofSymbol_of_length hmain.limit_eq (by decide)]
    decide
  refine ⟨{ decomp with strdecomp := strdecomp }, ?_, ⟨hstrdecomp, h.tables, h.machine⟩, rfl⟩
  rw [jsonDecompressorProcessNextToken, if_pos hstring, jsonDecompressorReadString, strdecompRead, hread']
  simp only [Option.bind_eq_bind, Option.bind_some, if_neg heof]
  rw [if_neg (by decide), hemit]
  rfl

/-- **A starved call outside strings** is the last. -/
theorem JsonDecompSafe.callStarvedOutside
    (h : JsonDecompSafe (DecoderStarved all) kinds decomp)
    (hstring : ¬ jsonIsStringState decomp.base.currentState = true) :
    ∃ decomp', jsonDecompressorProcessNextToken decomp = some (false, decomp') := by
  have htable := h.tables.tokens decomp.base.currentState
  obtain ⟨decoder, hread, hstarved⟩ := h.strdecomp.decoder.read (htable.codable (show 0 < 18 by decide))
  have heof : ¬ 0 = ftableGetEofSymbol (jsonCompressionBaseGetCurrentFtable decomp.base) := by
    rw [jsonCompressionBaseGetCurrentFtable, ftableGetEofSymbol_of_length htable.limit_eq (by decide)]
    decide
  rcases ((h.withDecoder hstarved).count (show 0 < 18 by decide)).updateJsm .invalid with
    ⟨-, -, -, hinvalid, -⟩ | ⟨decomp', hupdate, -⟩
  · exact absurd rfl hinvalid
  · refine ⟨decomp', ?_⟩
    rw [jsonDecompressorProcessNextToken, if_neg hstring, jsonDecompressorReadNonstring, jsonDecompressorReadKind]
    refine Option.bind_eq_some_iff.mpr ⟨_, Option.bind_eq_some_iff.mpr ⟨_, hread, rfl⟩, ?_⟩
    dsimp only
    rw [if_neg heof]
    exact Option.bind_eq_some_iff.mpr ⟨_, hupdate, rfl⟩

theorem JsonDecompSafe.starved (h : JsonDecompSafe (fun decoder => DecoderBetween decoder all) kinds decomp)
    (hstarved : decomp.decoder.Starved) :
    JsonDecompSafe (DecoderStarved all) kinds decomp :=
  ⟨⟨h.strdecomp.tables, h.strdecomp.lookback, h.strdecomp.writer, ⟨h.strdecomp.decoder, hstarved⟩⟩, h.tables, h.machine⟩

/-- **A starved string never ends.** -/
theorem JsonDecompressor.StarvedInString.not_finishes (hstarved : decomp.StarvedInString)
    (h : JsonDecompSafe (fun decoder => DecoderBetween decoder all) kinds decomp) :
    ¬∃ decomp', JsonFinishes decomp decomp' := by
  refine @Until.not_finishes _ _ (fun decomp => jsonIsStringState decomp.base.currentState = true ∧
    JsonDecompSafe (DecoderStarved all) kinds decomp) ?_ _
    ⟨hstarved.1, h.starved hstarved.2⟩
  rintro decomp ⟨hstring, hsafe⟩
  obtain ⟨decomp', hcall, hsafe', hbase⟩ := hsafe.callStarvedInString hstring
  exact ⟨decomp', hcall, by rw [hbase]; exact hstring, hsafe'⟩

/-! ## Runs that do not end -/

theorem TableRef.two_le_limit (ref : TableRef) : 2 ≤ ref.limit := by
  unfold TableRef.limit
  split
  case h_3 part => cases part <;> decide
  all_goals decide

theorem acodDecoder_counts (all : List Bool) (reads : Nat) :
    SafeRead (DecoderPast all reads) (DecoderPast all (reads + 1)) :=
  fun _ ref _ h ht => h.read ht ref.two_le_limit

theorem acodDecoder_past (all : List Bool) (reads : Nat) : SafeDecoder (DecoderPast all reads) := by
  intro decoder ref table h ht
  obtain ⟨s, decoder', hread, hlt, hpast⟩ := acodDecoder_counts all reads decoder ref table h ht
  exact ⟨s, decoder', hread, hlt, hpast.weaken⟩

/-- Each call of a run reads something. -/
theorem JsonDecompSafe.runs {run : Nat → JsonDecompressor AcodDecoder}
    (hruns : Until.Runs jsonDecompressorProcessNextToken run) (h : JsonDecompSafe (DecoderPast all 0) kinds (run 0))
    (n : Nat) : ∃ kinds', JsonDecompSafe (DecoderPast all n) kinds' (run n) := by
  induction n with
  | zero => exact ⟨kinds, h⟩
  | succ n ih =>
    obtain ⟨kinds', h'⟩ := ih
    exact h'.continues (acodDecoder_counts all n) (acodDecoder_past all (n + 1)) (hruns n)

/-- **A run that does not end** starves in a string or comes to the middle
after the error. -/
theorem jsonRuns_cases {run : Nat → JsonDecompressor AcodDecoder}
    (hruns : Until.Runs jsonDecompressorProcessNextToken run)
    (hpast : JsonDecompSafe (DecoderPast all 0) kinds (run 0))
    (hbetween : JsonDecompSafe (fun decoder => DecoderBetween decoder all) kinds (run 0)) :
    ∃ n, (run n).StarvedInString ∨ (run n).decoder.OnMidpoint := by
  obtain ⟨kinds', hsafe⟩ := hpast.runs hruns ((all.length + 34) * 2 ^ 32)
  have hsettled := hsafe.strdecomp.decoder.settled (Nat.le_refl _)
  generalize (all.length + 34) * 2 ^ 32 = n at hsettled
  refine ⟨n, hsettled.imp_left fun hstarved => ⟨?_, hstarved⟩⟩
  by_contra hstring
  obtain ⟨kinds', hsafe⟩ := hbetween.reads (acodDecoder_safe all) (hruns.reaches n)
  obtain ⟨decomp', hlast⟩ := (hsafe.starved hstarved).callStarvedOutside hstring
  have hnext : some (false, decomp') = some (true, run (n + 1)) := hlast.symm.trans (hruns n)
  simp at hnext

/-- **When decompression ends.** Whatever the input, in whatever chunks, a
fresh decompressor that returns false after finitely many calls has never run
out of input within a string; and one that does not run out of input within
a string returns false, if it does not come to the middle of the range after
the underflow error. -/
theorem json_decompressor_terminates (readerContext context : Context) (staleBytes : List Byte)
    (hsize : 0 < staleBytes.length) (chunks : List (List Byte)) (hchunks : ∀ chunk ∈ chunks, chunk ≠ []) :
    ∃ r, readerPushAll (readerInit readerContext) (chunks.map bufferMake) = some r ∧
      ((∃ decomp, JsonFinishes (jsonDecompressorInit context (strdecompInit (writerInit staleBytes) (acodDecoderInit r)))
          decomp) →
        ∀ decomp, JsonReads (jsonDecompressorInit context (strdecompInit (writerInit staleBytes) (acodDecoderInit r)))
          decomp → ¬decomp.StarvedInString) ∧
      ((∀ decomp, JsonReads (jsonDecompressorInit context (strdecompInit (writerInit staleBytes) (acodDecoderInit r)))
          decomp → ¬decomp.StarvedInString ∧ ¬decomp.decoder.OnMidpoint) →
        ∃ decomp, JsonFinishes (jsonDecompressorInit context (strdecompInit (writerInit staleBytes) (acodDecoderInit r)))
          decomp) := by
  obtain ⟨r, hpush, hat, -⟩ := (Reader.AtByte.init readerContext).pushAll hchunks
  refine ⟨r, hpush, ?_⟩
  have hfresh : DecoderFresh (acodDecoderInit r) r.unread := .init hat.ok
  have hbetween : JsonDecompSafe (fun decoder => DecoderBetween decoder r.unread) []
      (jsonDecompressorInit context (strdecompInit (writerInit staleBytes) (acodDecoderInit r))) :=
    .init context (.init hsize) (.fresh hfresh)
  have hpast : JsonDecompSafe (DecoderPast r.unread 0) []
      (jsonDecompressorInit context (strdecompInit (writerInit staleBytes) (acodDecoderInit r))) :=
    .init context (.init hsize) (.fresh hfresh rfl)
  generalize jsonDecompressorInit context (strdecompInit (writerInit staleBytes) (acodDecoderInit r)) = fresh at *
  constructor
  · rintro ⟨last, hfinishes⟩ decomp hreads hstarved
    obtain ⟨kinds, hsafe⟩ := hbetween.reads (acodDecoder_safe r.unread) hreads
    exact hstarved.not_finishes hsafe ⟨last, Until.Finishes.of_reached hfinishes hreads⟩
  · intro hnever
    have hreturns : ∀ decomp, Until.Reaches jsonDecompressorProcessNextToken fresh decomp →
        ∃ isMore decomp', jsonDecompressorProcessNextToken decomp = some (isMore, decomp') := by
      intro decomp hreads
      obtain ⟨kinds, hsafe⟩ := hbetween.reads (acodDecoder_safe r.unread) hreads
      exact hsafe.returns (acodDecoder_safe r.unread)
    rcases Until.finishes_or_runs hreturns with hfinishes | ⟨run, rfl, hruns⟩
    · exact hfinishes
    · exfalso
      obtain ⟨n, hn⟩ := jsonRuns_cases hruns hpast hbetween
      obtain ⟨hstarved, hmidpoint⟩ := hnever (run n) (hruns.reaches n)
      exact hn.elim hstarved hmidpoint

theorem json_decompressor_terminates_broken :
    ∃ r, readerPushAll (readerInit contextInit) [bufferMake brokenInput] = some r ∧
      ∃ decomp, JsonFinishes (jsonDecompressorInit contextInit (strdecompInit (writerInit [0]) (acodDecoderInit r)))
        decomp := by
  obtain ⟨r, hpush, -, hfinishes⟩ := json_decompressor_terminates contextInit contextInit [0] (by decide) [brokenInput]
    (by decide)
  rw [List.map_singleton] at hpush
  refine ⟨r, hpush, hfinishes fun decomp hreads => ?_⟩
  have hcheck : (readerPushAll (readerInit contextInit) [bufferMake brokenInput]).all
      (fun r => Until.checkReached jsonDecompressorProcessNextToken
        (fun decomp => decide (¬decomp.StarvedInString ∧ ¬decomp.decoder.OnMidpoint)) 8
        (jsonDecompressorInit contextInit (strdecompInit (writerInit [0]) (acodDecoderInit r)))) = true := by
    decide +kernel
  rw [hpush, Option.all_some] at hcheck
  have hreached := Until.checkReached_reaches hcheck (show Until.Reaches jsonDecompressorProcessNextToken _ decomp from hreads)
  exact of_decide_eq_true hreached

/-- The bits `10000000` are the low end of the share of the string
delimiter. -/
theorem acodDecoder_readsDelimiter {r : Reader} (hr : r.AtByte) (hbytes : r.unreadBytes = [0x01]) :
    ∃ decoder, acodDecoderRead (acodDecoderInit r) (jsonCompressionBaseInit.tables .start) =
      some (JsonTokenKind.stringDelimiter.toSymbol, decoder) ∧ decoder.Starved := by
  have hunread : r.unread = Bits.ofBytes [0x01] := by rw [Reader.unread_eq_ofBytes hr.aligned, hbytes]
  have hfresh : DecoderFresh (acodDecoderInit r) (Bits.ofBytes [0x01]) := by
    rw [← hunread]
    exact .init hr.ok
  obtain ⟨ready, hread, hstate, hfollows, -⟩ := hfresh.read
  have he : Codable (jsonCompressionBaseInit.tables .start) 9 :=
    (JsonTablesReady.init.tokens .start).codable (by decide)
  have hvalue : value (streamOf (Bits.ofBytes [0x01])) 32 = 2 ^ 31 := by decide +kernel
  have hshare : acodShare acodFullInterval (jsonCompressionBaseInit.tables .start) 9 =
      { low := 2 ^ 31, high := 10 * 2 ^ 32 / 18 - 1, bits := 32 } := by
    have hbelow : (jsonCompressionBaseInit.tables .start).below 9 = 9 := by decide +kernel
    have hfreq : (jsonCompressionBaseInit.tables .start).freq 9 = 1 := by decide +kernel
    have htotal : (jsonCompressionBaseInit.tables .start).total.toNat = 18 := by decide +kernel
    rw [acodShare, hbelow, hfreq, htotal]
    rfl
  have hcontains : (acodShare acodFullInterval (jsonCompressionBaseInit.tables .start) 9).Contains
      (streamOf (Bits.ofBytes [0x01])) := by
    rw [hshare, Interval.Contains, hvalue]
    decide
  obtain ⟨decoder, hproduce, -, -, -, hfollows'⟩ := acodDecoderProduceSymbol_spec hfollows
    (by rw [hstate]; exact acodStateInit_ready) he hcontains
  refine ⟨decoder, by rw [hread, hproduce]; rfl, hfollows'.starved_iff.mpr ⟨by decide, ?_⟩⟩
  rw [hshare]
  exact hvalue

/-- The input `01`: a string that never ends. -/
theorem json_decompressor_runs_forever :
    ∃ r, readerPushAll (readerInit contextInit) [bufferMake [0x01]] = some r ∧
      ¬∃ decomp, JsonFinishes (jsonDecompressorInit contextInit (strdecompInit (writerInit [0]) (acodDecoderInit r)))
        decomp := by
  obtain ⟨r, hpush, hat, hbytes⟩ := @Reader.AtByte.pushAll _ [[0x01]] (.init contextInit) (by simp)
  rw [readerInit_unreadBytes] at hbytes
  refine ⟨r, hpush, ?_⟩
  rintro ⟨last, hfinishes⟩
  obtain ⟨decoder, hread, hstarved⟩ := acodDecoder_readsDelimiter hat hbytes
  obtain ⟨decomp, hcall, hsynced, -, hdecoder⟩ := @JsonSynced.readToken _ _ _ _ { kind := .stringDelimiter }
    { stateStack := { jsmInit.stateStack with values := [.string, .root] } } .string decoder
    (.init r contextInit (show 0 < [(0 : Byte)].length by decide) (acodDecoderInit r)) JsonTablesReady.init.limits rfl
    (by decide) ⟨rfl, fun h => absurd h (by decide), fun h => absurd h (by decide)⟩ rfl rfl ⟨decoder, hread, rfl⟩
  have hstring : decomp.StarvedInString := by
    refine ⟨?_, by rw [hdecoder]; exact hstarved⟩
    rw [hsynced.tables]
    rfl
  have hreached := Until.Finishes.of_reached hfinishes (Relation.ReflTransGen.single hcall)
  obtain ⟨kinds, hsafe⟩ := JsonDecompSafe.reads (acodDecoder_safe r.unread)
    (.init contextInit (.init (show 0 < [(0 : Byte)].length by decide)) (.fresh (.init hat.ok)))
    (Relation.ReflTransGen.single hcall)
  exact hstring.not_finishes hsafe ⟨last, hreached⟩

end Scomp
