/-
Two decompressors that differ in how their input is cut up and in what has
been taken out of their writers already: as long as their decoders read alike,
they do everything alike.
-/
import Scomp.ArithmeticCoding.MoreInput
import Scomp.Json.DecompressorSafety

namespace Scomp

variable {δ : Type}

/-- The bytes taken from the two writers, and those still in them, are the
same. -/
structure WritersAlike (taken taken' : List Byte) (w w' : Writer) : Prop where
  atByte : WriterAtByte w
  atByte' : WriterAtByte w'
  bytes : taken' ++ w'.bytes = taken ++ w.bytes

variable {R R' : δ → δ → Prop} {taken taken' : List Byte}

theorem WritersAlike.write {w w' w₁ : Writer} {b : Byte} (h : WritersAlike taken taken' w w')
    (hwrite : writerWriteByte w b = some w₁) :
    ∃ w₁', writerWriteByte w' b = some w₁' ∧ WritersAlike taken taken' w₁ w₁' := by
  obtain ⟨w₂, hwrite₂, hat, hbytes⟩ := h.atByte.write b
  obtain ⟨w₁', hwrite', hat', hbytes'⟩ := h.atByte'.write b
  rw [hwrite] at hwrite₂
  cases hwrite₂
  refine ⟨w₁', hwrite', hat, hat', ?_⟩
  rw [hbytes, hbytes', ← List.append_assoc, h.bytes, List.append_assoc]

/-! ## Strings -/

structure StrAlike (R : δ → δ → Prop) (taken taken' : List Byte) (decomp decomp' : StringDecompressor δ) : Prop where
  lookback : decomp'.lookbackBuffer = decomp.lookbackBuffer
  base : decomp'.base = decomp.base
  writers : WritersAlike taken taken' decomp.writer decomp'.writer
  decoders : R decomp.decoder decomp'.decoder
  ready : StringTablesReady decomp.base

section Strings

variable {decomp decomp' after : StringDecompressor δ}

theorem StrAlike.emit {b : Byte} (h : StrAlike R taken taken' decomp decomp')
    (hemit : strdecompEmit decomp b = some after) :
    ∃ after', strdecompEmit decomp' b = some after' ∧ StrAlike R taken taken' after after' := by
  obtain ⟨w, hwrite, hdone⟩ := Option.bind_eq_some_iff.mp hemit
  obtain ⟨w', hwrite', hwriters⟩ := h.writers.write hwrite
  cases hdone
  refine ⟨_, Option.bind_eq_some_iff.mpr ⟨w', hwrite', rfl⟩, ?_, h.base, hwriters, h.decoders, h.ready⟩
  exact congrArg (ringBufferPush · b) h.lookback

theorem StrAlike.materialize {count : Nat} {index : Int} (h : StrAlike R taken taken' decomp decomp')
    (hloop : strdecompMaterializeLoop count index decomp = some after) :
    ∃ after', strdecompMaterializeLoop count index decomp' = some after' ∧ StrAlike R taken taken' after after' := by
  induction count generalizing index decomp decomp' with
  | zero =>
    cases hloop
    exact ⟨decomp', rfl, h⟩
  | succ count ih =>
    obtain ⟨next, hemit, hrest⟩ := Option.bind_eq_some_iff.mp hloop
    obtain ⟨next', hemit', hnext⟩ := h.emit hemit
    obtain ⟨after', hrest', hafter⟩ := ih hnext hrest
    refine ⟨after', Option.bind_eq_some_iff.mpr ⟨next', ?_, hrest'⟩, hafter⟩
    rw [h.lookback]
    exact hemit'

variable [SymbolDecoder δ] {R : Nat → δ → δ → Prop} {symbols : Nat}

/-- An offset has five symbols at most, a length four. -/
theorem StrAlike.readBackreference (hR : ReadsAlike R) (h : StrAlike (R (symbols + 9)) taken taken' decomp decomp')
    (hread : strdecompReadBackreference decomp = some after) :
    ∃ after', strdecompReadBackreference decomp' = some after' ∧ StrAlike (R symbols) taken taken' after after' := by
  simp only [strdecompReadBackreference, Option.bind_eq_bind, Option.bind_eq_some_iff, Prod.exists] at hread ⊢
  obtain ⟨offset, offsetTables, decoder₁, hoffset, length, lengthTables, decoder₂, hlength, hloop⟩ := hread
  obtain ⟨hoffsets, decoder₁', hoffset', h₁⟩ := @uintReaderRead_alike _ _ _ (fun table => .string (.offset table)) _ hR
    rfl rfl h.ready.offset (symbols + 4) _ _ _ _ _ h.decoders hoffset
  obtain ⟨hlengths, decoder₂', hlength', h₂⟩ := @uintReaderRead_alike _ _ _ (fun table => .string (.length table)) _ hR
    rfl rfl h.ready.length symbols _ _ _ _ _ h₁ hlength
  have hready : StrAlike (R symbols) taken taken'
      { decomp with
        base := { decomp.base with offsetTables := offsetTables, lengthTables := lengthTables }, decoder := decoder₂ }
      { decomp' with
        base := { decomp'.base with offsetTables := offsetTables, lengthTables := lengthTables }, decoder := decoder₂' } :=
    ⟨h.lookback, by simp only [h.base], h.writers, h₂, h.ready.main, hoffsets, hlengths⟩
  obtain ⟨after', hloop', hafter⟩ := hready.materialize hloop
  refine ⟨after', ⟨offset, offsetTables, decoder₁', by rw [h.base]; exact hoffset', length, lengthTables, decoder₂',
    by rw [h.base]; exact hlength', ?_⟩, hafter⟩
  rw [← h.lookback] at hloop'
  exact hloop'

/-- A part of a string has a symbol, or ten with a backreference. -/
theorem StrAlike.read {isMore : Bool} (hR : ReadsAlike R) (h : StrAlike (R (symbols + 10)) taken taken' decomp decomp')
    (hread : strdecompRead decomp = some (isMore, after)) :
    ∃ after', strdecompRead decomp' = some (isMore, after') ∧ StrAlike (R symbols) taken taken' after after' := by
  simp only [strdecompRead, Option.bind_eq_bind, Option.bind_eq_some_iff, Prod.exists] at hread ⊢
  obtain ⟨s, decoder, hs, hrest⟩ := hread
  obtain ⟨hlt, decoder', hs', hdecoders⟩ := @ReadsAlike.read _ _ _ hR (symbols + 9) _ _ _ _ _ _ h.decoders h.ready.main hs
  have hnext : StrAlike (R (symbols + 9)) taken taken'
      { decomp with
        base := { decomp.base with mainSymbolTable := ftableIncrement decomp.base.mainSymbolTable s }, decoder := decoder }
      { decomp' with
        base := { decomp'.base with mainSymbolTable := ftableIncrement decomp'.base.mainSymbolTable s }
        decoder := decoder' } :=
    ⟨h.lookback, by simp only [h.base], h.writers, hdecoders, h.ready.increment hlt⟩
  have htables : decomp'.base.mainSymbolTable = decomp.base.mainSymbolTable := by rw [h.base]
  suffices hsuffices : ∃ after', _ = some (isMore, after') ∧ StrAlike (R symbols) taken taken' after after' by
    obtain ⟨after', hdone, hafter⟩ := hsuffices
    exact ⟨after', ⟨s, decoder', by rw [htables]; exact hs', hdone⟩, hafter⟩
  rw [htables] at hnext ⊢
  by_cases heof : s = ftableGetEofSymbol (ftableIncrement decomp.base.mainSymbolTable s)
  · rw [if_pos heof] at hrest ⊢
    cases hrest
    exact ⟨_, rfl, hnext.lookback, hnext.base, hnext.writers, hR.weaken hnext.decoders (by omega), hnext.ready⟩
  · rw [if_neg heof] at hrest ⊢
    by_cases hmarker : s = STRCOMP_BACKREFERENCE_SYMBOL
    · rw [if_pos hmarker] at hrest ⊢
      obtain ⟨after₁, hback, hdone⟩ := Option.bind_eq_some_iff.mp hrest
      cases hdone
      obtain ⟨after', hback', hafter⟩ := hnext.readBackreference hR hback
      exact ⟨after', Option.bind_eq_some_iff.mpr ⟨after', hback', rfl⟩, hafter⟩
    · rw [if_neg hmarker] at hrest ⊢
      obtain ⟨after₁, hemit, hdone⟩ := Option.bind_eq_some_iff.mp hrest
      cases hdone
      obtain ⟨after', hemit', hafter⟩ := hnext.emit hemit
      exact ⟨after', Option.bind_eq_some_iff.mpr ⟨after', hemit', rfl⟩,
        hafter.lookback, hafter.base, hafter.writers, hR.weaken hafter.decoders (by omega), hafter.ready⟩

end Strings

/-! ## JSON -/

structure JsonAlike (R : δ → δ → Prop) (taken taken' : List Byte) (decomp decomp' : JsonDecompressor δ) : Prop where
  strings : StrAlike R taken taken' decomp.strdecomp decomp'.strdecomp
  base : decomp'.base = decomp.base
  jsm : decomp'.jsm = decomp.jsm
  context : decomp'.context = decomp.context
  ready : JsonTablesReady decomp.base

/-- What a function does to one of two decompressors, it does to the other. -/
structure DoesAlike {α : Type} (R R' : δ → δ → Prop) (f : JsonDecompressor δ → Option (α × JsonDecompressor δ)) :
    Prop where
  run {taken taken' : List Byte} {decomp decomp' : JsonDecompressor δ} {a : α} {after : JsonDecompressor δ} :
    JsonAlike R taken taken' decomp decomp' → f decomp = some (a, after) →
      ∃ after', f decomp' = some (a, after') ∧ JsonAlike R' taken taken' after after'

/-- Alike with fewer symbols to come, or none known. -/
theorem JsonAlike.mono {decomp decomp' : JsonDecompressor δ} (h : JsonAlike R taken taken' decomp decomp')
    (hmono : R decomp.decoder decomp'.decoder → R' decomp.decoder decomp'.decoder) :
    JsonAlike R' taken taken' decomp decomp' :=
  ⟨⟨h.strings.lookback, h.strings.base, h.strings.writers, hmono h.strings.decoders, h.strings.ready⟩, h.base, h.jsm,
    h.context, h.ready⟩

theorem JsonAlike.withDecoder {decomp decomp' : JsonDecompressor δ} {decoder decoder' : δ}
    (h : JsonAlike R taken taken' decomp decomp') (hdecoders : R' decoder decoder') :
    JsonAlike R' taken taken' (decomp.withDecoder decoder) (decomp'.withDecoder decoder') :=
  ⟨⟨h.strings.lookback, h.strings.base, h.strings.writers, hdecoders, h.strings.ready⟩, h.base, h.jsm, h.context,
    h.ready⟩

theorem JsonAlike.count {decomp decomp' : JsonDecompressor δ} (h : JsonAlike R taken taken' decomp decomp') {s : Symbol}
    (hs : s < 18) : JsonAlike R taken taken' (jsonDecompressorCount decomp s) (jsonDecompressorCount decomp' s) :=
  ⟨h.strings, by simp only [jsonDecompressorCount, h.base], h.jsm, h.context, h.ready.increment hs⟩

/-- The same error is set on both. -/
theorem JsonAlike.setError {decomp decomp' : JsonDecompressor δ} (h : JsonAlike R taken taken' decomp decomp')
    (message : String) :
    JsonAlike R taken taken' { decomp with context := contextSetError decomp.context message }
      { decomp' with context := contextSetError decomp'.context message } :=
  ⟨h.strings, h.base, h.jsm, by simp only [h.context], h.ready⟩

/-- The machine of either gives the same answer. -/
theorem jsonDecompressorUpdateJsm_alike (kind : JsonTokenKind) :
    DoesAlike R R fun decomp => jsonDecompressorUpdateJsm decomp kind := by
  constructor
  intro taken taken' decomp decomp' isAccepted after h hrun
  obtain ⟨⟨answer, jsm⟩, hprocess, hrest⟩ := Option.bind_eq_some_iff.mp hrun
  have hprocess' : jsmProcessToken decomp'.jsm kind = some (answer, jsm) := by rw [h.jsm]; exact hprocess
  have hnext : JsonAlike R taken taken' { decomp with jsm := jsm } { decomp' with jsm := jsm } :=
    ⟨h.strings, h.base, rfl, h.context, h.ready⟩
  simp only [jsonDecompressorUpdateJsm, hprocess', Option.bind_eq_bind, Option.bind_some]
  cases answer with
  | false =>
    cases hrest
    exact ⟨_, rfl, hnext.setError _⟩
  | true =>
    obtain ⟨state, hstate, hdone⟩ := Option.bind_eq_some_iff.mp hrest
    cases hdone
    refine ⟨_, Option.bind_eq_some_iff.mpr ⟨state, hstate, rfl⟩, h.strings, ?_, rfl, h.context, h.ready.tokens,
      h.ready.whitespaces, h.ready.numbers⟩
    simp only [h.base]

theorem JsonAlike.print {decomp decomp' after : JsonDecompressor δ} {token : JsonToken}
    (h : JsonAlike R taken taken' decomp decomp') (hprint : jsonDecompressorPrint decomp token = some after) :
    ∃ after', jsonDecompressorPrint decomp' token = some after' ∧ JsonAlike R taken taken' after after' := by
  obtain ⟨⟨length, w⟩, hwrite, hdone⟩ := Option.bind_eq_some_iff.mp hprint
  have hkind : token.kind ≠ .invalid := by
    intro hinvalid
    rw [jsonDetokenizerWrite, hinvalid] at hwrite
    cases hwrite
  obtain ⟨w₁, hw₁, hat, hbytes⟩ := jsonDetokenizerWrite_prints hkind decomp.writer h.strings.writers.atByte
  obtain ⟨w', hw', hat', hbytes'⟩ := jsonDetokenizerWrite_prints hkind decomp'.writer h.strings.writers.atByte'
  have hsame : (length, w) = (_, w₁) := Option.some.inj (hwrite.symm.trans hw₁)
  obtain ⟨-, rfl⟩ := Prod.mk.inj hsame
  cases hdone
  refine ⟨{ decomp' with strdecomp := { decomp'.strdecomp with writer := w' } },
    Option.bind_eq_some_iff.mpr ⟨_, hw', rfl⟩,
    ⟨h.strings.lookback, h.strings.base, ⟨hat, hat', ?_⟩, h.strings.decoders, h.strings.ready⟩, h.base, h.jsm, h.context,
    h.ready⟩
  rw [hbytes, hbytes', ← List.append_assoc]
  exact (congrArg (· ++ printToken token) h.strings.writers.bytes).trans (List.append_assoc _ _ _)

section Reads

variable [SymbolDecoder δ] {R : Nat → δ → δ → Prop} {symbols : Nat} (hR : ReadsAlike R)
include hR

theorem JsonAlike.readKind {decomp decomp' after : JsonDecompressor δ} {s : Symbol}
    (h : JsonAlike (R (symbols + 1)) taken taken' decomp decomp')
    (hread : jsonDecompressorReadKind decomp = some (s, after)) :
    s < 18 ∧ ∃ after', jsonDecompressorReadKind decomp' = some (s, after') ∧
      JsonAlike (R symbols) taken taken' after after' ∧ after.base = decomp.base := by
  obtain ⟨⟨symbol, decoder⟩, hs, hdone⟩ := Option.bind_eq_some_iff.mp hread
  obtain ⟨hlt, decoder', hs', hdecoders⟩ := hR.read h.strings.decoders (h.ready.tokens _) hs
  cases hdone
  refine ⟨hlt, decomp'.withDecoder decoder', Option.bind_eq_some_iff.mpr ⟨(s, decoder'), ?_, rfl⟩,
    h.withDecoder hdecoders, rfl⟩
  rw [h.base]
  exact hs'

theorem jsonDecompressorReadUint_alike (part : NumberPart) :
    DoesAlike (R (symbols + part.limit)) (R symbols) fun decomp => jsonDecompressorReadUint decomp part := by
  constructor
  intro taken taken' decomp decomp' value after h hrun
  obtain ⟨⟨value₁, tables, decoder⟩, hread, hdone⟩ := Option.bind_eq_some_iff.mp hrun
  obtain ⟨htables, decoder', hread', hdecoders⟩ := @uintReaderRead_alike _ _ _ (fun table => .number part table) _ hR
    (by cases part <;> rfl) (by cases part <;> rfl) (h.ready.numbers part) symbols _ _ _ _ _ h.strings.decoders hread
  cases hdone
  refine ⟨{ decomp'.withDecoder decoder' with
      base := { decomp'.base with numberTables := Function.update decomp'.base.numberTables part tables } },
    Option.bind_eq_some_iff.mpr ⟨(value, tables, decoder'), by rw [h.base]; exact hread', rfl⟩,
    (h.withDecoder hdecoders).strings, ?_, h.jsm, h.context, h.ready.tokens, h.ready.whitespaces, fun other => ?_⟩
  · simp only [h.base]
  · dsimp only
    rw [Function.update_apply]
    split
    · next he =>
      rw [he]
      exact htables
    · exact h.ready.numbers other

theorem DoesAlike.pure {α : Type} (a : α) (fewer : Nat) :
    DoesAlike (R (symbols + fewer)) (R symbols) fun decomp => some (a, decomp) := by
  constructor
  intro taken taken' decomp decomp' b after h hrun
  cases hrun
  exact ⟨decomp', rfl, h.mono fun hdecoders => hR.weaken hdecoders (Nat.le_add_right _ _)⟩

theorem jsonDecompressorReadInteger_alike (number : JsonNumberToken) :
    DoesAlike (R (symbols + 17)) (R symbols) fun decomp => jsonDecompressorReadInteger decomp number := by
  unfold jsonDecompressorReadInteger
  by_cases hflag : (!hasFlag number.flags JSON_NUMBER_INTEGER_PART_IS_ZERO) = true
  · simp only [if_pos hflag]
    constructor
    intro taken taken' decomp decomp' number' after h hrun
    obtain ⟨⟨value, next⟩, hvalue, hdone⟩ := Option.bind_eq_some_iff.mp hrun
    obtain ⟨next', hvalue', hnext⟩ := (jsonDecompressorReadUint_alike hR .int).run h hvalue
    cases hdone
    exact ⟨next', Option.bind_eq_some_iff.mpr ⟨_, hvalue', rfl⟩, hnext⟩
  · simp only [if_neg hflag]
    exact .pure hR number 17

/-- Leading zeroes and a part, as the fraction and the exponent have. -/
theorem jsonDecompressorReadUints_alike {zeroes part : NumberPart} (hzeroes : zeroes.limit = 3) (hpart : part.limit = 5)
    (finish : UInt64 → UInt64 → JsonNumberToken) :
    DoesAlike (R (symbols + 8)) (R symbols) fun decomp => do
      let (leadingZeroes, decomp) ← jsonDecompressorReadUint decomp zeroes
      let (value, decomp) ← jsonDecompressorReadUint decomp part
      return (finish leadingZeroes value, decomp) := by
  constructor
  intro taken taken' decomp decomp' number after h hrun
  obtain ⟨⟨leadingZeroes, next⟩, hfirst, hrest⟩ := Option.bind_eq_some_iff.mp hrun
  obtain ⟨⟨value, last⟩, hsecond, hdone⟩ := Option.bind_eq_some_iff.mp hrest
  obtain ⟨next', hfirst', hnext⟩ := (@jsonDecompressorReadUint_alike _ _ _ (symbols + 5) hR zeroes).run
    (by rw [hzeroes]; exact h) hfirst
  obtain ⟨last', hsecond', hlast⟩ := (@jsonDecompressorReadUint_alike _ _ _ symbols hR part).run
    (by rw [hpart]; exact hnext) hsecond
  cases hdone
  exact ⟨last', Option.bind_eq_some_iff.mpr ⟨_, hfirst', Option.bind_eq_some_iff.mpr ⟨_, hsecond', rfl⟩⟩, hlast⟩

theorem jsonDecompressorReadFraction_alike (number : JsonNumberToken) :
    DoesAlike (R (symbols + 8)) (R symbols) fun decomp => jsonDecompressorReadFraction decomp number := by
  unfold jsonDecompressorReadFraction
  by_cases hflag : hasFlag number.flags JSON_NUMBER_HAS_FRACTION = true
  · simp only [if_pos hflag]
    exact jsonDecompressorReadUints_alike hR rfl rfl fun leadingZeroes value =>
      { number with fractionLeadingZeroes := leadingZeroes.toUInt8, fractionPart := value }
  · simp only [if_neg hflag]
    exact .pure hR number 8

theorem jsonDecompressorReadExponent_alike (number : JsonNumberToken) :
    DoesAlike (R (symbols + 8)) (R symbols) fun decomp => jsonDecompressorReadExponent decomp number := by
  unfold jsonDecompressorReadExponent
  by_cases hflag : hasFlag number.flags JSON_NUMBER_HAS_EXPONENT = true
  · simp only [if_pos hflag]
    exact jsonDecompressorReadUints_alike hR rfl rfl fun leadingZeroes value =>
      { number with exponentLeadingZeroes := leadingZeroes.toUInt8, exponentPart := value.toUInt16 }
  · simp only [if_neg hflag]
    exact .pure hR number 8

/-- A number has 36 symbols at most. -/
theorem jsonDecompressorReadNumber_alike : DoesAlike (R (symbols + 36)) (R symbols) jsonDecompressorReadNumber := by
  constructor
  intro taken taken' decomp decomp' number after h hrun
  obtain ⟨⟨flags, decomp₁⟩, hflags, hrun⟩ := Option.bind_eq_some_iff.mp hrun
  obtain ⟨⟨number₂, decomp₂⟩, hinteger, hrun⟩ := Option.bind_eq_some_iff.mp hrun
  obtain ⟨⟨number₃, decomp₃⟩, hfraction, hexponent⟩ := Option.bind_eq_some_iff.mp hrun
  obtain ⟨decomp₁', hflags', h₁⟩ := (@jsonDecompressorReadUint_alike _ _ _ (symbols + 33) hR .flag).run h hflags
  obtain ⟨decomp₂', hinteger', h₂⟩ := (@jsonDecompressorReadInteger_alike _ _ _ (symbols + 16) hR _).run h₁ hinteger
  obtain ⟨decomp₃', hfraction', h₃⟩ := (@jsonDecompressorReadFraction_alike _ _ _ (symbols + 8) hR _).run h₂ hfraction
  obtain ⟨after', hexponent', hafter⟩ := (jsonDecompressorReadExponent_alike hR _).run h₃ hexponent
  exact ⟨after', Option.bind_eq_some_iff.mpr ⟨_, hflags', Option.bind_eq_some_iff.mpr ⟨_, hinteger',
    Option.bind_eq_some_iff.mpr ⟨_, hfraction', hexponent'⟩⟩⟩, hafter⟩

theorem jsonDecompressorReadPayload_alike (kind : JsonTokenKind) :
    DoesAlike (R (symbols + 36)) (R symbols) fun decomp => jsonDecompressorReadPayload decomp kind := by
  constructor
  intro taken taken' decomp decomp' token after h hrun
  unfold jsonDecompressorReadPayload at hrun ⊢
  split at hrun
  · obtain ⟨⟨s, decoder⟩, hs, hdone⟩ := Option.bind_eq_some_iff.mp hrun
    obtain ⟨hlt, decoder', hs', hdecoders⟩ := @ReadsAlike.read _ _ _ hR (symbols + 35) _ _ _ _ _ _ h.strings.decoders
      h.ready.whitespaces hs
    cases hdone
    refine ⟨_, Option.bind_eq_some_iff.mpr ⟨(s, decoder'), by rw [h.base]; exact hs', rfl⟩,
      (h.withDecoder (hR.weaken hdecoders (Nat.le_add_right _ _))).strings, ?_, h.jsm, h.context, h.ready.tokens,
      h.ready.whitespaces.increment hlt, h.ready.numbers⟩
    simp only [h.base]
  · obtain ⟨⟨number, next⟩, hnumber, hdone⟩ := Option.bind_eq_some_iff.mp hrun
    obtain ⟨next', hnumber', hnext⟩ := (jsonDecompressorReadNumber_alike hR).run h hnumber
    cases hdone
    exact ⟨next', Option.bind_eq_some_iff.mpr ⟨_, hnumber', rfl⟩, hnext⟩
  · exact (DoesAlike.pure hR _ 36).run h hrun

theorem jsonDecompressorReadString_alike :
    DoesAlike (R (symbols + 11)) (R symbols) jsonDecompressorReadString := by
  constructor
  intro taken taken' decomp decomp' isMore after h hrun
  obtain ⟨⟨isMore₁, strdecomp⟩, hread, hrest⟩ := Option.bind_eq_some_iff.mp hrun
  obtain ⟨strdecomp', hread', hstrings⟩ := @StrAlike.read _ _ _ _ _ _ _ _ (symbols + 1) _ hR h.strings hread
  have hnext : JsonAlike (R (symbols + 1)) taken taken' { decomp with strdecomp := strdecomp }
      { decomp' with strdecomp := strdecomp' } := ⟨hstrings, h.base, h.jsm, h.context, h.ready⟩
  simp only [jsonDecompressorReadString, hread', Option.bind_eq_bind, Option.bind_some]
  cases isMore₁ with
  | true =>
    cases hrest
    exact ⟨_, rfl, hnext.mono fun hdecoders => hR.weaken hdecoders (Nat.le_add_right _ _)⟩
  | false =>
    obtain ⟨⟨s, decomp₁⟩, hkind, hrest⟩ := Option.bind_eq_some_iff.mp hrest
    obtain ⟨hlt, decomp₁', hkind', h₁, hbase₁⟩ := hnext.readKind hR hkind
    have hcounted := h₁.count hlt
    simp only [Bool.false_eq_true, if_false, hkind', Option.bind_some]
    rw [h.base]
    dsimp only at hrest
    by_cases heof : s = ftableGetEofSymbol (jsonCompressionBaseGetCurrentFtable decomp.base)
    · rw [if_pos heof] at hrest ⊢
      cases hrest
      exact ⟨_, rfl, hcounted⟩
    · rw [if_neg heof] at hrest ⊢
      by_cases hdelimiter : JsonTokenKind.ofSymbol s ≠ .stringDelimiter
      · rw [if_pos hdelimiter] at hrest ⊢
        cases hrest
        exact ⟨_, rfl, hcounted.setError _⟩
      · rw [if_neg hdelimiter] at hrest ⊢
        obtain ⟨⟨isAccepted, decomp₂⟩, hupdate, hrest⟩ := Option.bind_eq_some_iff.mp hrest
        obtain ⟨decomp₂', hupdate', h₂⟩ := (jsonDecompressorUpdateJsm_alike .stringDelimiter).run hcounted hupdate
        simp only [hupdate', Option.bind_some]
        cases isAccepted with
        | false => cases hrest
        | true =>
          obtain ⟨decomp₃, hprint, hdone⟩ := Option.bind_eq_some_iff.mp hrest
          obtain ⟨decomp₃', hprint', h₃⟩ := h₂.print hprint
          cases hdone
          exact ⟨decomp₃', Option.bind_eq_some_iff.mpr ⟨decomp₃', hprint', rfl⟩, h₃⟩

theorem jsonDecompressorReadNonstring_alike :
    DoesAlike (R (symbols + 37)) (R symbols) jsonDecompressorReadNonstring := by
  constructor
  intro taken taken' decomp decomp' isMore after h hrun
  obtain ⟨⟨s, decomp₁⟩, hkind, hrest⟩ := Option.bind_eq_some_iff.mp hrun
  obtain ⟨hlt, decomp₁', hkind', h₁, hbase₁⟩ := @JsonAlike.readKind _ _ _ _ _ (symbols + 36) hR _ _ _ _ h hkind
  simp only [jsonDecompressorReadNonstring, hkind', Option.bind_eq_bind, Option.bind_some, h.base]
  dsimp only at hrest
  by_cases heof : s = ftableGetEofSymbol (jsonCompressionBaseGetCurrentFtable decomp.base)
  · rw [if_pos heof] at hrest ⊢
    cases hrest
    exact ⟨_, rfl, h₁.mono fun hdecoders => hR.weaken hdecoders (Nat.le_add_right _ _)⟩
  · rw [if_neg heof] at hrest ⊢
    obtain ⟨⟨isAccepted, decomp₂⟩, hupdate, hrest⟩ := Option.bind_eq_some_iff.mp hrest
    obtain ⟨decomp₂', hupdate', h₂⟩ := (jsonDecompressorUpdateJsm_alike (JsonTokenKind.ofSymbol s)).run (h₁.count hlt) hupdate
    simp only [hupdate', Option.bind_some]
    cases isAccepted with
    | false =>
      cases hrest
      exact ⟨_, rfl, h₂.mono fun hdecoders => hR.weaken hdecoders (Nat.le_add_right _ _)⟩
    | true =>
      obtain ⟨⟨token, decomp₃⟩, hpayload, hrest⟩ := Option.bind_eq_some_iff.mp hrest
      obtain ⟨decomp₃', hpayload', h₃⟩ := (jsonDecompressorReadPayload_alike hR (JsonTokenKind.ofSymbol s)).run h₂ hpayload
      obtain ⟨decomp₄, hprint, hdone⟩ := Option.bind_eq_some_iff.mp hrest
      obtain ⟨decomp₄', hprint', h₄⟩ := h₃.print hprint
      cases hdone
      refine ⟨decomp₄', ?_, h₄⟩
      simp only [Bool.not_true, Bool.false_eq_true, if_false, hpayload', Option.bind_some, hprint']
      rfl

/-- **A call takes 37 symbols at most**, and does the same with either
decompressor. -/
theorem jsonDecompressorProcessNextToken_alike :
    DoesAlike (R (symbols + 37)) (R symbols) jsonDecompressorProcessNextToken := by
  constructor
  intro taken taken' decomp decomp' isMore after h hrun
  unfold jsonDecompressorProcessNextToken at hrun ⊢
  rw [h.base]
  by_cases hstring : jsonIsStringState decomp.base.currentState = true
  · rw [if_pos hstring] at hrun ⊢
    exact (jsonDecompressorReadString_alike hR).run (h.mono fun hdecoders => hR.weaken hdecoders (by omega)) hrun
  · rw [if_neg hstring] at hrun ⊢
    exact (jsonDecompressorReadNonstring_alike hR).run h hrun

end Reads

end Scomp
