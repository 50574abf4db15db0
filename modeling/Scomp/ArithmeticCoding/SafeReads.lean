/-
What a reader of symbols may rely on when the input is arbitrary: the symbols
are those of the table it reads with, and nothing else is known of them.

`SafeDecoder` says so of any decoder; the recording decoder is the arithmetic
decoder that also keeps what it has read.
-/
import Scomp.ArithmeticCoding.DecoderSafety
import Scomp.ArithmeticCoding.UintCoding
import Scomp.Json.CompressionBase
import Scomp.StringCompression.Base

namespace Scomp

/-- How many symbols the table at a place has. -/
def TableRef.limit : TableRef → Nat
  | .token _ => JSON_TOKEN_MAX + 2
  | .whitespaces => JTOK_WHITESPACE_CHARS.length
  | .number part .length => part.limit
  | .string .main => STRCOMP_BACKREFERENCE_SYMBOL + 2
  | .string (.offset .length) => 5
  | .string (.length .length) => 4
  | _ => 1 <<< ACOD_UINT_BIT_GROUP_SIZE

/-- Every read, with a table that is ready, ends in a symbol of the table. -/
def SafeDecoder {δ : Type} [SymbolDecoder δ] (P : δ → Prop) : Prop :=
  ∀ decoder ref table, P decoder → FtableReady table ref.limit →
    ∃ s decoder', SymbolDecoder.read decoder ref table = some (s, decoder') ∧ s < ref.limit ∧ P decoder'

/-- The same for one read that leaves something else behind. -/
def SafeRead {δ : Type} [SymbolDecoder δ] (P P' : δ → Prop) : Prop :=
  ∀ decoder ref table, P decoder → FtableReady table ref.limit →
    ∃ s decoder', SymbolDecoder.read decoder ref table = some (s, decoder') ∧ s < ref.limit ∧ P' decoder'

/-! ## Recorded reads -/

structure RecordingDecoder where
  decoder : AcodDecoder
  reads : List (TableRef × Symbol)

instance : SymbolDecoder RecordingDecoder where
  read recording ref table := do
    let (s, decoder) ← acodDecoderRead recording.decoder table
    return (s, { decoder := decoder, reads := recording.reads ++ [(ref, s)] })

def RecordingDecoder.init (reader : Reader) : RecordingDecoder := { decoder := acodDecoderInit reader, reads := [] }

structure RecordingOK (all : List Bool) (recording : RecordingDecoder) : Prop where
  between : DecoderBetween recording.decoder all
  reads : ∀ read ∈ recording.reads, read.2 < read.1.limit

theorem RecordingOK.init {reader : Reader} (h : ReaderOK reader) : RecordingOK reader.unread (.init reader) :=
  ⟨.fresh (.init h), by simp [RecordingDecoder.init]⟩

theorem TableRef.limit_pos (ref : TableRef) : 0 < ref.limit := by
  unfold TableRef.limit
  split
  case h_3 part => cases part <;> decide
  all_goals decide

/-- **Any bits are safe to read symbols from.** -/
theorem acodDecoder_safe (all : List Bool) : SafeDecoder fun decoder => DecoderBetween decoder all := by
  intro decoder ref table h ht
  have hpos : 0 < table.total.toNat := by
    have hfirst := ht.positive 0 ref.limit_pos
    have hbelow := ht.ok.exact.below_le (show 0 + 1 ≤ table.length by rw [ht.limit_eq]; exact ref.limit_pos)
    rw [table.below_succ] at hbelow
    omega
  obtain ⟨_, s, decoder', hread, hsafe, hbetween⟩ := h.read ht.ok ht.length_lt hpos
  have hlt := hsafe.symbol_lt
  rw [ht.limit_eq] at hlt
  exact ⟨s, decoder', hread, hlt, hbetween⟩

/-- Recorded or not. -/
theorem recordingDecoder_safe (all : List Bool) : SafeDecoder (RecordingOK all) := by
  intro recording ref table h ht
  obtain ⟨s, decoder', hread, hlt, hbetween⟩ := acodDecoder_safe all recording.decoder ref table h.between ht
  have hread' : acodDecoderRead recording.decoder table = some (s, decoder') := hread
  refine ⟨s, { decoder := decoder', reads := recording.reads ++ [(ref, s)] }, ?_, hlt, hbetween, fun read hmem => ?_⟩
  · show (do let (s, decoder) ← acodDecoderRead recording.decoder table; _) = _
    rw [hread']
    rfl
  · rcases List.mem_append.mp hmem with hmem | hmem
    · exact h.reads read hmem
    · rw [List.mem_singleton.mp hmem]
      exact hlt

/-! ## Numbers -/

section Uint

variable {δ : Type} [SymbolDecoder δ] {P : δ → Prop} {ref : UintTable → TableRef} {tables : UintFreqTables}

theorem uintReaderReadParts_safe (hP : SafeDecoder P) (hparts : (ref .parts).limit = 16)
    (ht : FtableReady tables.uintPartsTable 16) {left i : Nat} {result : UInt64} {decoder : δ} (h : P decoder) :
    ∃ result' decoder', uintReaderReadParts ref tables left i result decoder = some (result', decoder') ∧ P decoder' := by
  induction left generalizing i result decoder with
  | zero => exact ⟨result, decoder, rfl, h⟩
  | succ left ih =>
    obtain ⟨part, decoder₁, hread, -, h₁⟩ := hP decoder (ref .parts) tables.uintPartsTable h (by rw [hparts]; exact ht)
    obtain ⟨result', decoder', hrest, h'⟩ := @ih (i + 1) (uintReaderAppendPart result part i) decoder₁ h₁
    exact ⟨result', decoder', by simp [uintReaderReadParts, hread, hrest], h'⟩

/-- **A number is read from any bits**, and the tables keep being ready. -/
theorem uintReaderRead_safe (hP : SafeDecoder P) (hparts : (ref .parts).limit = 16)
    (hlast : (ref .lastPart).limit = 16) (ht : UintTablesReady tables (ref .length).limit) {decoder : δ} (h : P decoder) :
    ∃ value tables' decoder', uintReaderRead ref tables decoder = some (value, tables', decoder') ∧
      UintTablesReady tables' (ref .length).limit ∧ P decoder' := by
  obtain ⟨count, decoder₁, hread, hlt, h₁⟩ := hP decoder (ref .length) tables.lengthTable h ht.length
  have ht₁ : UintTablesReady { tables with lengthTable := ftableIncrement tables.lengthTable count } (ref .length).limit :=
    ⟨ht.length.increment hlt, ht.parts, ht.lastPart⟩
  obtain ⟨result, decoder₂, hloop, h₂⟩ := @uintReaderReadParts_safe _ _ _ ref
    { tables with lengthTable := ftableIncrement tables.lengthTable count } hP hparts ht.parts (count - 1) 0 0 _ h₁
  by_cases hzero : count > 0
  · obtain ⟨part, decoder₃, hread₃, hpart, h₃⟩ := hP decoder₂ (ref .lastPart) tables.lastPartTable h₂
      (by rw [hlast]; exact ht.lastPart)
    rw [hlast] at hpart
    refine ⟨uintReaderAppendPart result part (count - 1), { tables with
      lengthTable := ftableIncrement tables.lengthTable count
      lastPartTable := ftableIncrement tables.lastPartTable part }, decoder₃, ?_,
      ⟨ht₁.length, ht.parts, ht.lastPart.increment hpart⟩, h₃⟩
    simp [uintReaderRead, hread, hloop, hzero, hread₃]
  · exact ⟨result, _, decoder₂, by simp [uintReaderRead, hread, hloop, hzero], ht₁, h₂⟩

end Uint

end Scomp
