/-
What the parts of the compressor ask of the arithmetic coder.

Writing never looks at the encoder, so a function of the source that writes
to it returns the symbols it writes, each with the table as it is at that
moment. Reading does look at the decoder: functions that read are given any
`SymbolDecoder`, the arithmetic decoder or a channel that hands the written
symbols back.
-/
import Scomp.Json.Base
import Scomp.ArithmeticCoding.RoundTrip

namespace Scomp

/-- The members of `uint_freq_tables`. -/
inductive UintTable
  | length
  | parts
  | lastPart
deriving DecidableEq, Repr

/-- The members of `string_compression_base`. -/
inductive StringTable
  | main
  | offset (table : UintTable)
  | length (table : UintTable)
deriving DecidableEq, Repr

/-- The parts of a number with tables of their own. -/
inductive NumberPart
  | flag
  | int
  | fracZero
  | frac
  | expoZero
  | expo
deriving DecidableEq, Repr

/-- The place of a table within a compressor or decompressor, where the
source passes a pointer to it. Tables of the two sides correspond when they
have the same place. -/
inductive TableRef
  | token (state : JsonState)
  | whitespaces
  | number (part : NumberPart) (table : UintTable)
  | string (table : StringTable)
deriving DecidableEq, Repr

/-- One call of `acod_encoder_write`. -/
structure CodedSymbol where
  ref : TableRef
  table : Ftable
  symbol : Symbol

/-- The table has the symbol. -/
def CodedSymbol.Contained (coded : CodedSymbol) : Prop := coded.symbol < coded.table.length

instance (coded : CodedSymbol) : Decidable coded.Contained := inferInstanceAs (Decidable (_ < _))

/-- What the arithmetic encoder is given. -/
def codedInput (coded : List CodedSymbol) : List (Ftable × Symbol) := coded.map fun c => (c.table, c.symbol)

/-! ## Decoders -/

class SymbolDecoder (δ : Type) where
  read : δ → TableRef → Ftable → Option (Symbol × δ)

/-- The arithmetic decoder knows a table by its frequencies alone. -/
instance : SymbolDecoder AcodDecoder where
  read decoder _ table := acodDecoderRead decoder table

/-- A channel hands symbols back in order, and notes the table of each read.
There is nothing to read from an empty one. -/
structure Channel where
  pending : List Symbol
  reads : List (TableRef × Ftable)

instance : SymbolDecoder Channel where
  read channel ref table :=
    match channel.pending with
    | [] => none
    | symbol :: pending => some (symbol, { pending := pending, reads := channel.reads ++ [(ref, table)] })

/-- Read with the same tables one after another, the decoder gives the
written symbols. -/
def Yields {δ : Type} [SymbolDecoder δ] (decoder : δ) : List CodedSymbol → δ → Prop
  | [], decoder' => decoder' = decoder
  | c :: coded, decoder' =>
    ∃ decoder₁, SymbolDecoder.read decoder c.ref c.table = some (c.symbol, decoder₁) ∧ Yields decoder₁ coded decoder'

theorem Yields.append {δ : Type} [SymbolDecoder δ] {decoder decoder' : δ} {first second : List CodedSymbol}
    (h : Yields decoder (first ++ second) decoder') :
    ∃ decoder₁, Yields decoder first decoder₁ ∧ Yields decoder₁ second decoder' := by
  induction first generalizing decoder with
  | nil => exact ⟨decoder, rfl, h⟩
  | cons c first ih =>
    obtain ⟨decoder₁, hread, hrest⟩ := h
    obtain ⟨decoder₂, hfirst, hsecond⟩ := ih hrest
    exact ⟨decoder₂, ⟨decoder₁, hread, hfirst⟩, hsecond⟩

/-- A channel with the written symbols yields them, and has then seen the
tables they were written with. -/
theorem Channel.yields (coded : List CodedSymbol) (rest : List Symbol) (reads : List (TableRef × Ftable)) :
    Yields (⟨coded.map CodedSymbol.symbol ++ rest, reads⟩ : Channel) coded
      ⟨rest, reads ++ coded.map fun c => (c.ref, c.table)⟩ := by
  induction coded generalizing reads with
  | nil => rw [List.map_nil, List.map_nil, List.nil_append, List.append_nil]; rfl
  | cons c coded ih =>
    have hrest := ih (reads ++ [(c.ref, c.table)])
    rw [List.append_assoc] at hrest
    exact ⟨_, rfl, hrest⟩

/-- So does the arithmetic decoder on the bits of the finished encoder. -/
theorem AcodYields.yields {decoder : AcodDecoder} {coded : List CodedSymbol} (h : AcodYields decoder (codedInput coded)) :
    ∃ decoder', Yields decoder coded decoder' ∧ decoder'.reader.context = decoder.reader.context := by
  induction coded generalizing decoder with
  | nil => exact ⟨decoder, rfl, rfl⟩
  | cons c coded ih =>
    obtain ⟨decoder₁, hread, hcontext, hrest⟩ := h
    obtain ⟨decoder₂, hyields, hcontext'⟩ := ih hrest
    exact ⟨decoder₂, ⟨decoder₁, hread, hyields⟩, hcontext'.trans hcontext⟩

end Scomp
