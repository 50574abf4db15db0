/-
The string decompressor (`string_decompressor.c`).

The writer and the decoder are pointers in the source; here they are members,
and what a read leaves behind is in the state it returns.
-/
import Scomp.StringCompression.Base
import Scomp.DataStructures.WriterFacts
import Mathlib.Logic.Relation

namespace Scomp

structure StringDecompressor (δ : Type) where
  lookbackBuffer : RingBuffer
  base : StringCompressionBase
  writer : Writer
  decoder : δ

variable {δ : Type}

def strdecompInit (writer : Writer) (decoder : δ) : StringDecompressor δ :=
  { lookbackBuffer := ringBufferInit BSM_LENGTH_SHIFT, base := strcompInitBase, writer := writer, decoder := decoder }

/-- A byte goes to the writer and to the lookback buffer. -/
def strdecompEmit (decomp : StringDecompressor δ) (b : Byte) : Option (StringDecompressor δ) := do
  return { decomp with writer := ← writerWriteByte decomp.writer b, lookbackBuffer := ringBufferPush decomp.lookbackBuffer b }

def strdecompMaterializeLoop : Nat → Int → StringDecompressor δ → Option (StringDecompressor δ)
  | 0, _, decomp => some decomp
  | count + 1, index, decomp => do
    strdecompMaterializeLoop count (index + 1) (← strdecompEmit decomp (ringBufferGet decomp.lookbackBuffer index))

def strdecompMaterializeBackreference (decomp : StringDecompressor δ) (offset length : Int) :
    Option (StringDecompressor δ) :=
  let startIndex : Int := ringBufferGetIndex decomp.lookbackBuffer - (offset + length)
  let startIndex := if startIndex < 0 then startIndex + ringBufferGetLength decomp.lookbackBuffer else startIndex
  strdecompMaterializeLoop length.toNat startIndex decomp

section Read

variable [SymbolDecoder δ]

/-- The tables have groups for 16 and for 12 bits, so the casts to `int64`
change nothing. -/
def strdecompReadBackreference (decomp : StringDecompressor δ) : Option (StringDecompressor δ) := do
  let (offset, offsetTables, decoder) ←
    uintReaderRead (fun table => .string (.offset table)) decomp.base.offsetTables decomp.decoder
  let (length, lengthTables, decoder) ←
    uintReaderRead (fun table => .string (.length table)) decomp.base.lengthTables decoder
  strdecompMaterializeBackreference
    { decomp with base := { decomp.base with offsetTables := offsetTables, lengthTables := lengthTables }, decoder := decoder }
    offset.toNat length.toNat

/-- `false` on EOF. -/
def strdecompRead (decomp : StringDecompressor δ) : Option (Bool × StringDecompressor δ) := do
  let table := decomp.base.mainSymbolTable
  let (s, decoder) ← SymbolDecoder.read decomp.decoder (.string .main) table
  let decomp := { decomp with
    base := { decomp.base with mainSymbolTable := ftableIncrement table s }, decoder := decoder }
  if s = ftableGetEofSymbol decomp.base.mainSymbolTable then return (false, decomp)
  else if s = STRCOMP_BACKREFERENCE_SYMBOL then return (true, ← strdecompReadBackreference decomp)
  else return (true, ← strdecompEmit decomp (UInt8.ofNat s))

/-- Reads that return true, one after another. -/
def StrdecompReads : StringDecompressor δ → StringDecompressor δ → Prop :=
  Relation.ReflTransGen fun decomp decomp' => strdecompRead decomp = some (true, decomp')

end Read

/-! ## In step with a compressor -/

/-- A decompressor with these tables that has emitted these bytes. -/
structure StrSynced (decomp : StringDecompressor δ) (base : StringCompressionBase) (emitted : List Byte) : Prop where
  tables : decomp.base = base
  lookback : decomp.lookbackBuffer.Holds BSM_LENGTH_SHIFT emitted
  writer : WriterAtByte decomp.writer
  limit : base.mainSymbolTable.length = 258

theorem StrSynced.init {writer : Writer} (h : WriterAtByte writer) (decoder : δ) :
    StrSynced (strdecompInit writer decoder) strcompInitBase [] :=
  ⟨rfl, .init _, h, StringTablesReady.init.main.limit_eq⟩

theorem StrSynced.emit {decomp : StringDecompressor δ} {base : StringCompressionBase} {emitted : List Byte}
    (h : StrSynced decomp base emitted) (b : Byte) :
    ∃ decomp', strdecompEmit decomp b = some decomp' ∧ StrSynced decomp' base (emitted ++ [b]) ∧
      decomp'.writer.bytes = decomp.writer.bytes ++ [b] ∧ decomp'.decoder = decomp.decoder := by
  obtain ⟨writer, hwrite, hat, hbytes⟩ := h.writer.write b
  refine ⟨{ decomp with writer := writer, lookbackBuffer := ringBufferPush decomp.lookbackBuffer b }, ?_,
    ⟨h.tables, h.lookback.push b, hat, h.limit⟩, hbytes, rfl⟩
  rw [strdecompEmit, hwrite]
  rfl

/-- The copy loop from the `i`-th byte on: what it has copied so far does not
reach what it still has to read. -/
theorem StrSynced.materialize {decomp : StringDecompressor δ} {base : StringCompressionBase} {emitted next : List Byte}
    {offset i count : Nat} {index : Int} (h : StrSynced decomp base (emitted ++ next.take i))
    (hrepeats : Window.Repeats emitted offset next) (hle : next.length ≤ offset) (hlt : offset < 65536)
    (hcount : i + count = next.length)
    (hindex : index % 65536 = ((emitted.length : Int) - offset + i) % 65536) :
    ∃ decomp', strdecompMaterializeLoop count index decomp = some decomp' ∧ StrSynced decomp' base (emitted ++ next) ∧
      decomp'.writer.bytes = decomp.writer.bytes ++ next.drop i ∧ decomp'.decoder = decomp.decoder := by
  induction count generalizing i index decomp with
  | zero =>
    rw [List.take_of_length_le (by omega)] at h
    exact ⟨decomp, rfl, h, by rw [List.drop_of_length_le (by omega), List.append_nil], rfl⟩
  | succ count ih =>
    have hi : i < next.length := by omega
    have hget : ringBufferGet decomp.lookbackBuffer index = next[i] := by
      rw [@RingBuffer.Holds.get _ _ _ h.lookback index (emitted.length - offset + i) hindex
        (by rw [List.length_append, List.length_take]; show _ - (65536 : Int) ≤ _; omega)
        (by rw [List.length_append, List.length_take]; omega), hrepeats.copy hle hi, List.getD_eq_getElem?_getD,
        List.getElem?_eq_getElem hi, Option.getD_some]
    obtain ⟨decomp₁, hemit, hsynced, hbytes, hdecoder⟩ := h.emit next[i]
    rw [List.append_assoc, List.take_append_getElem hi] at hsynced
    obtain ⟨decomp₂, hloop, hsynced', hbytes', hdecoder'⟩ := @ih decomp₁ (i + 1) (index + 1) hsynced (by omega) (by omega)
    refine ⟨decomp₂, ?_, hsynced', ?_, hdecoder'.trans hdecoder⟩
    · rw [strdecompMaterializeLoop, hget, hemit]
      exact hloop
    · rw [hbytes', hbytes, List.append_assoc, List.singleton_append, ← List.drop_eq_getElem_cons hi]

section Read

variable [SymbolDecoder δ]

/-- A byte that is no marker is read as itself. -/
theorem StrSynced.readByte {decomp : StringDecompressor δ} {base : StringCompressionBase} {emitted : List Byte}
    {b : Byte} {decoder : δ} (h : StrSynced decomp base emitted)
    (hread : SymbolDecoder.read decomp.decoder (.string .main) base.mainSymbolTable = some (b.toNat, decoder)) :
    ∃ decomp', strdecompRead decomp = some (true, decomp') ∧
      StrSynced decomp' { base with mainSymbolTable := ftableIncrement base.mainSymbolTable b.toNat } (emitted ++ [b]) ∧
      decomp'.writer.bytes = decomp.writer.bytes ++ [b] ∧ decomp'.decoder = decoder := by
  have hb := b.toNat_lt
  have hsynced : StrSynced { decomp with
      base := { decomp.base with mainSymbolTable := ftableIncrement base.mainSymbolTable b.toNat }, decoder := decoder }
      { base with mainSymbolTable := ftableIncrement base.mainSymbolTable b.toNat } emitted :=
    ⟨by rw [h.tables], h.lookback, h.writer, by rw [ftableIncrement_limit]; exact h.limit⟩
  obtain ⟨decomp', hemit, hsynced', hbytes, hdecoder⟩ := hsynced.emit b
  have heof : b.toNat ≠ ftableGetEofSymbol (ftableIncrement base.mainSymbolTable b.toNat) := by
    rw [ftableGetEofSymbol_increment, ftableGetEofSymbol_of_length h.limit (by decide)]
    omega
  have hmarker : b.toNat ≠ STRCOMP_BACKREFERENCE_SYMBOL := by
    rw [STRCOMP_BACKREFERENCE_SYMBOL]
    omega
  refine ⟨decomp', ?_, hsynced', hbytes, hdecoder⟩
  simp only [strdecompRead, ← h.tables] at hread hemit heof ⊢
  rw [hread]
  simp only [Option.bind_eq_bind, Option.bind_some, if_neg heof, if_neg hmarker, UInt8.ofNat_toNat, hemit]
  rfl

end Read

end Scomp
