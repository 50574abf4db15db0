/-
The string decompressor on any bits: whatever offset and length a
backreference has, the copy stays within the ring buffer.
-/
import Scomp.ArithmeticCoding.SafeReads
import Scomp.StringCompression.StringDecompressor

namespace Scomp

variable {δ : Type} {P : δ → Prop} {decomp : StringDecompressor δ}

structure StrdecompSafe (P : δ → Prop) (decomp : StringDecompressor δ) : Prop where
  tables : StringTablesReady decomp.base
  lookback : ∃ history, decomp.lookbackBuffer.Holds BSM_LENGTH_SHIFT history
  writer : WriterAtByte decomp.writer
  decoder : P decomp.decoder

theorem StrdecompSafe.init {writer : Writer} {decoder : δ} (h : WriterAtByte writer) (hd : P decoder) :
    StrdecompSafe P (strdecompInit writer decoder) := ⟨.init, ⟨[], .init _⟩, h, hd⟩

/-- Every position the decompressor reads or writes, now or after it has
pushed other bytes, is within the allocation. -/
theorem StrdecompSafe.positions (h : StrdecompSafe P decomp) (bytes : List Byte) :
    let rb := bytes.foldl ringBufferPush decomp.lookbackBuffer
    ringBufferGetIndex rb < 2 ^ BSM_LENGTH_SHIFT ∧
      ∀ index, ringBufferPosition rb index < 2 ^ BSM_LENGTH_SHIFT ∧
        ringBufferGet rb index = rb.content (ringBufferPosition rb index) := by
  obtain ⟨history, hholds⟩ := h.lookback
  generalize decomp.lookbackBuffer = rb at hholds
  induction bytes generalizing rb history with
  | nil =>
    refine ⟨?_, fun index => ?_⟩
    · rw [List.foldl_nil, ringBufferGetIndex, hholds.position]
      exact Nat.mod_lt _ (Nat.two_pow_pos _)
    · obtain ⟨heq, hlt⟩ := ringBufferPosition_eq hholds.mask (by decide) index
      rw [hholds.length] at hlt
      exact ⟨hlt, by rw [List.foldl_nil, ringBufferGet, heq]⟩
  | cons b bytes ih => exact ih _ _ (hholds.push b)

theorem StrdecompSafe.emit (h : StrdecompSafe P decomp) (b : Byte) :
    ∃ decomp', strdecompEmit decomp b = some decomp' ∧ StrdecompSafe P decomp' := by
  obtain ⟨history, hholds⟩ := h.lookback
  obtain ⟨writer, hwrite, hat, -⟩ := h.writer.write b
  exact ⟨{ decomp with writer := writer, lookbackBuffer := ringBufferPush decomp.lookbackBuffer b },
    by simp [strdecompEmit, hwrite], h.tables, ⟨_, hholds.push b⟩, hat, h.decoder⟩

/-- Any copy ends, from any start and of any length. -/
theorem StrdecompSafe.materialize (h : StrdecompSafe P decomp) (count : Nat) (index : Int) :
    ∃ decomp', strdecompMaterializeLoop count index decomp = some decomp' ∧ StrdecompSafe P decomp' := by
  induction count generalizing decomp index with
  | zero => exact ⟨decomp, rfl, h⟩
  | succ count ih =>
    obtain ⟨decomp₁, hemit, h₁⟩ := h.emit (ringBufferGet decomp.lookbackBuffer index)
    obtain ⟨decomp', hloop, h'⟩ := ih h₁ (index + 1)
    exact ⟨decomp', by simp [strdecompMaterializeLoop, hemit, hloop], h'⟩

variable [SymbolDecoder δ]

theorem StrdecompSafe.readBackreference (hP : SafeDecoder P) (h : StrdecompSafe P decomp) :
    ∃ decomp', strdecompReadBackreference decomp = some decomp' ∧ StrdecompSafe P decomp' := by
  obtain ⟨offset, offsetTables, decoder₁, hoffset, hoffsets, h₁⟩ :=
    @uintReaderRead_safe _ _ _ (fun table => .string (.offset table)) _ hP rfl rfl h.tables.offset _ h.decoder
  obtain ⟨length, lengthTables, decoder₂, hlength, hlengths, h₂⟩ :=
    @uintReaderRead_safe _ _ _ (fun table => .string (.length table)) _ hP rfl rfl h.tables.length _ h₁
  obtain ⟨decomp', hloop, h'⟩ := @StrdecompSafe.materialize _ P
    { decomp with base := { decomp.base with offsetTables := offsetTables, lengthTables := lengthTables }, decoder := decoder₂ }
    ⟨⟨h.tables.main, hoffsets, hlengths⟩, h.lookback, h.writer, h₂⟩ (length.toNat : Int).toNat
    (let startIndex : Int := ringBufferGetIndex decomp.lookbackBuffer - (offset.toNat + length.toNat)
      if startIndex < 0 then startIndex + ringBufferGetLength decomp.lookbackBuffer else startIndex)
  refine ⟨decomp', ?_, h'⟩
  rw [strdecompReadBackreference, hoffset]
  dsimp only [Option.bind_eq_bind, Option.bind_some]
  rw [hlength]
  exact hloop

/-- **A part of a string is read from any bits**, one symbol at least. -/
theorem StrdecompSafe.read {P' : δ → Prop} (hfirst : SafeRead P P') (hP : SafeDecoder P') (h : StrdecompSafe P decomp) :
    ∃ isMore decomp', strdecompRead decomp = some (isMore, decomp') ∧ StrdecompSafe P' decomp' := by
  obtain ⟨s, decoder, hread, hlt, hd⟩ := hfirst decomp.decoder (.string .main) decomp.base.mainSymbolTable h.decoder
    h.tables.main
  have h₁ : StrdecompSafe P' { decomp with
      base := { decomp.base with mainSymbolTable := ftableIncrement decomp.base.mainSymbolTable s }, decoder := decoder } :=
    ⟨h.tables.increment hlt, h.lookback, h.writer, hd⟩
  simp only [strdecompRead, hread, Option.bind_eq_bind, Option.bind_some]
  split
  · exact ⟨false, _, rfl, h₁⟩
  · split
    · obtain ⟨decomp', hback, h'⟩ := h₁.readBackreference hP
      exact ⟨true, decomp', by rw [hback]; rfl, h'⟩
    · obtain ⟨decomp', hemit, h'⟩ := h₁.emit (UInt8.ofNat s)
      exact ⟨true, decomp', by rw [hemit]; rfl, h'⟩

end Scomp
