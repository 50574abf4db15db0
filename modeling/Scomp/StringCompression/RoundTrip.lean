/-
What the string compressor writes, the string decompressor reads.

Each flush of the compressor is one read of the decompressor that returns
true, and keeps the two in step: the same tables, and the same bytes in the
ring that backreferences point into.
-/
import Scomp.StringCompression.StringCompressor
import Scomp.StringCompression.StringDecompressor

namespace Scomp

/-! ## One flush, one read -/

theorem ofInt_toNat {value : Int} (hnonneg : 0 ≤ value) (hlt : value < 2 ^ 64) :
    ((UInt64.ofInt value).toNat : Int) = value := by
  rw [UInt64.ofInt, UInt64.toNat_ofNat']
  omega

/-- The marker, the distance between the end of the copied bytes and here, and
their number. -/
theorem strcompWriteBackreference_eq (base : StringCompressionBase) (offset length : Int) :
    strcompWriteBackreference base offset length =
      ({ mainSymbolTable := ftableIncrement base.mainSymbolTable STRCOMP_BACKREFERENCE_SYMBOL
         offsetTables := (uintWriterWrite (fun table => .string (.offset table)) base.offsetTables
           (UInt64.ofInt (offset - length))).1
         lengthTables := (uintWriterWrite (fun table => .string (.length table)) base.lengthTables
           (UInt64.ofInt length)).1 },
        { ref := .string .main, table := base.mainSymbolTable, symbol := STRCOMP_BACKREFERENCE_SYMBOL } ::
          ((uintWriterWrite (fun table => .string (.offset table)) base.offsetTables (UInt64.ofInt (offset - length))).2 ++
            (uintWriterWrite (fun table => .string (.length table)) base.lengthTables (UInt64.ofInt length)).2)) := rfl

section Read

variable {δ : Type} [SymbolDecoder δ]

theorem StrSynced.readBackreference {decomp : StringDecompressor δ} {base base' : StringCompressionBase}
    {emitted next : List Byte} {offset : Nat} {coded : List CodedSymbol} {decoder : δ}
    (h : StrSynced decomp base emitted) (hrepeats : Window.Repeats emitted offset next)
    (hle : next.length ≤ offset) (hlt : offset < 65536)
    (hwrite : strcompWriteBackreference base offset next.length = (base', coded))
    (hyields : Yields decomp.decoder coded decoder) :
    ∃ decomp', strdecompRead decomp = some (true, decomp') ∧ StrSynced decomp' base' (emitted ++ next) ∧
      decomp'.writer.bytes = decomp.writer.bytes ++ next ∧ decomp'.decoder = decoder := by
  rw [strcompWriteBackreference_eq] at hwrite
  obtain ⟨rfl, rfl⟩ := Prod.mk.inj hwrite
  obtain ⟨decoder₁, hmarker, hrest⟩ := hyields
  obtain ⟨decoder₂, hoffset, hlength⟩ := hrest.append
  have hoffsetRead := uintReaderRead_yields hoffset
  have hlengthRead := uintReaderRead_yields hlength
  have hdifference := @ofInt_toNat ((offset : Int) - next.length) (by omega) (by omega)
  have hcount := @ofInt_toNat (next.length : Int) (by omega) (by omega)
  generalize UInt64.ofInt ((offset : Int) - next.length) = difference at *
  generalize UInt64.ofInt (next.length : Int) = count at *
  have heof : STRCOMP_BACKREFERENCE_SYMBOL ≠
      ftableGetEofSymbol (ftableIncrement base.mainSymbolTable STRCOMP_BACKREFERENCE_SYMBOL) := by
    rw [ftableGetEofSymbol_increment, ftableGetEofSymbol_of_length h.limit (by decide)]
    decide
  have hcopy : StrSynced { decomp with
      base := { mainSymbolTable := ftableIncrement base.mainSymbolTable STRCOMP_BACKREFERENCE_SYMBOL
                offsetTables := (uintWriterWrite (fun table => .string (.offset table)) base.offsetTables difference).1
                lengthTables := (uintWriterWrite (fun table => .string (.length table)) base.lengthTables count).1 }
      decoder := decoder }
      { mainSymbolTable := ftableIncrement base.mainSymbolTable STRCOMP_BACKREFERENCE_SYMBOL
        offsetTables := (uintWriterWrite (fun table => .string (.offset table)) base.offsetTables difference).1
        lengthTables := (uintWriterWrite (fun table => .string (.length table)) base.lengthTables count).1 }
      (emitted ++ next.take 0) :=
    ⟨rfl, by rw [List.take_zero, List.append_nil]; exact h.lookback, h.writer,
      by rw [ftableIncrement_limit]; exact h.limit⟩
  have hindex : ringBufferGetIndex decomp.lookbackBuffer = emitted.length % 65536 := h.lookback.position
  have hringLength : ringBufferGetLength decomp.lookbackBuffer = 65536 := h.lookback.length
  obtain ⟨decomp', hloop, hsynced, hbytes, hdecoder⟩ := @hcopy.materialize _ _ _ _ next offset 0 count.toNat
    (if (ringBufferGetIndex decomp.lookbackBuffer : Int) - (difference.toNat + count.toNat) < 0 then
      (ringBufferGetIndex decomp.lookbackBuffer : Int) - (difference.toNat + count.toNat) +
        ringBufferGetLength decomp.lookbackBuffer
    else (ringBufferGetIndex decomp.lookbackBuffer : Int) - (difference.toNat + count.toNat)) hrepeats hle hlt
    (by omega) (by rw [hindex, hringLength]; split <;> omega)
  refine ⟨decomp', ?_, hsynced, hbytes, hdecoder⟩
  simp only [strdecompRead, h.tables, hmarker, Option.bind_eq_bind, Option.bind_some, if_neg heof, if_true,
    strdecompReadBackreference, hoffsetRead, hlengthRead, strdecompMaterializeBackreference, Int.toNat_natCast, hloop]
  rfl

/-- The EOF symbol ends the string. -/
theorem StrSynced.readEof {decomp : StringDecompressor δ} {base : StringCompressionBase} {emitted : List Byte}
    {decoder : δ} (h : StrSynced decomp base emitted)
    (hyields : Yields decomp.decoder [(strcompWriteMainSymbol base (ftableGetEofSymbol base.mainSymbolTable)).2] decoder) :
    ∃ decomp', strdecompRead decomp = some (false, decomp') ∧
      StrSynced decomp' (strcompWriteMainSymbol base (ftableGetEofSymbol base.mainSymbolTable)).1 emitted ∧
      decomp'.writer = decomp.writer ∧ decomp'.decoder = decoder := by
  obtain ⟨decoder₁, hread, rfl⟩ := hyields
  simp only [strcompWriteMainSymbol] at hread ⊢
  refine ⟨{ decomp with
      base := { decomp.base with
        mainSymbolTable := ftableIncrement base.mainSymbolTable (ftableGetEofSymbol base.mainSymbolTable) }
      decoder := decoder }, ?_,
    ⟨by rw [h.tables], h.lookback, h.writer, by rw [ftableIncrement_limit]; exact h.limit⟩, rfl, rfl⟩
  simp only [strdecompRead, h.tables, hread, Option.bind_eq_bind, Option.bind_some]
  rw [if_pos (ftableGetEofSymbol_increment _ _).symm]
  rfl

end Read

/-! ## Runs -/

/-- Given these symbols, a decompressor in step emits these bytes, in reads
that return true, and is in step again. -/
def StrDecodes (base base' : StringCompressionBase) (coded : List CodedSymbol) (emitted bytes : List Byte) : Prop :=
  ∀ (δ : Type) [SymbolDecoder δ] (decomp : StringDecompressor δ) (decoder : δ), StrSynced decomp base emitted →
    Yields decomp.decoder coded decoder →
    ∃ decomp', StrdecompReads decomp decomp' ∧ StrSynced decomp' base' (emitted ++ bytes) ∧
      decomp'.writer.bytes = decomp.writer.bytes ++ bytes ∧ decomp'.decoder = decoder

theorem StrDecodes.nil (base : StringCompressionBase) (emitted : List Byte) : StrDecodes base base [] emitted [] := by
  intro δ _ decomp decoder h hyields
  refine ⟨decomp, .refl, ?_, (List.append_nil _).symm, hyields.symm⟩
  rw [List.append_nil]
  exact h

theorem StrDecodes.append {base base₁ base₂ : StringCompressionBase} {coded coded' : List CodedSymbol}
    {emitted bytes bytes' : List Byte} (h : StrDecodes base base₁ coded emitted bytes)
    (h' : StrDecodes base₁ base₂ coded' (emitted ++ bytes) bytes') :
    StrDecodes base base₂ (coded ++ coded') emitted (bytes ++ bytes') := by
  intro δ _ decomp decoder hsynced hyields
  obtain ⟨decoder₁, hfirst, hsecond⟩ := hyields.append
  obtain ⟨decomp₁, hreads, hsynced₁, hbytes, rfl⟩ := h δ decomp decoder₁ hsynced hfirst
  obtain ⟨decomp₂, hreads', hsynced₂, hbytes', hdecoder⟩ := h' δ decomp₁ decoder hsynced₁ hsecond
  rw [List.append_assoc] at hsynced₂
  exact ⟨decomp₂, hreads.trans hreads', hsynced₂, by rw [hbytes', hbytes, List.append_assoc], hdecoder⟩

/-- A part of a compressor's run that writes these symbols for these bytes. -/
structure StrcompEmits (compressor compressor' : StringCompressor) (coded : List CodedSymbol)
    (emitted bytes pending : List Byte) : Prop where
  holds : StrcompHolds compressor' (emitted ++ bytes) pending
  ready : StringTablesReady compressor.base → StringTablesReady compressor'.base ∧ AllCodable coded
  decodes : StrDecodes compressor.base compressor'.base coded emitted bytes

theorem StrcompEmits.nil {compressor : StringCompressor} {emitted pending : List Byte}
    (h : StrcompHolds compressor emitted pending) : StrcompEmits compressor compressor [] emitted [] pending :=
  ⟨by rw [List.append_nil]; exact h, fun hready => ⟨hready, fun c hc => by cases hc⟩, .nil _ _⟩

theorem AllCodable.append {first second : List CodedSymbol} (h : AllCodable first) (h' : AllCodable second) :
    AllCodable (first ++ second) := fun c hc => (List.mem_append.mp hc).elim (h c) (h' c)

theorem StrcompEmits.append {compressor compressor₁ compressor₂ : StringCompressor} {coded coded' : List CodedSymbol}
    {emitted bytes bytes' pending pending' : List Byte}
    (h : StrcompEmits compressor compressor₁ coded emitted bytes pending)
    (h' : StrcompEmits compressor₁ compressor₂ coded' (emitted ++ bytes) bytes' pending') :
    StrcompEmits compressor compressor₂ (coded ++ coded') emitted (bytes ++ bytes') pending' := by
  refine ⟨by rw [← List.append_assoc]; exact h'.holds, fun hready => ?_, h.decodes.append h'.decodes⟩
  obtain ⟨hready₁, hall⟩ := h.ready hready
  obtain ⟨hready₂, hall'⟩ := h'.ready hready₁
  exact ⟨hready₂, hall.append hall'⟩

/-- Offsets and lengths of matches fit the tables. -/
theorem strcompWriteBackreference_ready {base : StringCompressionBase} {offset n : Nat} (h : StringTablesReady base)
    (hle : n ≤ offset) (hoffset : offset < 65536) (hn : n < 4096) :
    StringTablesReady (strcompWriteBackreference base offset n).1 ∧
      AllCodable (strcompWriteBackreference base offset n).2 := by
  have hdifference := @ofInt_toNat ((offset : Int) - n) (by omega) (by omega)
  have hcount := @ofInt_toNat (n : Int) (by omega) (by omega)
  have hfitsOffset := (uintLengthSymbol_le_iff (UInt64.ofInt ((offset : Int) - n)) 4).mpr (by omega)
  have hfitsLength := (uintLengthSymbol_le_iff (UInt64.ofInt (n : Int)) 3).mpr (by omega)
  rw [strcompWriteBackreference_eq]
  obtain ⟨hreadyOffset, hallOffset⟩ := @uintWriterWrite_ready (fun table => .string (.offset table)) _ _ _ h.offset
    (Nat.lt_succ_of_le hfitsOffset)
  obtain ⟨hreadyLength, hallLength⟩ := @uintWriterWrite_ready (fun table => .string (.length table)) _ _ _ h.length
    (Nat.lt_succ_of_le hfitsLength)
  have hmarker : STRCOMP_BACKREFERENCE_SYMBOL < 258 := by decide
  refine ⟨⟨h.main.increment hmarker, hreadyOffset, hreadyLength⟩, fun c hc => ?_⟩
  obtain rfl | hc := List.mem_cons.mp hc
  · exact h.main.codable hmarker
  · exact hallOffset.append hallLength c hc

theorem strcompWriteMainSymbol_ready {base : StringCompressionBase} {symbol : Symbol} (h : StringTablesReady base)
    (hs : symbol < 258) :
    StringTablesReady (strcompWriteMainSymbol base symbol).1 ∧ AllCodable [(strcompWriteMainSymbol base symbol).2] := by
  refine ⟨h.increment hs, fun c hc => ?_⟩
  obtain rfl := List.mem_singleton.mp hc
  exact h.main.codable hs

theorem strcompCompressorFlushOnce_emits {compressor : StringCompressor} {emitted pending : List Byte}
    (h : StrcompHolds compressor emitted pending) (hne : pending ≠ []) :
    ∃ compressor' coded n, strcompCompressorFlushOnce compressor = some (compressor', coded) ∧
      0 < n ∧ n ≤ pending.length ∧
      StrcompEmits compressor compressor' coded emitted (pending.take n) (pending.drop n) := by
  obtain ⟨compressor', coded, n, hflush, hpos, hle, hholds, hcases⟩ := strcompCompressorFlushOnce_cases h hne
  have hroom : pending.length < 4096 := h.room
  have hlength : (pending.take n).length = n := by rw [List.length_take]; omega
  refine ⟨compressor', coded, n, hflush, hpos, hle, hholds, ?_, ?_⟩
  · intro hready
    obtain ⟨offset, hoffset, hlt, -, hwrite⟩ | ⟨b, literal, -, -, rfl, hwrite⟩ := hcases
    · have hwritten := strcompWriteBackreference_ready hready hoffset hlt (by omega)
      rw [hwrite] at hwritten
      exact hwritten
    · have hb := b.toNat_lt
      have hwritten := @strcompWriteMainSymbol_ready _ b.toNat hready (Nat.lt_trans hb (by decide))
      rw [hwrite] at hwritten
      exact hwritten
  · intro δ _ decomp decoder hsynced hyields
    obtain ⟨offset, hoffset, hlt, hrepeats, hwrite⟩ | ⟨b, literal, rfl, htake, rfl, hwrite⟩ := hcases
    · rw [← hlength] at hoffset hwrite
      obtain ⟨decomp', hread, hrest⟩ := hsynced.readBackreference hrepeats hoffset hlt hwrite hyields
      exact ⟨decomp', .single hread, hrest⟩
    · obtain ⟨hbase, rfl⟩ := Prod.mk.inj hwrite
      obtain ⟨decoder₁, hread, rfl⟩ := hyields
      obtain ⟨decomp', hread', hrest⟩ := hsynced.readByte hread
      rw [htake, ← hbase]
      exact ⟨decomp', .single hread', hrest⟩

theorem strcompFlushLoop_emits {turns : Nat} {compressor : StringCompressor} {emitted pending : List Byte}
    (h : StrcompHolds compressor emitted pending) (hturns : pending.length < turns) :
    ∃ compressor' coded, strcompFlushLoop turns compressor = some (compressor', coded) ∧
      StrcompEmits compressor compressor' coded emitted pending [] := by
  induction turns generalizing compressor emitted pending with
  | zero => omega
  | succ turns ih =>
    have hbytes := h.bytes
    rw [strcompFlushLoop]
    by_cases hne : pending = []
    · rw [if_neg (by rw [hbytes, hne]; decide)]
      subst hne
      exact ⟨compressor, [], rfl, .nil h⟩
    · have hpos := List.length_pos_iff.mpr hne
      obtain ⟨compressor₁, first, n, hflush, hn, hle, hemits⟩ := strcompCompressorFlushOnce_emits h hne
      obtain ⟨compressor₂, rest, hloop, hemits'⟩ := ih hemits.holds (by rw [List.length_drop]; omega)
      have hall := hemits.append hemits'
      rw [List.take_append_drop] at hall
      refine ⟨compressor₂, first ++ rest, ?_, hall⟩
      rw [if_pos (by omega), hflush]
      simp only [Option.bind_eq_bind, Option.bind_some, hloop]
      rfl

/-- **A flush** empties the buffer and ends the string. -/
theorem strcompFlush_emits {compressor : StringCompressor} {emitted pending : List Byte}
    (h : StrcompHolds compressor emitted pending) :
    ∃ compressor₁ coded, StrcompEmits compressor compressor₁ coded emitted pending [] ∧
      strcompFlush compressor =
        some ({ compressor₁ with base := (strcompWriteMainSymbol compressor₁.base
            (ftableGetEofSymbol compressor₁.base.mainSymbolTable)).1 },
          coded ++ [(strcompWriteMainSymbol compressor₁.base
            (ftableGetEofSymbol compressor₁.base.mainSymbolTable)).2]) := by
  have hbytes := h.bytes
  obtain ⟨compressor₁, coded, hloop, hemits⟩ := @strcompFlushLoop_emits (compressor.bytesInBuffer.toNat + 1) _ _ _ h
    (by omega)
  refine ⟨compressor₁, coded, hemits, ?_⟩
  rw [strcompFlush, hloop]
  rfl

/-- **A write** leaves room for the next one. -/
theorem strcompWrite_emits {compressor : StringCompressor} {emitted pending : List Byte}
    (h : StrcompHolds compressor emitted pending) (hroom : pending.length + 1 < BSM_MATCH_LENGTH_LIMIT) (b : Byte) :
    ∃ compressor' coded bytes pending', strcompWrite compressor b = some (compressor', coded) ∧
      bytes ++ pending' = pending ++ [b] ∧ pending'.length + 1 < BSM_MATCH_LENGTH_LIMIT ∧
      StrcompEmits compressor compressor' coded emitted bytes pending' := by
  have hbytes := h.bytes
  have hpushed : StrcompHolds { compressor with
      inputBuffer := ringBufferPush compressor.inputBuffer b, bytesInBuffer := compressor.bytesInBuffer + 1 }
      emitted (pending ++ [b]) := by
    refine ⟨?_, ?_, ?_, h.bsm⟩
    · rw [← List.append_assoc]
      exact h.input.push b
    · rw [List.length_append, List.length_singleton]
      dsimp only
      omega
    · rw [List.length_append]
      exact hroom
  rw [strcompWrite]
  dsimp only
  split
  · obtain ⟨compressor', coded, n, hflush, hn, hle, hemits⟩ := strcompCompressorFlushOnce_emits hpushed (by simp)
    refine ⟨compressor', coded, _, _, hflush, List.take_append_drop n _, ?_, hemits.holds, hemits.ready, hemits.decodes⟩
    rw [List.length_append, List.length_singleton] at hle
    rw [List.length_drop, List.length_append, List.length_singleton]
    omega
  · next hnotFull =>
    refine ⟨_, [], [], pending ++ [b], rfl, List.nil_append _, ?_, ?_⟩
    · rw [show BSM_MATCH_LENGTH_LIMIT = 4096 from rfl] at hroom hnotFull ⊢
      rw [List.length_append, List.length_singleton]
      omega
    · obtain ⟨hholds, hready, hdecodes⟩ := StrcompEmits.nil hpushed
      exact ⟨hholds, hready, hdecodes⟩

/-! ## Strings -/

/-- One string after another, each terminated by a flush. -/
def strcompCompressStrings (compressor : StringCompressor) :
    List (List Byte) → Option (StringCompressor × List CodedSymbol)
  | [] => some (compressor, [])
  | string :: strings => do
    let (compressor, body) ← strcompWriteAll compressor string
    let (compressor, tail) ← strcompFlush compressor
    let (compressor, rest) ← strcompCompressStrings compressor strings
    return (compressor, body ++ tail ++ rest)

/-- The decompressor returns true until it has written exactly the first
string, then false, then the same with the second one, and so on. -/
def ReadsStrings {δ : Type} [SymbolDecoder δ] (decomp : StringDecompressor δ) :
    List (List Byte) → StringDecompressor δ → Prop
  | [], decomp' => decomp' = decomp
  | string :: strings, decomp' => ∃ decomp₁ decomp₂, StrdecompReads decomp decomp₁ ∧
      decomp₁.writer.bytes = decomp.writer.bytes ++ string ∧ strdecompRead decomp₁ = some (false, decomp₂) ∧
      decomp₂.writer.bytes = decomp₁.writer.bytes ∧ ReadsStrings decomp₂ strings decomp'

theorem strcompWriteAll_emits {compressor : StringCompressor} {emitted pending : List Byte}
    (h : StrcompHolds compressor emitted pending) (hroom : pending.length + 1 < BSM_MATCH_LENGTH_LIMIT)
    (string : List Byte) :
    ∃ compressor' coded bytes pending', strcompWriteAll compressor string = some (compressor', coded) ∧
      bytes ++ pending' = pending ++ string ∧ pending'.length + 1 < BSM_MATCH_LENGTH_LIMIT ∧
      StrcompEmits compressor compressor' coded emitted bytes pending' := by
  induction string generalizing compressor emitted pending with
  | nil => exact ⟨compressor, [], [], pending, rfl, by rw [List.append_nil]; rfl, hroom, .nil h⟩
  | cons b string ih =>
    obtain ⟨compressor₁, first, bytes₁, pending₁, hwrite, hsplit₁, hroom₁, hemits₁⟩ := strcompWrite_emits h hroom b
    obtain ⟨compressor₂, rest, bytes₂, pending₂, hall, hsplit₂, hroom₂, hemits₂⟩ := ih hemits₁.holds hroom₁
    refine ⟨compressor₂, first ++ rest, bytes₁ ++ bytes₂, pending₂, ?_, ?_, hroom₂, hemits₁.append hemits₂⟩
    · simp only [strcompWriteAll, hwrite, hall, Option.bind_eq_bind, Option.bind_some]
      rfl
    · rw [List.append_assoc, hsplit₂, ← List.append_assoc, hsplit₁, List.append_assoc]
      rfl

/-- A compressor between two strings keeps nothing, and the next string finds
the decompressor in step. -/
theorem strcompCompressStrings_reads {compressor : StringCompressor} {emitted : List Byte} {strings : List (List Byte)}
    (h : StrcompHolds compressor emitted []) (hready : StringTablesReady compressor.base) :
    ∃ compressor' coded emitted', strcompCompressStrings compressor strings = some (compressor', coded) ∧
      StrcompHolds compressor' emitted' [] ∧ StringTablesReady compressor'.base ∧ AllCodable coded ∧
      ∀ (δ : Type) [SymbolDecoder δ] (decomp : StringDecompressor δ) (decoder : δ),
        StrSynced decomp compressor.base emitted → Yields decomp.decoder coded decoder →
        ∃ decomp', ReadsStrings decomp strings decomp' ∧ StrSynced decomp' compressor'.base emitted' ∧
          decomp'.decoder = decoder := by
  induction strings generalizing compressor emitted with
  | nil =>
    exact ⟨compressor, [], emitted, rfl, h, hready, fun c hc => (by cases hc), fun δ _ decomp decoder hsynced hyields =>
      ⟨decomp, rfl, hsynced, hyields.symm⟩⟩
  | cons string strings ih =>
    obtain ⟨compressor₁, body, bytes, pending, hwrite, hsplit, -, hemits⟩ := strcompWriteAll_emits h (by decide) string
    obtain ⟨compressor₂, flushed, hemits', hflush⟩ := strcompFlush_emits hemits.holds
    obtain ⟨hholds, hready', hdecodes⟩ := hemits.append hemits'
    obtain ⟨hready₂, hall⟩ := hready' hready
    rw [hsplit, List.nil_append] at hholds hdecodes
    have heofLt : ftableGetEofSymbol compressor₂.base.mainSymbolTable < 258 := by
      rw [ftableGetEofSymbol_of_length hready₂.main.limit_eq (by decide)]
      decide
    obtain ⟨hready₃, heof⟩ := strcompWriteMainSymbol_ready hready₂ heofLt
    obtain ⟨compressor₄, rest, emitted₄, hrest, hholds₄, hready₄, hall₄, hreads₄⟩ := @ih { compressor₂ with
      base := (strcompWriteMainSymbol compressor₂.base (ftableGetEofSymbol compressor₂.base.mainSymbolTable)).1 }
      _ ⟨hholds.input, hholds.bytes, hholds.room, hholds.bsm⟩ hready₃
    refine ⟨compressor₄, _, emitted₄, ?_, hholds₄, hready₄, (hall.append heof).append hall₄, ?_⟩
    · simp only [strcompCompressStrings, hwrite, hflush, hrest, Option.bind_eq_bind, Option.bind_some]
      rw [← List.append_assoc body]
      rfl
    · intro δ _ decomp decoder hsynced hyields
      obtain ⟨decoder₃, hfirst, hlater⟩ := hyields.append
      obtain ⟨decoder₂, hbody, htail⟩ := hfirst.append
      obtain ⟨decomp₁, hreads₁, hsynced₁, hbytes₁, rfl⟩ := hdecodes δ decomp decoder₂ hsynced hbody
      obtain ⟨decomp₂, hread₂, hsynced₂, hwriter₂, rfl⟩ := hsynced₁.readEof htail
      obtain ⟨decomp₄, hreads, hsynced₄, hdecoder⟩ := hreads₄ δ decomp₂ decoder hsynced₂ hlater
      exact ⟨decomp₄, ⟨decomp₁, decomp₂, hreads₁, hbytes₁, hread₂, by rw [hwriter₂], hreads⟩, hsynced₄, hdecoder⟩

/-- **String compression is lossless across strings.** After any strings and
any part of the next one: the assertions hold, the ring has every byte not
yet emitted, each symbol written is one of its table, and a fresh
decompressor reads back the strings one by one and what was emitted of the
last one. -/
theorem string_compression_lossless (strings : List (List Byte)) (part : List Byte) :
    ∃ compressor₁ coded₁ compressor₂ coded₂ emitted pending,
      strcompCompressStrings strcompInit strings = some (compressor₁, coded₁) ∧
      strcompWriteAll compressor₁ part = some (compressor₂, coded₂) ∧
      (∀ c ∈ coded₁ ++ coded₂, c.Contained) ∧
      compressor₁.bytesInBuffer = 0 ∧ emitted ++ pending = part ∧ compressor₂.bytesInBuffer = pending.length ∧
      compressor₂.bytesInBuffer < BSM_MATCH_LENGTH_LIMIT - 1 ∧
      (∀ i, (hi : i < pending.length) → ringBufferGet compressor₂.inputBuffer
        (ringBufferGetIndex compressor₂.inputBuffer - compressor₂.bytesInBuffer + i) = pending[i]) ∧
      ∀ (δ : Type) [SymbolDecoder δ] (staleBytes : List Byte) (decoder decoder' : δ), 0 < staleBytes.length →
        Yields decoder (coded₁ ++ coded₂) decoder' →
        ∃ decomp₁ decomp₂, ReadsStrings (strdecompInit (writerInit staleBytes) decoder) strings decomp₁ ∧
          StrdecompReads decomp₁ decomp₂ ∧ decomp₂.writer.bytes = decomp₁.writer.bytes ++ emitted ∧
          decomp₂.decoder = decoder' := by
  obtain ⟨compressor₁, coded₁, emitted₁, hstrings, hholds₁, hready₁, hall₁, hreads₁⟩ :=
    @strcompCompressStrings_reads strcompInit [] strings .init .init
  obtain ⟨compressor₂, coded₂, emitted, pending, hpart, hsplit, hroom, hemits⟩ :=
    strcompWriteAll_emits hholds₁ (by decide) part
  have hbytes := hemits.holds.bytes
  have hindex : ringBufferGetIndex compressor₂.inputBuffer = (emitted₁ ++ emitted ++ pending).length % 4096 :=
    hemits.holds.input.position
  rw [List.length_append] at hindex
  rw [show BSM_MATCH_LENGTH_LIMIT = 4096 from rfl] at hroom ⊢
  refine ⟨compressor₁, coded₁, compressor₂, coded₂, emitted, pending, hstrings, hpart, fun c hc => ?_,
    hholds₁.bytes, hsplit, hbytes, by omega, fun i hi => ?_, ?_⟩
  · exact (hall₁.append (hemits.ready hready₁).2 c hc).lt
  · rw [hemits.holds.get hi (by omega), List.getD_eq_getElem?_getD, List.getElem?_eq_getElem hi, Option.getD_some]
  · intro δ _ staleBytes decoder decoder' hsize hyields
    obtain ⟨decoder₁, hfirst, hsecond⟩ := hyields.append
    obtain ⟨decomp₁, hreads, hsynced, rfl⟩ := hreads₁ δ (strdecompInit (writerInit staleBytes) decoder) decoder₁
      (.init (.init hsize) decoder) hfirst
    obtain ⟨decomp₂, hreads₂, -, hbytes₂, hdecoder⟩ := hemits.decodes δ decomp₁ decoder' hsynced hsecond
    exact ⟨decomp₁, decomp₂, hreads, hreads₂, hbytes₂, hdecoder⟩

/-- `abcdeabcde`, whose second half is a backreference, and `a`. -/
def repeatingStrings : List (List Byte) := [[0x61, 0x62, 0x63, 0x64, 0x65, 0x61, 0x62, 0x63, 0x64, 0x65], [0x61]]

/-- And the start of `b`, through a channel that is empty afterwards. -/
theorem string_compression_lossless_two :
    ∃ compressor₁ coded₁ compressor₂ coded₂ emitted pending decomp₁ decomp₂,
      strcompCompressStrings strcompInit repeatingStrings = some (compressor₁, coded₁) ∧
      STRCOMP_BACKREFERENCE_SYMBOL ∈ coded₁.map CodedSymbol.symbol ∧
      strcompWriteAll compressor₁ [0x62] = some (compressor₂, coded₂) ∧
      (∀ c ∈ coded₁ ++ coded₂, c.Contained) ∧
      compressor₁.bytesInBuffer = 0 ∧ emitted ++ pending = [0x62] ∧ compressor₂.bytesInBuffer = pending.length ∧
      (∀ i, (hi : i < pending.length) → ringBufferGet compressor₂.inputBuffer
        (ringBufferGetIndex compressor₂.inputBuffer - compressor₂.bytesInBuffer + i) = pending[i]) ∧
      ReadsStrings (strdecompInit (writerInit [0xaa]) (⟨(coded₁ ++ coded₂).map CodedSymbol.symbol, []⟩ : Channel))
        repeatingStrings decomp₁ ∧
      StrdecompReads decomp₁ decomp₂ ∧ decomp₂.writer.bytes = decomp₁.writer.bytes ++ emitted ∧
      decomp₂.decoder.pending = [] := by
  obtain ⟨compressor₁, coded₁, compressor₂, coded₂, emitted, pending, hstrings, hpart, hcontained, hnone, hsplit, hbytes, -,
    hring, hreads⟩ := string_compression_lossless repeatingStrings [0x62]
  have hsymbols : ((strcompCompressStrings strcompInit repeatingStrings).map fun run =>
      decide (STRCOMP_BACKREFERENCE_SYMBOL ∈ run.2.map CodedSymbol.symbol)) = some true := by decide +kernel
  rw [hstrings, Option.map_some, Option.some_inj, decide_eq_true_eq] at hsymbols
  have hyields := Channel.yields (coded₁ ++ coded₂) [] []
  rw [List.append_nil] at hyields
  obtain ⟨decomp₁, decomp₂, hstrings', hpart', hwritten, hdecoder⟩ := hreads Channel [0xaa] _ _ (by decide) hyields
  exact ⟨compressor₁, coded₁, compressor₂, coded₂, emitted, pending, decomp₁, decomp₂, hstrings, hsymbols, hpart, hcontained,
    hnone, hsplit, hbytes, hring, hstrings', hpart', hwritten, by rw [hdecoder]⟩

end Scomp
