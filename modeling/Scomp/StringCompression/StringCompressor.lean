/-
The string compressor (`string_compressor.c`).

Bytes wait in a ring until it is full or the string ends; what leaves it is
a byte as it is, or a reference back to bytes that left it before.
-/
import Scomp.StringCompression.Base

namespace Scomp

structure StringCompressor where
  inputBuffer : RingBuffer
  base : StringCompressionBase
  bytesInBuffer : Int
  bsm : ByteStreamMatcher

def strcompInit : StringCompressor :=
  { inputBuffer := ringBufferInit BSM_MATCH_LENGTH_SHIFT, base := strcompInitBase, bytesInBuffer := 0, bsm := bsmInit }

/-- A symbol written with the main table, which counts it. -/
def strcompWriteMainSymbol (base : StringCompressionBase) (symbol : Symbol) : StringCompressionBase × CodedSymbol :=
  ({ base with mainSymbolTable := ftableIncrement base.mainSymbolTable symbol },
    { ref := .string .main, table := base.mainSymbolTable, symbol := symbol })

def strcompWriteBackreference (base : StringCompressionBase) (offset length : Int) :
    StringCompressionBase × List CodedSymbol :=
  let (base, marker) := strcompWriteMainSymbol base STRCOMP_BACKREFERENCE_SYMBOL
  let (offsetTables, offsetCoded) :=
    uintWriterWrite (fun table => .string (.offset table)) base.offsetTables (UInt64.ofInt (offset - length))
  let (lengthTables, lengthCoded) :=
    uintWriterWrite (fun table => .string (.length table)) base.lengthTables (UInt64.ofInt length)
  ({ base with offsetTables := offsetTables, lengthTables := lengthTables }, marker :: (offsetCoded ++ lengthCoded))

/-- The loop that gives the matcher the bytes of a backreference. -/
def strcompPushBytes (inputBuffer : RingBuffer) : Nat → Int → ByteStreamMatcher → ByteStreamMatcher
  | 0, _, bsm => bsm
  | count + 1, i, bsm => strcompPushBytes inputBuffer count (i + 1) (bsmPush bsm (ringBufferGet inputBuffer i))

/-- `none`: `bytes_in_buffer >= 0` does not hold. -/
def strcompCompressorFlushOnce (compressor : StringCompressor) : Option (StringCompressor × List CodedSymbol) :=
  let bufferStart : Int := ringBufferGetIndex compressor.inputBuffer - compressor.bytesInBuffer
  let bufferStart := if bufferStart < 0 then bufferStart + BSM_MATCH_LENGTH_LIMIT else bufferStart
  -- no match is looked for when there are too few bytes for a hash
  let found :=
    if compressor.bytesInBuffer < BSM_HASH_LENGTH_BYTES then BSM_MATCH_EMPTY
    else bsmFindMatch compressor.bsm compressor.inputBuffer bufferStart
  if found.length ≥ STRCOMP_MIN_BACKREFERENCE_LENGTH then
    let (base, coded) := strcompWriteBackreference compressor.base found.offset found.length
    let bytesInBuffer := compressor.bytesInBuffer - found.length
    if bytesInBuffer ≥ 0 then
      some ({ compressor with
        base := base
        bsm := strcompPushBytes compressor.inputBuffer found.length.toNat bufferStart compressor.bsm
        bytesInBuffer := bytesInBuffer }, coded)
    else none
  else
    let firstByte := ringBufferGet compressor.inputBuffer bufferStart
    let (base, coded) := strcompWriteMainSymbol compressor.base firstByte.toNat
    let bytesInBuffer := compressor.bytesInBuffer - 1
    if bytesInBuffer ≥ 0 then
      some ({ compressor with base := base, bsm := bsmPush compressor.bsm firstByte, bytesInBuffer := bytesInBuffer },
        [coded])
    else none

def strcompWrite (compressor : StringCompressor) (b : Byte) : Option (StringCompressor × List CodedSymbol) :=
  let compressor : StringCompressor := { compressor with
    inputBuffer := ringBufferPush compressor.inputBuffer b
    bytesInBuffer := compressor.bytesInBuffer + 1 }
  if compressor.bytesInBuffer = BSM_MATCH_LENGTH_LIMIT - 1 then strcompCompressorFlushOnce compressor
  else some (compressor, [])

/-- Bytes one after another. -/
def strcompWriteAll (compressor : StringCompressor) : List Byte → Option (StringCompressor × List CodedSymbol)
  | [] => some (compressor, [])
  | b :: bytes => do
    let (compressor, first) ← strcompWrite compressor b
    let (compressor, rest) ← strcompWriteAll compressor bytes
    return (compressor, first ++ rest)

/-- The loop that empties the buffer; each turn takes at least one byte out. -/
def strcompFlushLoop : Nat → StringCompressor → Option (StringCompressor × List CodedSymbol)
  | 0, _ => none
  | turns + 1, compressor =>
    if compressor.bytesInBuffer > 0 then do
      let (compressor, first) ← strcompCompressorFlushOnce compressor
      let (compressor, rest) ← strcompFlushLoop turns compressor
      return (compressor, first ++ rest)
    else some (compressor, [])

def strcompFlush (compressor : StringCompressor) : Option (StringCompressor × List CodedSymbol) := do
  let (compressor, coded) ← strcompFlushLoop (compressor.bytesInBuffer.toNat + 1) compressor
  let (base, eof) := strcompWriteMainSymbol compressor.base (ftableGetEofSymbol compressor.base.mainSymbolTable)
  return ({ compressor with base := base }, coded ++ [eof])

/-! ## What a compressor holds -/

/-- A compressor that has emitted these bytes, in this and in earlier
strings, and keeps those that are pending. -/
structure StrcompHolds (compressor : StringCompressor) (emitted pending : List Byte) : Prop where
  input : compressor.inputBuffer.Holds BSM_MATCH_LENGTH_SHIFT (emitted ++ pending)
  bytes : compressor.bytesInBuffer = pending.length
  room : pending.length < BSM_MATCH_LENGTH_LIMIT
  bsm : BsmHolds compressor.bsm emitted

theorem StrcompHolds.init : StrcompHolds strcompInit [] [] := ⟨.init _, rfl, by decide, .init⟩

/-- The ring still has every pending byte. -/
theorem StrcompHolds.get {compressor : StringCompressor} {emitted pending : List Byte}
    (h : StrcompHolds compressor emitted pending) {i : Nat} (hi : i < pending.length) {index : Int}
    (hindex : index % 4096 = (emitted.length + i : Nat) % 4096) :
    ringBufferGet compressor.inputBuffer index = pending.getD i default := by
  have hroom : pending.length < 4096 := h.room
  rw [@RingBuffer.Holds.get _ _ _ h.input index (emitted.length + i) hindex
    (by rw [List.length_append]; show _ - (4096 : Int) ≤ _; omega) (by rw [List.length_append]; omega),
    Window.entry_append_right]

theorem strcompPushBytes_holds {compressor : StringCompressor} {emitted pending : List Byte}
    (h : StrcompHolds compressor emitted pending) {count : Nat} {bsm : ByteStreamMatcher} {i : Nat} {index : Int}
    (hcount : i + count ≤ pending.length) (hindex : index % 4096 = (emitted.length + i : Nat) % 4096)
    (hbsm : BsmHolds bsm (emitted ++ pending.take i)) :
    BsmHolds (strcompPushBytes compressor.inputBuffer count index bsm) (emitted ++ pending.take (i + count)) := by
  induction count generalizing i index bsm with
  | zero => exact hbsm
  | succ count ih =>
    have hi : i < pending.length := by omega
    have hpush := hbsm.push (ringBufferGet compressor.inputBuffer index)
    rw [h.get hi hindex, List.append_assoc, List.getD_eq_getElem?_getD, List.getElem?_eq_getElem hi, Option.getD_some,
      List.take_append_getElem hi] at hpush
    rw [strcompPushBytes, h.get hi hindex, List.getD_eq_getElem?_getD, List.getElem?_eq_getElem hi, Option.getD_some,
      show i + (count + 1) = i + 1 + count by omega]
    exact ih (by omega) (by omega) hpush

/-- The pending bytes start here. -/
theorem StrcompHolds.bufferStart {compressor : StringCompressor} {emitted pending : List Byte}
    (h : StrcompHolds compressor emitted pending) :
    (if (ringBufferGetIndex compressor.inputBuffer : Int) - compressor.bytesInBuffer < 0 then
      (ringBufferGetIndex compressor.inputBuffer : Int) - compressor.bytesInBuffer + BSM_MATCH_LENGTH_LIMIT
    else (ringBufferGetIndex compressor.inputBuffer : Int) - compressor.bytesInBuffer) =
      (emitted.length % BSM_MATCH_LENGTH_LIMIT : Nat) := by
  have hindex : ringBufferGetIndex compressor.inputBuffer = (emitted ++ pending).length % 4096 := h.input.position
  have hroom : pending.length < 4096 := h.room
  rw [List.length_append] at hindex
  rw [hindex, h.bytes, show BSM_MATCH_LENGTH_LIMIT = 4096 from rfl]
  split <;> omega

/-- The first pending bytes leave the buffer. -/
theorem StrcompHolds.emit {compressor : StringCompressor} {emitted pending : List Byte}
    (h : StrcompHolds compressor emitted pending) {n : Nat} (hn : n ≤ pending.length) (base : StringCompressionBase)
    {bsm : ByteStreamMatcher} {bytesInBuffer : Int} (hbytes : bytesInBuffer = pending.length - n)
    (hbsm : BsmHolds bsm (emitted ++ pending.take n)) :
    StrcompHolds { compressor with base := base, bsm := bsm, bytesInBuffer := bytesInBuffer } (emitted ++ pending.take n)
      (pending.drop n) := by
  refine ⟨?_, ?_, ?_, hbsm⟩
  · rw [List.append_assoc, List.take_append_drop]
    exact h.input
  · rw [List.length_drop]
    dsimp only
    omega
  · rw [List.length_drop]
    exact Nat.lt_of_le_of_lt (Nat.sub_le _ _) h.room

/-- **What one flush can do**: a backreference that fits, or the first
pending byte. The assertions hold. -/
theorem strcompCompressorFlushOnce_cases {compressor : StringCompressor} {emitted pending : List Byte}
    (h : StrcompHolds compressor emitted pending) (hne : pending ≠ []) :
    ∃ compressor' coded n, strcompCompressorFlushOnce compressor = some (compressor', coded) ∧
      0 < n ∧ n ≤ pending.length ∧ StrcompHolds compressor' (emitted ++ pending.take n) (pending.drop n) ∧
      ((∃ offset : Nat, n ≤ offset ∧ offset < 65536 ∧ Window.Repeats emitted offset (pending.take n) ∧
          strcompWriteBackreference compressor.base offset n = (compressor'.base, coded)) ∨
        (∃ b literal, n = 1 ∧ pending.take 1 = [b] ∧ coded = [literal] ∧
          strcompWriteMainSymbol compressor.base b.toNat = (compressor'.base, literal))) := by
  have hpos := List.length_pos_iff.mpr hne
  have hroom : pending.length < 4096 := h.room
  have hfits : (if compressor.bytesInBuffer < BSM_HASH_LENGTH_BYTES then BSM_MATCH_EMPTY
      else bsmFindMatch compressor.bsm compressor.inputBuffer (emitted.length % BSM_MATCH_LENGTH_LIMIT : Nat)).Fits
        emitted pending := by
    split
    · exact .empty emitted pending
    · exact bsmFindMatch_fits h.bsm h.input h.room rfl
  rw [strcompCompressorFlushOnce, h.bufferStart]
  dsimp only
  generalize (if compressor.bytesInBuffer < BSM_HASH_LENGTH_BYTES then BSM_MATCH_EMPTY
    else bsmFindMatch compressor.bsm compressor.inputBuffer (emitted.length % BSM_MATCH_LENGTH_LIMIT : Nat)) = found
    at hfits ⊢
  by_cases hlong : found.length ≥ STRCOMP_MIN_BACKREFERENCE_LENGTH
  · have hfive : found.length ≥ 5 := hlong
    have hnonneg := hfits.nonneg
    have hle := hfits.le_pending
    have hoffset := hfits.le_offset
    have hoffsetLt : found.offset < 65536 := hfits.offset_lt
    have hbytes := h.bytes
    rw [if_pos hlong, if_pos (by omega)]
    have hpush := @strcompPushBytes_holds _ _ _ h found.length.toNat compressor.bsm 0
      (emitted.length % BSM_MATCH_LENGTH_LIMIT : Nat) (by omega)
      (by rw [show BSM_MATCH_LENGTH_LIMIT = 4096 from rfl]; omega)
      (by rw [List.take_zero, List.append_nil]; exact h.bsm)
    rw [Nat.zero_add] at hpush
    refine ⟨_, _, found.length.toNat, rfl, by omega, by omega, h.emit (by omega) _ (by omega) hpush,
      Or.inl ⟨found.offset.toNat, by omega, by omega, hfits.repeats, ?_⟩⟩
    rw [Int.toNat_of_nonneg hnonneg, Int.toNat_of_nonneg (by omega)]
  · have hfirst := @StrcompHolds.get _ _ _ h 0 hpos (emitted.length % BSM_MATCH_LENGTH_LIMIT : Nat)
      (by rw [show BSM_MATCH_LENGTH_LIMIT = 4096 from rfl]; omega)
    have hbytes := h.bytes
    rw [if_neg hlong, if_pos (by omega), hfirst]
    obtain ⟨b, rest, rfl⟩ := List.exists_cons_of_ne_nil hne
    exact ⟨_, _, 1, rfl, Nat.one_pos, hpos, h.emit hpos _ (by omega) (h.bsm.push b), Or.inr ⟨b, _, rfl, rfl, rfl, rfl⟩⟩

end Scomp
