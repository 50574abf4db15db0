/-
The asymmetric-numerals coder (`ans_encoder.c`): the encoder of a block and
the decoder of its symbols.

A loop that does not end has no result (`none`), as a failed assertion has
none.
-/
import Scomp.ArithmeticCoding.Decoder
import Scomp.DataStructures.Writer

namespace Scomp

/-- `none`: `freq > 0`. -/
def ansCalcNextState (s : Symbol) (state : UInt64) (table : Ftable) : Option UInt64 :=
  let freq := ftableGetFrequency table s
  let low := ftableGetLow table s
  let total := ftableGetTotal table
  if freq > 0 then some ((state / freq) * total + (state % freq) + low) else none

/-- `none`: `total > 0`. -/
def ansCalcPrevState (s : Symbol) (state : UInt64) (table : Ftable) : Option UInt64 :=
  let freq := ftableGetFrequency table s
  let low := ftableGetLow table s
  let total := ftableGetTotal table
  if total > 0 then some (freq * (state / total) + ((state % total) - low)) else none

/-! ## The encoder -/

/-- The loop that writes low bits of the state while the next state would be
too large. A state has 64 bits, and once it is zero nothing changes. -/
def ansShedBits (s : Symbol) (table : Ftable) (total : SymbolFrequency) :
    Nat → Writer → UInt64 → UInt64 → Option (Writer × UInt64)
  | 0, _, _, _ => none
  | turns + 1, writer, normalizedState, predicted =>
    if predicted >>> 1 ≥ total then do
      let writer := writerWriteBit writer (normalizedState &&& 1 != 0)
      let normalizedState := normalizedState >>> 1
      let predicted ← ansCalcNextState s normalizedState table
      ansShedBits s table total turns writer normalizedState predicted
    else some (writer, predicted)

/-- One turn of the loop over the block; `total` is the table's at its
start. -/
def ansEncoderWriteSymbol (writer : Writer) (state : UInt64) (table : Ftable) (total : SymbolFrequency) (s : Symbol)
    (isIncrementingFtable : Bool) : Option (Writer × UInt64 × Ftable) := do
  let predicted ← ansCalcNextState s state table
  let (writer, state) ← ansShedBits s table total 65 writer state predicted
  return (writer, state, if isIncrementingFtable then ftableIncrement table s else table)

/-- The loop over the block, from its last symbol to its first. -/
def ansEncoderWriteSymbols (writer : Writer) (table : Ftable) (total : SymbolFrequency) (isIncrementingFtable : Bool) :
    List Symbol → Option (Writer × UInt64 × Ftable)
  | [] => some (writer, total, table)
  | s :: block => do
    let (writer, state, table) ← ansEncoderWriteSymbols writer table total isIncrementingFtable block
    ansEncoderWriteSymbol writer state table total s isIncrementingFtable

/-- `none`: "No zero-length blocks allowed". -/
def ansEncoderWriteBlock (writer : Writer) (block : List Symbol) (table : Ftable) (isIncrementingFtable : Bool) :
    Option (UInt64 × Writer × Ftable) :=
  if block.length > 0 then do
    let (writer, state, table) ← ansEncoderWriteSymbols writer table (ftableGetTotal table) isIncrementingFtable block
    return (state, writer, table)
  else none

/-! ## The decoder -/

structure AnsDecoder where
  reader : Reader
  state : UInt64

/-- The binary search of the arithmetic decoder, and the assertions on what
it finds. -/
def ansFindSymbolByOffset (frequencies : Ftable) (offset : UInt64) : Option Symbol :=
  let limit := (ftableGetSymbolLimit frequencies).toNat
  let start := acodFindSymbol frequencies offset limit 0 limit
  let freq := ftableGetFrequency frequencies start
  let low := ftableGetLow frequencies start
  if freq > 0 ∧ low ≤ offset ∧ offset < low + freq then some start else none

/-- The loop that takes bits back until the state is large enough. -/
def ansTakeBits (total : UInt64) : Nat → AnsDecoder → Option AnsDecoder
  | 0, _ => none
  | turns + 1, decoder =>
    if decoder.state < total then do
      let (bit, reader) ← readerReadBit decoder.reader
      ansTakeBits total turns { reader := reader, state := (decoder.state <<< 1) ||| bit.toUInt64 }
    else some decoder

/-- A state that is still zero when all bits are read stays zero; any other
one passes the total within 64 turns. -/
def ansDecoderRead (decoder : AnsDecoder) (table : Ftable) : Option (Symbol × AnsDecoder) :=
  let total := ftableGetTotal table
  if total = 0 then none
  else do
    let s ← ansFindSymbolByOffset table (decoder.state % total)
    let state ← ansCalcPrevState s decoder.state table
    let turns := (readerGetBitsAvailable decoder.reader).toNat + 65
    let decoder ← ansTakeBits total turns { decoder with state := state }
    return (s, decoder)

/-- One read for each symbol of a block. -/
def ansDecoderReadAll (decoder : AnsDecoder) (table : Ftable) : Nat → Option (List Symbol × AnsDecoder)
  | 0 => some ([], decoder)
  | count + 1 => do
    let (s, decoder) ← ansDecoderRead decoder table
    let (block, decoder) ← ansDecoderReadAll decoder table count
    return (s :: block, decoder)

end Scomp
