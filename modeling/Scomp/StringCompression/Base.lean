/-
What the two sides of the string compression share
(`string_compression_base.c`).
-/
import Scomp.ArithmeticCoding.UintCoding
import Scomp.StringCompression.ByteStreamMatcher

namespace Scomp

def STRCOMP_MIN_BACKREFERENCE_LENGTH : Int := 5
def STRCOMP_BACKREFERENCE_SYMBOL : Nat := 256

structure StringCompressionBase where
  /-- Characters, the start of a backreference, and EOF. -/
  mainSymbolTable : Ftable
  offsetTables : UintFreqTables
  lengthTables : UintFreqTables

def strcompInitBase : StringCompressionBase :=
  { mainSymbolTable := ftableInit (STRCOMP_BACKREFERENCE_SYMBOL + 1) (FTABLE_INIT_ONE ||| FTABLE_INCLUDE_EOF)
    offsetTables := uintFreqTablesInit (UInt64.ofNat BSM_LENGTH)
    lengthTables := uintFreqTablesInit (UInt64.ofNat BSM_MATCH_LENGTH_LIMIT) }

/-- Offsets of up to 16 bits and lengths of up to 12 fit. -/
structure StringTablesReady (base : StringCompressionBase) : Prop where
  main : FtableReady base.mainSymbolTable 258
  offset : UintTablesReady base.offsetTables 5
  length : UintTablesReady base.lengthTables 4

theorem StringTablesReady.init : StringTablesReady strcompInitBase := by
  have hmain := (ftableInit_ready (STRCOMP_BACKREFERENCE_SYMBOL + 1) (FTABLE_INIT_ONE ||| FTABLE_INCLUDE_EOF)
    (by decide) (by decide)).1
  rw [if_pos (by decide)] at hmain
  constructor
  · dsimp only [strcompInitBase]
    exact hmain
  · exact .init (by decide) (by decide)
  · exact .init (by decide) (by decide)

theorem StringTablesReady.increment {base : StringCompressionBase} (h : StringTablesReady base) {symbol : Symbol}
    (hs : symbol < 258) :
    StringTablesReady { base with mainSymbolTable := ftableIncrement base.mainSymbolTable symbol } :=
  ⟨h.main.increment hs, h.offset, h.length⟩

end Scomp
