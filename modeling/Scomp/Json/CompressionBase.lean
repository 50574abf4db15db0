/-
The tables that the JSON compressor and decompressor share
(`json_compression_base.c`).

The six members `number_.._tables` are one function here, from the part of a
number to its tables. `escape_sequences` is filled and never used by the
source, and left out.
-/
import Scomp.ArithmeticCoding.UintCoding
import Scomp.Json.Base

namespace Scomp

structure JsonCompressionBase where
  /-- One table of token kinds for each state. -/
  tables : JsonState → Ftable
  whitespaces : Ftable
  currentState : JsonState
  numberTables : NumberPart → UintFreqTables

def jsonCompressionBaseReset (base : JsonCompressionBase) : JsonCompressionBase := { base with currentState := .start }

/-- What the tables of a part of a number are made for. -/
def NumberPart.maxValue : NumberPart → UInt64
  | .flag => JSON_NUMBER_FLAGS_MAX
  | .int => 0xffffffffffffffff
  | .fracZero => JSON_MAX_NUMBER_LEADING_ZEROES.toUInt64
  | .frac => 65535
  | .expoZero => JSON_MAX_NUMBER_LEADING_ZEROES.toUInt64
  | .expo => 65535

def jsonCompressionBaseInit : JsonCompressionBase :=
  { tables := fun _ => ftableInit (JSON_TOKEN_MAX + 1) (FTABLE_INIT_ONE ||| FTABLE_INCLUDE_EOF)
    whitespaces := ftableInit JTOK_WHITESPACE_CHARS.length (FTABLE_INIT_ONE ||| FTABLE_EXCLUDE_EOF)
    currentState := .start
    numberTables := fun part => uintFreqTablesInit part.maxValue }

def jsonCompressionBaseGetCurrentFtable (base : JsonCompressionBase) : Ftable := base.tables base.currentState

/-- A symbol of the whitespace table is an index into the characters. -/
def jsonCompressionGetWhitespaceCharBySymbol (s : Symbol) : Byte := JTOK_WHITESPACE_CHARS.getD s 0

/-- The loop does not look at the last character; it is what remains. -/
def jsonCompressionGetSymbolByWhitespaceChar (b : Byte) : Symbol := JTOK_WHITESPACE_CHARS.dropLast.findIdx (· == b)

/-- The table of the current state has counted the symbol. -/
def jsonCompressionBaseIncrementCurrent (base : JsonCompressionBase) (symbol : Symbol) : JsonCompressionBase :=
  let table := ftableIncrement (jsonCompressionBaseGetCurrentFtable base) symbol
  { base with tables := Function.update base.tables base.currentState table }

@[simp] theorem getWhitespaceChar_getSymbol {b : Byte} (h : b ∈ JTOK_WHITESPACE_CHARS) :
    jsonCompressionGetWhitespaceCharBySymbol (jsonCompressionGetSymbolByWhitespaceChar b) = b := by
  simp only [JTOK_WHITESPACE_CHARS, List.mem_cons, List.not_mem_nil, or_false] at h
  rcases h with rfl | rfl | rfl | rfl <;> rfl

theorem getSymbolByWhitespaceChar_lt (b : Byte) : jsonCompressionGetSymbolByWhitespaceChar b < 4 :=
  Nat.lt_succ_of_le (List.findIdx_le_length)

/-! ## Which symbols the tables need -/

/-- How many groups the numbers in a part's tables may have, and one. -/
def NumberPart.limit : NumberPart → Nat
  | .flag => 3
  | .int => 17
  | .fracZero => 3
  | .frac => 5
  | .expoZero => 3
  | .expo => 5

structure JsonTablesReady (base : JsonCompressionBase) : Prop where
  tokens : ∀ state, FtableReady (base.tables state) 18
  whitespaces : FtableReady base.whitespaces 4
  numbers : ∀ part, UintTablesReady (base.numberTables part) part.limit

theorem JsonTablesReady.init : JsonTablesReady jsonCompressionBaseInit := by
  have htokens := (ftableInit_ready (JSON_TOKEN_MAX + 1) (FTABLE_INIT_ONE ||| FTABLE_INCLUDE_EOF)
    (by decide) (by decide)).1
  have hwhitespaces := (ftableInit_ready JTOK_WHITESPACE_CHARS.length (FTABLE_INIT_ONE ||| FTABLE_EXCLUDE_EOF)
    (by decide) (by decide)).1
  rw [if_pos (by decide)] at htokens
  rw [if_neg (by decide)] at hwhitespaces
  constructor
  · intro state
    exact htokens
  · exact hwhitespaces
  · intro part
    cases part <;> exact .init (by decide) (by decide)

theorem JsonTablesReady.increment {base : JsonCompressionBase} (h : JsonTablesReady base) {symbol : Symbol}
    (hs : symbol < 18) : JsonTablesReady (jsonCompressionBaseIncrementCurrent base symbol) := by
  refine ⟨fun state => ?_, h.whitespaces, h.numbers⟩
  show FtableReady (Function.update base.tables base.currentState _ state) 18
  rw [Function.update_apply]
  split
  · exact (h.tokens _).increment hs
  · exact h.tokens state

/-- Every token table has all kinds and EOF. -/
def JsonCompressionBase.LimitsOK (base : JsonCompressionBase) : Prop :=
  ∀ state, (base.tables state).length = 18

theorem JsonCompressionBase.LimitsOK.increment {base : JsonCompressionBase} (h : base.LimitsOK) (symbol : Symbol) :
    (jsonCompressionBaseIncrementCurrent base symbol).LimitsOK := by
  intro state
  show (Function.update base.tables base.currentState _ state).length = 18
  by_cases hs : state = base.currentState
  · subst hs
    rw [Function.update_self, ftableIncrement_limit]
    exact h base.currentState
  · rw [Function.update_of_ne hs]
    exact h state

theorem JsonTablesReady.limits {base : JsonCompressionBase} (h : JsonTablesReady base) : base.LimitsOK :=
  fun state => (h.tokens state).limit_eq

end Scomp
