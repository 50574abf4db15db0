/-
The symbol that both decoders look up by a value below the total.

Low and high only grow from symbol to symbol, and symbols that never occurred
share their low with the next one. So the intervals of a low and a high are
disjoint, but several symbols may have the same low; the one with a frequency
is the last of them.

The total is only asked to be the sum, not to be small enough for the coder.

`symbol` is a 16-bit type: up to 32767 symbols the search never leaves 0 to
the symbol limit, over 32768 its `end` starts below its `start`.
-/
import Scomp.AsymmetricalNumericSystem.AnsRoundTrip

namespace Scomp

/-- The value is in the symbol's interval. -/
structure FtableOwns (table : Ftable) (value : SymbolFrequency) (symbol : Symbol) : Prop where
  lt : symbol < table.length
  low : ftableGetLow table symbol ≤ value
  high : value < ftableGetHigh table symbol

instance (table : Ftable) (value : SymbolFrequency) (symbol : Symbol) : Decidable (FtableOwns table value symbol) :=
  decidable_of_iff (symbol < table.length ∧ ftableGetLow table symbol ≤ value ∧
      value < ftableGetHigh table symbol)
    ⟨fun h => ⟨h.1, h.2.1, h.2.2⟩, fun h => ⟨h.lt, h.low, h.high⟩⟩

/-- The value that the arithmetic decoder looks up. -/
def acodDecoderValue (decoder : AcodDecoder) (frequencies : Ftable) : SymbolFrequency :=
  ((decoder.code - decoder.state.low + 1) * frequencies.total - 1) / (decoder.state.high - decoder.state.low + 1)

theorem acodDecoderProduceSymbol_fst (decoder : AcodDecoder) (frequencies : Ftable) :
    (acodDecoderProduceSymbol decoder frequencies).1 =
      acodFindSymbol frequencies (acodDecoderValue decoder frequencies) (ftableGetSymbolLimit frequencies).toNat 0
        (ftableGetSymbolLimit frequencies).toNat := rfl

section

variable {table : Ftable} {value : SymbolFrequency} {symbol other : Symbol}

theorem FtableOwns.iff (h : table.Exact) (hs : symbol < table.length) :
    FtableOwns table value symbol ↔
      table.below symbol ≤ value.toNat ∧ value.toNat < table.below symbol + table.freq symbol := by
  rw [← h.high_toNat hs, ← h.low_toNat (Nat.le_of_lt hs), ← UInt64.le_iff_toNat_le, ← UInt64.lt_iff_toNat_lt]
  exact ⟨fun howns => ⟨howns.low, howns.high⟩, fun hvalue => ⟨hs, hvalue.1, hvalue.2⟩⟩

/-- No two symbols have the same value. -/
theorem FtableOwns.unique (h : table.Exact) (howns : FtableOwns table value symbol)
    (hother : FtableOwns table value other) : other = symbol := by
  obtain ⟨hlow, hhigh⟩ := (FtableOwns.iff h howns.lt).mp howns
  obtain ⟨hlow', hhigh'⟩ := (FtableOwns.iff h hother.lt).mp hother
  rw [← table.below_succ] at hhigh hhigh'
  exact table.owner_unique hlow' hhigh' hlow hhigh

end

/-- **Both decoders find the symbol that owns the value.** The loop ends, at
every turn its `start` is not above its `end` and neither leaves the symbols of
the table, and what it ends in is the only symbol with the value in its
interval. -/
def SymbolSearchFindsOwner (table : Ftable) (value : SymbolFrequency) : Prop :=
  let limit := (ftableGetSymbolLimit table).toNat
  ∃ turns symbol stop, FtableOwns table value symbol ∧ (∀ other, FtableOwns table value other → other = symbol) ∧
    WhileEnds Bisection.going (acodSearchTurn table value) (0, limit) turns (symbol, stop) ∧
    (∀ k ≤ turns, ((acodSearchTurn table value)^[k] (0, limit)).1 ≤ ((acodSearchTurn table value)^[k] (0, limit)).2 ∧
      ((acodSearchTurn table value)^[k] (0, limit)).2 ≤ limit) ∧
    (∀ decoder, acodDecoderValue decoder table = value → (acodDecoderProduceSymbol decoder table).1 = symbol) ∧
    ansFindSymbolByOffset table value = some symbol

section

variable {table : Ftable} {value : SymbolFrequency} (hsum : table.Exact)
include hsum

theorem SymbolSearchFindsOwner.of_lt (hlength : table.length < 2 ^ 15) (hvalue : value < table.total) :
    SymbolSearchFindsOwner table value := by
  have hlt := UInt64.lt_iff_toNat_lt.mp hvalue
  obtain ⟨turns, symbol, hturns, hs, hends, hlow, hhigh⟩ := acodSearch_ends hsum hlt
  have hwithin := (acodSearch_brackets hsum hlt).within hends
  rw [table.below_succ] at hhigh
  rw [← ftableGetSymbolLimit_toNat hlength] at hends hturns hwithin
  have howns := (FtableOwns.iff hsum hs).mpr ⟨hlow, hhigh⟩
  refine ⟨turns, symbol, symbol + 1, howns, fun other hother => howns.unique hsum hother, hends,
    fun k hk => ⟨Nat.le_of_lt (hwithin k hk).1, (hwithin k hk).2⟩, fun decoder hdecoder => ?_,
    ansFindSymbolByOffset_spec hsum hs (.inl hlength) hlow hhigh⟩
  rw [acodDecoderProduceSymbol_fst, hdecoder, acodFindSymbol_of_while hends hturns]

/-- Where the loop makes no turn, only the first symbol is found. -/
theorem SymbolSearchFindsOwner.wraps_iff (hwraps : table.length = 2 ^ 15) :
    SymbolSearchFindsOwner table value ↔ value < ftableGetFrequency table 0 := by
  constructor
  · intro h
    obtain ⟨_, symbol, _, -, -, -, -, -, hfind⟩ := h
    exact (ansFindSymbolByOffset_wraps hwraps hfind).2
  · intro hfirst
    have hs : 0 < table.length := by rw [hwraps]; decide
    have hhigh : value.toNat < table.below 0 + table.freq 0 := by
      rw [Ftable.below, Finset.sum_range_zero, Nat.zero_add]
      exact UInt64.lt_iff_toNat_lt.mp hfirst
    have howns := (FtableOwns.iff hsum hs).mpr ⟨Nat.zero_le _, hhigh⟩
    have hlimit := ftableGetSymbolLimit_wraps_toNat hwraps
    refine ⟨0, 0, 0, howns, fun other hother => howns.unique hsum hother, ?_, fun k hk => ?_, fun decoder _ => ?_,
      ansFindSymbolByOffset_spec hsum hs (.inr ⟨hwraps, rfl⟩) (Nat.zero_le _) hhigh⟩
    · rw [hlimit]
      exact .zero rfl
    · obtain rfl := Nat.le_zero.mp hk
      exact ⟨Nat.zero_le _, Nat.le_refl _⟩
    · rw [acodDecoderProduceSymbol_wraps hwraps]

end

/-- **When both decoders find the owner**: in every table of at most 32767
symbols, and in the one longer table if the first symbol has the value. -/
theorem symbolSearch_findsOwner_iff (table : Ftable) (value : SymbolFrequency) (hlength : table.length ≤ 2 ^ 15)
    (hsum : table.Exact) (hvalue : value < table.total) :
    SymbolSearchFindsOwner table value ↔ table.length < 2 ^ 15 ∨ value < ftableGetFrequency table 0 := by
  rcases Nat.lt_or_eq_of_le hlength with hlt | hwraps
  · exact ⟨fun _ => .inl hlt, fun _ => .of_lt hsum hlt hvalue⟩
  · rw [SymbolSearchFindsOwner.wraps_iff hsum hwraps]
    exact ⟨.inr, fun h => h.resolve_left (Nat.not_lt.mpr (Nat.le_of_eq hwraps.symm))⟩

/-- The first symbol, the last one and two in between never occurred. -/
def symbolSearchTable : Ftable :=
  { frequencies := ftreeFillFromSourceFrequencies (ftreeInit 6) [0, 2, 0, 0, 3, 0] 0, total := 5, isEofIncluded := false }

theorem symbolSearch_findsOwner_of_zeroes :
    FtableOwns symbolSearchTable 2 4 ∧ ansFindSymbolByOffset symbolSearchTable 2 = some 4 ∧
      (acodDecoderProduceSymbol { acodDecoderInit (readerInit contextInit) with code := 0x80000000 }
        symbolSearchTable).1 = 4 := by
  have hsum : symbolSearchTable.Exact := by
    unfold Ftable.Exact
    decide
  have howns : FtableOwns symbolSearchTable 2 4 := by decide
  obtain ⟨-, symbol, _, -, hunique, -, -, hdecoder, hfound⟩ :=
    (symbolSearch_findsOwner_iff symbolSearchTable 2 (by decide) hsum (by decide)).mpr (.inl (by decide))
  obtain rfl := hunique 4 howns
  exact ⟨howns, hfound, hdecoder _ (by decide)⟩

/-- The value 1 of the largest table is its second symbol's, and found
nowhere. -/
theorem symbolSearch_findsOwner_fails :
    ftableLargest.Exact ∧ 1 < ftableLargest.total ∧ ¬ SymbolSearchFindsOwner ftableLargest 1 := by
  obtain ⟨hok, hlength, htotal, hones⟩ := ftableLargest_spec
  generalize ftableLargest = table at *
  refine ⟨hok.exact, UInt64.lt_iff_toNat_lt.mpr (by rw [htotal]; decide), ?_⟩
  rw [SymbolSearchFindsOwner.wraps_iff hok.exact hlength, UInt64.lt_iff_toNat_lt,
    show (ftableGetFrequency table 0).toNat = 1 from hones 0 (by decide)]
  decide

end Scomp
