/-
The decoder on any bits at all, written by an encoder or not.

A stream is always in the decoder's interval, so some symbol owns it, and the
share of that symbol is the next interval. Nothing here depends on where the
bits come from.
-/
import Scomp.ArithmeticCoding.Decoder
import Scomp.ArithmeticCoding.Precision

namespace Scomp

open IntervalCoding

/-- What a read does safely. `ready` is the decoder when it looks for the
symbol: it has its first 32 bits, or has renormalised. -/
structure AcodReadSafe (decoder ready : AcodDecoder) (table : Ftable) (symbol : Symbol) (decoder' : AcodDecoder) :
    Prop where
  renormalizes : decoder.baseBitsReceived < ACOD_STATE_SIZE_BITS ∧ ready.state = decoder.state ∨
    ∃ shifts underflows, AcodRenormalizes decoder.state shifts underflows ready.state
  low_le : ready.state.low ≤ ready.code
  le_high : ready.code ≤ ready.state.high
  high_lt : ready.state.high < ACOD_FULL_RANGE
  range : ACOD_MIN_RANGE ≤ ready.state.high - ready.state.low + 1
  valueProduct : (ready.code - ready.state.low + 1).toNat * table.total.toNat < 2 ^ 64
  lowProduct : (ftableGetLow table symbol).toNat * (ready.state.high - ready.state.low + 1).toNat < 2 ^ 64
  highProduct : (ftableGetHigh table symbol).toNat * (ready.state.high - ready.state.low + 1).toNat < 2 ^ 64
  produces : acodDecoderProduceSymbol ready table = (symbol, decoder')
  symbol_lt : symbol < table.length
  positive : 0 < ftableGetFrequency table symbol
  code_eq : decoder'.code = ready.code
  low_le' : decoder'.state.low ≤ decoder'.code
  le_high' : decoder'.code ≤ decoder'.state.high
  high_lt' : decoder'.state.high < ACOD_FULL_RANGE

/-- A decoder between two reads. -/
inductive DecoderBetween (decoder : AcodDecoder) (all : List Bool) : Prop
  | fresh : DecoderFresh decoder all → DecoderBetween decoder all
  | following (i : Interval) : Follows decoder all i → DecoderBetween decoder all

/-- Before the symbol is looked up. -/
theorem DecoderBetween.ready {decoder : AcodDecoder} {all : List Bool} (h : DecoderBetween decoder all) :
    ∃ ready i, (∀ table, acodDecoderRead decoder table = some (acodDecoderProduceSymbol ready table)) ∧
      Follows ready all i ∧ AcodStateReady ready.state ∧
      (decoder.baseBitsReceived < ACOD_STATE_SIZE_BITS ∧ ready.state = decoder.state ∨
        ∃ shifts underflows, AcodRenormalizes decoder.state shifts underflows ready.state) := by
  cases h with
  | fresh hfresh =>
    obtain ⟨ready, hread, hstate, hfollows, -⟩ := hfresh.read
    refine ⟨ready, _, hread, hfollows, by rw [hstate]; exact acodStateInit_ready, .inl ⟨?_, ?_⟩⟩
    · rw [hfresh.received]
      decide
    · rw [hstate, hfresh.state]
  | following i hfollows =>
    obtain ⟨ready, hread, hstate, hfollows', -⟩ := hfollows.read
    have hloops := acodRenormalizes_of_ok hfollows.state
    rw [← hstate] at hloops
    exact ⟨ready, _, hread, hfollows', by rw [hstate]; exact acodRenormalized_ready hfollows.state,
      .inr ⟨_, _, hloops⟩⟩

/-- **One read**, from any bits. -/
theorem DecoderBetween.read {decoder : AcodDecoder} {all : List Bool} {table : Ftable} (h : DecoderBetween decoder all)
    (ht : FtableOK table) (hlimit : table.length < 2 ^ 15) (hpos : 0 < table.total.toNat) :
    ∃ ready symbol decoder', acodDecoderRead decoder table = some (symbol, decoder') ∧
      AcodReadSafe decoder ready table symbol decoder' ∧ DecoderBetween decoder' all := by
  obtain ⟨ready, i, hread, hfollows, hstate, hloops⟩ := h.ready
  obtain ⟨symbol, he, hshare⟩ := hfollows.owner ht hlimit hpos
  obtain ⟨decoder', hproduce, -, -, hcode, hfollows'⟩ := acodDecoderProduceSymbol_spec hfollows hstate he hshare
  obtain ⟨hvalueProduct, -⟩ := hfollows.value_toNat ht hpos
  obtain ⟨hrange, -⟩ := hfollows.range_toNat
  obtain ⟨hfrom, hto⟩ := hfollows.code_bounds
  obtain ⟨hfrom', hto'⟩ := hfollows'.code_bounds
  have hhighProduct := acodProduct_lt hstate.toAcodStateOK he.toEncodable
  have hlowHigh : (ftableGetLow table symbol).toNat ≤ (ftableGetHigh table symbol).toNat := by
    rw [ht.exact.low_toNat (Nat.le_of_lt he.lt), ht.exact.high_toNat he.lt]
    exact Nat.le_add_right _ _
  have hminimum := hstate.range
  refine ⟨ready, symbol, decoder', by rw [hread, hproduce], ?_, .following _ hfollows'⟩
  exact {
    renormalizes := hloops
    low_le := UInt64.le_iff_toNat_le.mpr hfrom
    le_high := UInt64.le_iff_toNat_le.mpr hto
    high_lt := UInt64.lt_iff_toNat_lt.mpr hstate.high_lt
    range := by rw [UInt64.le_iff_toNat_le, hrange]; exact hminimum
    valueProduct := hvalueProduct
    lowProduct := Nat.lt_of_le_of_lt (Nat.mul_le_mul_right _ hlowHigh) hhighProduct
    highProduct := hhighProduct
    produces := hproduce
    symbol_lt := he.lt
    positive := UInt64.lt_iff_toNat_lt.mpr he.pos
    code_eq := hcode
    low_le' := UInt64.le_iff_toNat_le.mpr hfrom'
    le_high' := UInt64.le_iff_toNat_le.mpr hto'
    high_lt' := UInt64.lt_iff_toNat_lt.mpr hfollows'.state.high_lt }

theorem acodDecodeAll_between {decoder : AcodDecoder} {all : List Bool} {tables : List Ftable}
    (h : DecoderBetween decoder all) (ht : ∀ table ∈ tables, FtableOK table ∧ table.length < 2 ^ 15 ∧ 0 < table.total) :
    ∃ symbols decoder', acodDecodeAll decoder tables = some (symbols, decoder') ∧ DecoderBetween decoder' all := by
  induction tables generalizing decoder with
  | nil => exact ⟨[], decoder, rfl, h⟩
  | cons table tables ih =>
    obtain ⟨⟨hok, hlimit, hpos⟩, hrest⟩ := List.forall_mem_cons.mp ht
    obtain ⟨-, symbol, decoder₁, hread, -, hbetween⟩ := h.read hok hlimit (UInt64.lt_iff_toNat_lt.mp hpos)
    obtain ⟨symbols, decoder₂, hall, hbetween'⟩ := ih hbetween hrest
    refine ⟨symbol :: symbols, decoder₂, ?_, hbetween'⟩
    rw [acodDecodeAll]
    exact Option.bind_eq_some_iff.mpr ⟨_, hread, Option.bind_eq_some_iff.mpr ⟨_, hall, rfl⟩⟩

/-- A fresh decoder makes some reads, and the next one ends, keeps the code
word in its interval and gives a symbol that is possible. -/
def AcodReadsSafely (reader : Reader) (before : List Ftable) (table : Ftable) : Prop :=
  ∃ symbols decoder ready symbol decoder', acodDecodeAll (acodDecoderInit reader) before = some (symbols, decoder) ∧
    acodDecoderRead decoder table = some (symbol, decoder') ∧ AcodReadSafe decoder ready table symbol decoder'

/-- **Any bits drive the decoder safely**, whatever a reader holds and however
many reads there were, with tables of at most 32767 symbols. -/
theorem acod_decoder_safe (reader : Reader) (hreader : ReaderOK reader) (before : List Ftable) (table : Ftable)
    (htables : ∀ t ∈ before ++ [table], FtableOK t ∧ t.length < 2 ^ 15 ∧ 0 < t.total) :
    AcodReadsSafely reader before table := by
  obtain ⟨hbefore, hlast⟩ := List.forall_mem_append.mp htables
  obtain ⟨hok, hlimit, hpos⟩ := hlast table (List.mem_singleton_self table)
  obtain ⟨symbols, decoder, hall, hbetween⟩ := acodDecodeAll_between (.fresh (.init hreader)) hbefore
  obtain ⟨ready, symbol, decoder', hread, hsafe, -⟩ := hbetween.read hok hlimit (UInt64.lt_iff_toNat_lt.mp hpos)
  exact ⟨symbols, decoder, ready, symbol, decoder', hall, hread, hsafe⟩

/-- Five bytes that no encoder wrote: two reads, each with a table of its
own. -/
theorem acod_decoder_safe_bytes :
    ∃ reader, readerPushBuffer (readerInit contextInit) (bufferMake [0x9c, 0x35, 0xe7, 0x41, 0x8b]) = some reader ∧
      AcodReadsSafely reader [ftableInit 2 FTABLE_INIT_ONE] (ftableInit 3 FTABLE_INIT_ONE) := by
  obtain ⟨reader, hpush, hat, -⟩ := (Reader.AtByte.init contextInit).push
    (show 0 < (bufferMake [0x9c, 0x35, 0xe7, 0x41, 0x8b]).length by decide)
  have htwo := (ftableInit_ok 2 FTABLE_INIT_ONE (by decide)).1
  have hthree := (ftableInit_ok 3 FTABLE_INIT_ONE (by decide)).1
  refine ⟨reader, hpush, acod_decoder_safe reader hat.ok [ftableInit 2 FTABLE_INIT_ONE] (ftableInit 3 FTABLE_INIT_ONE) ?_⟩
  simp only [List.cons_append, List.nil_append, List.forall_mem_cons, List.not_mem_nil, false_implies, implies_true,
    and_true]
  exact ⟨⟨htwo, by decide, by decide⟩, hthree, by decide, by decide⟩

/-- 32 ones are the last code word there is, but with the largest table the
first symbol is read from them, whose share is the first `2 ^ 17` code words. -/
theorem acod_decoder_safe_fails :
    ∃ reader, readerPushBuffer (readerInit contextInit) (bufferMake [0xff, 0xff, 0xff, 0xff]) = some reader ∧
      ReaderOK reader ∧ FtableOK ftableLargest ∧ 0 < ftableLargest.total ∧ ¬ AcodReadsSafely reader [] ftableLargest := by
  obtain ⟨hok, hlength, htotal, hones⟩ := ftableLargest_spec
  generalize ftableLargest = table at *
  obtain ⟨reader, hpush, hat, hread, -⟩ := (Reader.AtByte.init contextInit).push
    (show 0 < (bufferMake [0xff, 0xff, 0xff, 0xff]).length by decide)
  have hunread : reader.unread = List.replicate 32 true := by
    rw [Reader.unread_eq_ofBytes hat.aligned, hread]
    decide
  refine ⟨reader, hpush, hat.ok, hok, by rw [UInt64.lt_iff_toNat_lt, htotal]; decide, fun h => ?_⟩
  obtain ⟨_, decoder, ready, symbol, decoder', hall, hread, hsafe⟩ := h
  obtain rfl : acodDecoderInit reader = decoder := congrArg Prod.snd (Option.some.inj hall)
  -- the code word is the last one, and the interval the first symbol's share
  obtain ⟨ready', hreads, hinit, hfollows, -⟩ := (DecoderFresh.init hat.ok).read
  have hproduce := (hreads table).symm.trans hread
  rw [acodDecoderProduceSymbol_wraps hlength] at hproduce
  obtain rfl : { ready' with state := acodShrinkTheRange ready'.state table 0 } = decoder' :=
    congrArg Prod.snd (Option.some.inj hproduce)
  have hcode : ready'.code.toNat = 2 ^ 32 - 1 := by
    obtain ⟨base, hlow, -, hcode⟩ := hfollows.base
    rw [hinit] at hlow
    have hbase : base = 0 := by
      have hzero : acodFullInterval.low = 0 := rfl
      rw [hzero] at hlow
      omega
    rw [hbase, Nat.zero_add, hunread] at hcode
    rw [← hcode]
    decide
  obtain ⟨-, -, -, hhigh, -⟩ := acodShrinkTheRange_spec acodStateInit_ok hok (show 0 < table.length by rw [hlength]; decide)
    (by rw [hones 0 (by decide)]; decide) (by decide)
  have hle : ready'.code.toNat ≤ (acodShrinkTheRange ready'.state table 0).high.toNat :=
    UInt64.le_iff_toNat_le.mp hsafe.le_high'
  rw [hinit, hcode, hhigh, hones 0 (by decide), htotal, Ftable.below, Finset.sum_range_zero] at hle
  exact absurd hle (by decide)

end Scomp
