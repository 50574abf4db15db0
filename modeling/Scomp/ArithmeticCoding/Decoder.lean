/-
The arithmetic decoder (`decoder.c`), and the interval it follows.

`all` are the bits given to a fresh decoder; zeroes stand for what is
missing after them. The code word is the position of that stream in the
interval of the decoder, which is the encoder's.
-/
import Scomp.ArithmeticCoding.Encoder
import Scomp.DataStructures.ReaderFacts
import Scomp.Lib.Bisection

namespace Scomp

open IntervalCoding

structure AcodDecoder where
  state : AcodState
  /-- The raw code bits, a number from `low` to `high`. -/
  code : SymbolFrequency
  reader : Reader
  baseBitsReceived : Nat
  trailingZeroesEmitted : Nat

def acodDecoderInit (reader : Reader) : AcodDecoder :=
  { state := acodStateInit, code := 0, reader := reader, baseBitsReceived := 0, trailingZeroesEmitted := 0 }

/-- The binary search for the highest symbol whose low is at most the value;
each turn takes the ends closer, so their distance bounds the turns. -/
def acodFindSymbol (frequencies : Ftable) (value : SymbolFrequency) : Nat → Symbol → Symbol → Symbol
  | 0, start, _ => start
  | turns + 1, start, stop =>
    if stop - start > 1 then
      let middle := (start + stop) / 2
      if ftableGetLow frequencies middle > value then acodFindSymbol frequencies value turns start middle
      else acodFindSymbol frequencies value turns middle stop
    else start

def acodDecoderProduceSymbol (decoder : AcodDecoder) (frequencies : Ftable) : Symbol × AcodDecoder :=
  let total := frequencies.total
  let valueRange := decoder.state.high - decoder.state.low + 1
  let offset := decoder.code - decoder.state.low
  let value := ((offset + 1) * total - 1) / valueRange
  -- a limit below 0 makes no turn either
  let limit := (ftableGetSymbolLimit frequencies).toNat
  let symbol := acodFindSymbol frequencies value limit 0 limit
  (symbol, { decoder with state := acodShrinkTheRange decoder.state frequencies symbol })

def acodDecoderReadBit (decoder : AcodDecoder) : Option (Byte × AcodDecoder) :=
  if readerGetBitsAvailable decoder.reader > 0 then do
    let (bit, reader) ← readerReadBit decoder.reader
    return (bit, { decoder with reader := reader })
  else
    let reader := if decoder.trailingZeroesEmitted > ACOD_STATE_SIZE_BITS then readerSetUnderflowError decoder.reader
      else decoder.reader
    some (0, { decoder with reader := reader, trailingZeroesEmitted := decoder.trailingZeroesEmitted + 1 })

/-- The loop for the first 32 bits of the code. -/
def acodDecoderReadBaseBits : Nat → AcodDecoder → Option AcodDecoder
  | 0, decoder => some decoder
  | turns + 1, decoder =>
    if decoder.baseBitsReceived < ACOD_STATE_SIZE_BITS then do
      let (bit, decoder) ← acodDecoderReadBit decoder
      acodDecoderReadBaseBits turns { decoder with
        code := (decoder.code <<< 1) ||| bit.toUInt64
        baseBitsReceived := decoder.baseBitsReceived + 1 }
    else some decoder

def acodDecoderShiftLoop : Nat → AcodDecoder → Option AcodDecoder
  | 0, decoder => some decoder
  | turns + 1, decoder =>
    if acodIsShiftable decoder.state then do
      let (bit, decoder) ← acodDecoderReadBit decoder
      acodDecoderShiftLoop turns { decoder with
        code := ((decoder.code <<< 1) &&& ACOD_STATE_MASK) ||| bit.toUInt64
        state := acodPerformShift decoder.state }
    else some decoder

def acodDecoderUnderflowLoop : Nat → AcodDecoder → Option AcodDecoder
  | 0, decoder => some decoder
  | turns + 1, decoder =>
    if acodIsUnderflowable decoder.state then do
      let (bit, decoder) ← acodDecoderReadBit decoder
      acodDecoderUnderflowLoop turns { decoder with
        code := (decoder.code &&& ACOD_HALF_RANGE) ||| ((decoder.code <<< 1) &&& (ACOD_STATE_MASK >>> 1)) |||
          bit.toUInt64
        state := acodPerformUnderflow decoder.state }
    else some decoder

def acodDecoderRead (decoder : AcodDecoder) (frequencies : Ftable) : Option (Symbol × AcodDecoder) :=
  if decoder.baseBitsReceived < ACOD_STATE_SIZE_BITS then do
    let decoder ← acodDecoderReadBaseBits 32 decoder
    return acodDecoderProduceSymbol decoder frequencies
  else do
    let decoder ← acodDecoderShiftLoop 32 decoder
    let decoder ← acodDecoderUnderflowLoop 32 decoder
    return acodDecoderProduceSymbol decoder frequencies

/-- Whatever a read does before, it looks up its symbol at the end. -/
theorem acodDecoderRead_produces {decoder : AcodDecoder} {table : Ftable} {result : Symbol × AcodDecoder}
    (h : acodDecoderRead decoder table = some result) : ∃ ready, acodDecoderProduceSymbol ready table = result := by
  rw [acodDecoderRead] at h
  split at h
  · obtain ⟨ready, -, hready⟩ := Option.bind_eq_some_iff.mp h
    exact ⟨ready, Option.some.inj hready⟩
  · obtain ⟨shifted, -, hready⟩ := Option.bind_eq_some_iff.mp h
    obtain ⟨ready, -, hready⟩ := Option.bind_eq_some_iff.mp hready
    exact ⟨ready, Option.some.inj hready⟩

/-! ## The symbol that owns a value -/

/-- One turn of the search, on its `start` and `end`. -/
def acodSearchTurn (frequencies : Ftable) (value : SymbolFrequency) : Symbol × Symbol → Symbol × Symbol :=
  Bisection.turn fun middle => ftableGetLow frequencies middle > value

/-- The bounded loop returns what the search ends in, as soon as its bound
lets it end. -/
theorem acodFindSymbol_of_while {table : Ftable} {value : SymbolFrequency} {bound turns : Nat} {ends final : Symbol × Symbol}
    (h : WhileEnds Bisection.going (acodSearchTurn table value) ends turns final) (hbound : turns ≤ bound) :
    acodFindSymbol table value bound ends.1 ends.2 = final.1 := by
  refine @WhileEnds.bounded _ _ _ _ (fun bound ends => acodFindSymbol table value bound ends.1 ends.2) Prod.fst ?_ ?_ _ _
    _ _ h hbound
  · intro bound ends hgoing
    rw [acodFindSymbol, if_pos (of_decide_eq_true hgoing), acodSearchTurn, Bisection.turn]
    simp only [decide_eq_true_eq]
    split <;> rfl
  · intro bound ends hdone
    cases bound with
    | zero => rfl
    | succ bound =>
      rw [acodFindSymbol, if_neg (of_decide_eq_false hdone)]

section

variable {table : Ftable} {value : SymbolFrequency} (h : table.Exact) (hvalue : value.toNat < table.total.toNat)
include h hvalue

/-- The value is at or above the low of the first symbol and below the
total. -/
theorem acodSearch_brackets :
    Bisection.Brackets (fun middle => ftableGetLow table middle > value) (0, table.length) := by
  have hlow := h.low_toNat (Nat.le_refl table.length)
  constructor
  · rcases Nat.eq_zero_or_pos table.length with hzero | hpos
    · have hsum := h
      rw [Ftable.Exact, hzero] at hsum
      exact absurd hvalue (by rw [← hsum]; exact Nat.not_lt_zero _)
    · exact hpos
  · rw [decide_eq_false_iff_not, gt_iff_lt, UInt64.lt_iff_toNat_lt]
    exact Nat.not_lt_zero _
  · rw [decide_eq_true_eq, gt_iff_lt, UInt64.lt_iff_toNat_lt, hlow, h]
    exact hvalue

/-- **The search ends at the symbol that owns the value**, whatever
frequencies are zero. -/
theorem acodSearch_ends :
    ∃ turns symbol, turns ≤ table.length ∧ symbol < table.length ∧
      WhileEnds Bisection.going (acodSearchTurn table value) (0, table.length) turns (symbol, symbol + 1) ∧
      table.below symbol ≤ value.toNat ∧ value.toNat < table.below (symbol + 1) := by
  obtain ⟨turns, symbol, hturns, -, hlt, hends, hfound⟩ := (acodSearch_brackets h hvalue).search
  have hlow := hfound.low
  have hhigh := hfound.high
  rw [decide_eq_false_iff_not, gt_iff_lt, UInt64.lt_iff_toNat_lt, h.low_toNat (Nat.le_of_lt hlt), Nat.not_lt] at hlow
  rw [decide_eq_true_eq, gt_iff_lt, UInt64.lt_iff_toNat_lt, h.low_toNat (Nat.succ_le_of_lt hlt)] at hhigh
  exact ⟨turns, symbol, hturns, hlt, hends, hlow, hhigh⟩

theorem acodFindSymbol_spec {symbol : Symbol} (hlow : table.below symbol ≤ value.toNat)
    (hhigh : value.toNat < table.below symbol + table.freq symbol)
    (hfindable : table.length < 2 ^ 15 ∨ table.length = 2 ^ 15 ∧ symbol = 0) :
    let limit := (ftableGetSymbolLimit table).toNat
    acodFindSymbol table value limit 0 limit = symbol := by
  intro limit
  rcases hfindable with hlt | ⟨hwraps, rfl⟩
  · obtain ⟨turns, found, hturns, -, hends, hfoundLow, hfoundHigh⟩ := acodSearch_ends h hvalue
    rw [show limit = table.length from ftableGetSymbolLimit_toNat hlt, acodFindSymbol_of_while hends hturns]
    exact table.owner_unique hfoundLow hfoundHigh hlow (by rw [table.below_succ]; exact hhigh)
  · rw [show limit = 0 from ftableGetSymbolLimit_wraps_toNat hwraps]
    rfl

end

/-- Over 32768 symbols the search finds the first one, whatever the value. -/
theorem acodFindSymbol_wraps {table : Ftable} (h : table.length = 2 ^ 15) (value : SymbolFrequency) :
    let limit := (ftableGetSymbolLimit table).toNat
    acodFindSymbol table value limit 0 limit = 0 := by
  intro limit
  rw [show limit = 0 from ftableGetSymbolLimit_wraps_toNat h]
  rfl

theorem acodDecoderProduceSymbol_wraps {table : Ftable} (h : table.length = 2 ^ 15) (decoder : AcodDecoder) :
    acodDecoderProduceSymbol decoder table = (0, { decoder with state := acodShrinkTheRange decoder.state table 0 }) := by
  rw [acodDecoderProduceSymbol, acodFindSymbol_wraps h]

/-- And so does every read with such a table. -/
theorem acodDecoderRead_wraps {table : Ftable} (h : table.length = 2 ^ 15) {decoder decoder' : AcodDecoder} {symbol : Symbol}
    (hread : acodDecoderRead decoder table = some (symbol, decoder')) : symbol = 0 := by
  obtain ⟨ready, hproduce⟩ := acodDecoderRead_produces hread
  rw [acodDecoderProduceSymbol_wraps h] at hproduce
  exact (congrArg Prod.fst hproduce).symm

/-! ## Bits of the stream -/

/-- A decoder that has read `n` bits of the stream. -/
structure DecoderAt (decoder : AcodDecoder) (all : List Bool) (n : Nat) : Prop where
  reader : ReaderOK decoder.reader
  unread : decoder.reader.unread = all.drop n
  trailing : decoder.trailingZeroesEmitted = n - all.length

/-- No error is set before the 34th zero. -/
theorem acodDecoderReadBit_spec {decoder : AcodDecoder} {all : List Bool} {n : Nat} (h : DecoderAt decoder all n) :
    ∃ reader trailing, acodDecoderReadBit decoder = some ((streamOf all n).toUInt8,
        { decoder with reader := reader, trailingZeroesEmitted := trailing }) ∧
      DecoderAt { decoder with reader := reader, trailingZeroesEmitted := trailing } all (n + 1) ∧
      (n < all.length + 33 → reader.context = decoder.reader.context) := by
  have havailable := readerGetBitsAvailable_eq h.reader
  have htrailing := h.trailing
  rw [h.unread] at havailable
  rcases Nat.lt_or_ge n all.length with hlt | hge
  · have hdrop : all.drop n = all[n] :: all.drop (n + 1) := List.drop_eq_getElem_cons hlt
    have hpos : readerGetBitsAvailable decoder.reader > 0 := by
      rw [havailable, hdrop, List.length_cons]
      omega
    obtain ⟨r', hr, -, hunread, hcontext, -, hok⟩ := readerReadBit_cons h.reader.toReadable (h.unread.trans hdrop)
    have hbit : streamOf all n = all[n] := by simp [streamOf, List.getD_eq_getElem?_getD, hlt]
    refine ⟨r', decoder.trailingZeroesEmitted, ?_, ⟨hok h.reader, hunread, ?_⟩, fun _ => hcontext⟩
    · rw [acodDecoderReadBit, if_pos hpos, hr, hbit]
      rfl
    · show decoder.trailingZeroesEmitted = _
      omega
  · have hdrop : all.drop n = [] := List.drop_eq_nil_of_le hge
    have hzero : ¬ readerGetBitsAvailable decoder.reader > 0 := by
      rw [havailable, hdrop]
      decide
    have hbit : streamOf all n = false := by simp [streamOf, List.getD_eq_getElem?_getD, hge]
    refine ⟨if decoder.trailingZeroesEmitted > ACOD_STATE_SIZE_BITS then readerSetUnderflowError decoder.reader
      else decoder.reader, decoder.trailingZeroesEmitted + 1, ?_, ⟨?_, ?_, ?_⟩, ?_⟩
    · rw [acodDecoderReadBit, if_neg hzero, hbit]
      rfl
    · show ReaderOK (if _ then _ else _)
      split
      · exact h.reader.underflow
      · exact h.reader
    · show Reader.unread (if _ then _ else _) = _
      rw [List.drop_eq_nil_of_le (by omega), ← hdrop, ← h.unread]
      split <;> rfl
    · show decoder.trailingZeroesEmitted + 1 = _
      omega
    · intro hfew
      have hno : ¬ decoder.trailingZeroesEmitted > ACOD_STATE_SIZE_BITS := show ¬ _ > 32 by omega
      rw [if_neg hno]

/-! ## Following the encoder's interval -/

/-- A decoder whose interval and code word are `i` and the stream's first
bits, up to a common base. -/
structure Follows (decoder : AcodDecoder) (all : List Bool) (i : Interval) : Prop where
  at_bits : DecoderAt decoder all i.bits
  state : AcodStateOK decoder.state
  received : decoder.baseBitsReceived = ACOD_STATE_SIZE_BITS
  base : ∃ base, i.low = base + decoder.state.low.toNat ∧ i.high = base + decoder.state.high.toNat ∧
    value (streamOf all) i.bits = base + decoder.code.toNat
  contains : i.Contains (streamOf all)

theorem bit_toNat (b : Bool) : b.toUInt8.toUInt64.toNat = b.toNat := by cases b <;> rfl

/-- The last bit of an even code. -/
theorem or_bit_toNat {x : UInt64} (b : Bool) (hx : x.toNat % 2 = 0) :
    (x ||| b.toUInt8.toUInt64).toNat = x.toNat + b.toNat := by
  cases b with
  | false =>
    rw [UInt64.toNat_or, bit_toNat, Bool.toNat_false, Nat.or_zero, Nat.add_zero]
  | true => exact @or_two_pow_toNat x _ 0 rfl (by rw [Nat.pow_zero, Nat.div_one]; exact hx)

/-- The code word after a shift. -/
theorem acodShiftedCode (code : SymbolFrequency) (b : Bool) :
    ((code <<< 1) &&& ACOD_STATE_MASK ||| b.toUInt8.toUInt64).toNat = 2 * code.toNat % 2 ^ 32 + b.toNat := by
  have heven : ((code <<< 1) &&& ACOD_STATE_MASK).toNat = 2 * code.toNat % 2 ^ 32 := by
    rw [and_mask_toNat, shiftLeft_one_toNat]
    omega
  rw [or_bit_toNat b (by rw [heven]; omega), heven]

/-- The code word after an underflow. -/
theorem acodUnderflowedCode {code : SymbolFrequency} (b : Bool) (hlow : 2 ^ 30 ≤ code.toNat)
    (hhigh : code.toNat < 3 * 2 ^ 30) :
    (code &&& ACOD_HALF_RANGE ||| (code <<< 1) &&& (ACOD_STATE_MASK >>> 1) ||| b.toUInt8.toUInt64).toNat =
      2 * code.toNat - 2 ^ 31 + b.toNat := by
  have htop : (code &&& ACOD_HALF_RANGE).toNat = code.toNat / 2 ^ 31 % 2 * 2 ^ 31 := and_two_pow_toNat _ rfl
  have hrest : ((code <<< 1) &&& (ACOD_STATE_MASK >>> 1)).toNat = 2 * code.toNat % 2 ^ 31 := by
    rw [UInt64.toNat_and, show (ACOD_STATE_MASK >>> 1).toNat = 2 ^ 31 - 1 from rfl, Nat.and_two_pow_sub_one_eq_mod,
      shiftLeft_one_toNat]
    omega
  have hor : (code &&& ACOD_HALF_RANGE ||| (code <<< 1) &&& (ACOD_STATE_MASK >>> 1)).toNat =
      2 * code.toNat - 2 ^ 31 := by
    rw [UInt64.toNat_or, htop, hrest]
    rcases Nat.lt_or_ge code.toNat (2 ^ 31) with hsmall | hlarge
    · rw [show code.toNat / 2 ^ 31 % 2 = 0 by omega, Nat.zero_mul, Nat.zero_or]
      omega
    · rw [show code.toNat / 2 ^ 31 % 2 = 1 by omega, Nat.mul_comm,
        ← Nat.two_pow_add_eq_or_of_lt (Nat.mod_lt _ (Nat.two_pow_pos 31))]
      omega
  rw [or_bit_toNat b (by rw [hor]; omega), hor]

section
variable {decoder : AcodDecoder} {all : List Bool} {i : Interval} (h : Follows decoder all i)
include h

theorem Follows.code_bounds : decoder.state.low.toNat ≤ decoder.code.toNat ∧
    decoder.code.toNat ≤ decoder.state.high.toNat := by
  obtain ⟨base, hlow, hhigh, hcode⟩ := h.base
  have hcontains := h.contains
  unfold Interval.Contains at hcontains
  omega

theorem acodDecoderShift_follows (hs : acodIsShiftable decoder.state = true) :
    ∃ reader trailing, acodDecoderReadBit decoder = some ((streamOf all i.bits).toUInt8,
        { decoder with reader := reader, trailingZeroesEmitted := trailing }) ∧
      Follows { decoder with
        reader := reader
        trailingZeroesEmitted := trailing
        code := ((decoder.code <<< 1) &&& ACOD_STATE_MASK) ||| (streamOf all i.bits).toUInt8.toUInt64
        state := acodPerformShift decoder.state } all i.zoom ∧
      (i.bits < all.length + 33 → reader.context = decoder.reader.context) := by
  obtain ⟨reader, trailing, hread, hat, hcontext⟩ := acodDecoderReadBit_spec h.at_bits
  obtain ⟨offset, hcases, hlow, hhigh, hok⟩ := acodPerformShift_spec h.state hs
  obtain ⟨base, hbaseLow, hbaseHigh, hbaseCode⟩ := h.base
  obtain ⟨hfrom, hto⟩ := h.code_bounds
  have hlt := h.state.high_lt
  have hshiftable := (acodIsShiftable_iff h.state).mp hs
  have hcode := acodShiftedCode decoder.code (streamOf all i.bits)
  refine ⟨reader, trailing, hread, ⟨⟨hat.reader, hat.unread, hat.trailing⟩, hok, h.received, ⟨2 * base + offset, ?_, ?_, ?_⟩,
    Interval.contains_zoom.mpr h.contains⟩, hcontext⟩
  · show 2 * i.low = 2 * base + offset + (acodPerformShift decoder.state).low.toNat
    omega
  · show 2 * i.high + 1 = 2 * base + offset + (acodPerformShift decoder.state).high.toNat
    omega
  · show 2 * value (streamOf all) i.bits + (streamOf all i.bits).toNat = 2 * base + offset + _
    rw [hcode, hbaseCode]
    rcases hcases with ⟨rfl, hsmall⟩ | ⟨rfl, hlarge⟩ <;> omega

theorem acodDecoderUnderflow_follows (hs : ¬ acodIsShiftable decoder.state = true)
    (hu : acodIsUnderflowable decoder.state = true) :
    ∃ reader trailing, acodDecoderReadBit decoder = some ((streamOf all i.bits).toUInt8,
        { decoder with reader := reader, trailingZeroesEmitted := trailing }) ∧
      Follows { decoder with
        reader := reader
        trailingZeroesEmitted := trailing
        code := (decoder.code &&& ACOD_HALF_RANGE) ||| ((decoder.code <<< 1) &&& (ACOD_STATE_MASK >>> 1)) |||
          (streamOf all i.bits).toUInt8.toUInt64
        state := acodPerformUnderflow decoder.state } all i.zoom ∧
      (i.bits < all.length + 33 → reader.context = decoder.reader.context) := by
  obtain ⟨reader, trailing, hread, hat, hcontext⟩ := acodDecoderReadBit_spec h.at_bits
  obtain ⟨hlow, hhigh, hok, -⟩ := acodPerformUnderflow_spec h.state hs hu
  obtain ⟨base, hbaseLow, hbaseHigh, hbaseCode⟩ := h.base
  obtain ⟨hfrom, hto⟩ := h.code_bounds
  have hquarter := (acodIsUnderflowable_iff h.state hs).mp hu
  have hcode := @acodUnderflowedCode decoder.code (streamOf all i.bits) (by omega) (by omega)
  refine ⟨reader, trailing, hread, ⟨⟨hat.reader, hat.unread, hat.trailing⟩, hok, h.received, ⟨2 * base + 2 ^ 31, ?_, ?_, ?_⟩,
    Interval.contains_zoom.mpr h.contains⟩, hcontext⟩
  · show 2 * i.low = 2 * base + 2 ^ 31 + (acodPerformUnderflow decoder.state).low.toNat
    omega
  · show 2 * i.high + 1 = 2 * base + 2 ^ 31 + (acodPerformUnderflow decoder.state).high.toNat
    omega
  · show 2 * value (streamOf all) i.bits + (streamOf all i.bits).toNat = 2 * base + 2 ^ 31 + _
    rw [hcode, hbaseCode]
    omega

end

theorem acodDecoderShiftLoop_spec {turns : Nat} {decoder : AcodDecoder} {all : List Bool} {i : Interval}
    (h : Follows decoder all i) :
    ∃ decoder', acodDecoderShiftLoop turns decoder = some decoder' ∧
      decoder'.state = (acodShifts turns decoder.state).2 ∧
      Follows decoder' all (Interval.zoom^[(acodShifts turns decoder.state).1] i) ∧
      (i.bits + (acodShifts turns decoder.state).1 ≤ all.length + 33 →
        decoder'.reader.context = decoder.reader.context) := by
  induction turns generalizing decoder i with
  | zero => exact ⟨decoder, rfl, rfl, h, fun _ => rfl⟩
  | succ turns ih =>
    rw [acodDecoderShiftLoop, acodShifts]
    split
    · next hs =>
      obtain ⟨reader, trailing, hread, hfollows, hcontext⟩ := acodDecoderShift_follows h hs
      obtain ⟨decoder', hloop, hstate, hfollows', hcontext'⟩ := ih hfollows
      refine ⟨decoder', ?_, hstate, by rw [Function.iterate_succ_apply]; exact hfollows', ?_⟩
      · simp only [hread, Option.bind_eq_bind, Option.bind_some]
        exact hloop
      · intro hfew
        rw [Interval.zoom_bits] at hcontext'
        dsimp only at hfew hcontext'
        rw [hcontext' (by omega)]
        exact hcontext (by omega)
    · exact ⟨decoder, rfl, rfl, h, fun _ => rfl⟩

theorem acodDecoderUnderflowLoop_spec {turns : Nat} {decoder : AcodDecoder} {all : List Bool} {i : Interval}
    (h : Follows decoder all i) (hs : ¬ acodIsShiftable decoder.state = true) :
    ∃ decoder', acodDecoderUnderflowLoop turns decoder = some decoder' ∧
      decoder'.state = (acodUnderflows turns decoder.state).2 ∧
      Follows decoder' all (Interval.zoom^[(acodUnderflows turns decoder.state).1] i) ∧
      (i.bits + (acodUnderflows turns decoder.state).1 ≤ all.length + 33 →
        decoder'.reader.context = decoder.reader.context) := by
  induction turns generalizing decoder i with
  | zero => exact ⟨decoder, rfl, rfl, h, fun _ => rfl⟩
  | succ turns ih =>
    rw [acodDecoderUnderflowLoop, acodUnderflows]
    split
    · next hu =>
      obtain ⟨reader, trailing, hread, hfollows, hcontext⟩ := acodDecoderUnderflow_follows h hs hu
      obtain ⟨-, -, -, hs'⟩ := acodPerformUnderflow_spec h.state hs hu
      obtain ⟨decoder', hloop, hstate, hfollows', hcontext'⟩ := ih hfollows hs'
      refine ⟨decoder', ?_, hstate, by rw [Function.iterate_succ_apply]; exact hfollows', ?_⟩
      · simp only [hread, Option.bind_eq_bind, Option.bind_some]
        exact hloop
      · intro hfew
        rw [Interval.zoom_bits] at hcontext'
        dsimp only at hfew hcontext'
        rw [hcontext' (by omega)]
        exact hcontext (by omega)
    · exact ⟨decoder, rfl, rfl, h, fun _ => rfl⟩

/-- The first 32 bits put the decoder at the whole range. -/
theorem acodDecoderReadBaseBits_spec {turns : Nat} {decoder : AcodDecoder} {all : List Bool} {n : Nat}
    (h : DecoderAt decoder all n) (hreceived : decoder.baseBitsReceived = n) (hn : n + turns = ACOD_STATE_SIZE_BITS)
    (hcode : decoder.code.toNat = value (streamOf all) n) :
    ∃ decoder', acodDecoderReadBaseBits turns decoder = some decoder' ∧ DecoderAt decoder' all 32 ∧
      decoder'.baseBitsReceived = ACOD_STATE_SIZE_BITS ∧ decoder'.code.toNat = value (streamOf all) 32 ∧
      decoder'.state = decoder.state ∧ decoder'.reader.context = decoder.reader.context := by
  induction turns generalizing decoder n with
  | zero =>
    obtain rfl : n = 32 := hn
    exact ⟨decoder, rfl, h, hreceived, hcode, rfl, rfl⟩
  | succ turns ih =>
    have hsmall : n + turns + 1 = 32 := hn
    obtain ⟨reader, trailing, hread, hat, hcontext⟩ := acodDecoderReadBit_spec h
    have hlt := value_lt (streamOf all) n
    have hpow : 2 ^ n ≤ 2 ^ 31 := Nat.pow_le_pow_right (by decide) (by omega)
    have hdouble : (decoder.code <<< 1).toNat = 2 * value (streamOf all) n := by
      rw [shiftLeft_one_toNat, hcode]
      omega
    obtain ⟨decoder', hloop, hat', hreceived', hcode', hstate', hcontext'⟩ := @ih { decoder with
        reader := reader
        trailingZeroesEmitted := trailing
        code := (decoder.code <<< 1) ||| (streamOf all n).toUInt8.toUInt64
        baseBitsReceived := decoder.baseBitsReceived + 1 } (n + 1) ⟨hat.reader, hat.unread, hat.trailing⟩
      (congrArg (· + 1) hreceived) (show n + 1 + turns = 32 by omega) (by
        rw [or_bit_toNat _ (by rw [hdouble]; omega), hdouble, value])
    refine ⟨decoder', ?_, hat', hreceived', hcode', hstate', hcontext'.trans (hcontext (by omega))⟩
    have hmore : decoder.baseBitsReceived < ACOD_STATE_SIZE_BITS := show _ < 32 by omega
    rw [acodDecoderReadBaseBits, if_pos hmore]
    simp only [hread, Option.bind_eq_bind, Option.bind_some]
    exact hloop

/-! ## Reading a symbol -/

/-- The whole range, in which every stream is. -/
def acodFullInterval : Interval := { low := 0, high := 2 ^ 32 - 1, bits := 32 }

theorem acodFullInterval_contains (stream : Nat → Bool) : acodFullInterval.Contains stream :=
  ⟨Nat.zero_le _, Nat.le_pred_of_lt (value_lt stream 32)⟩

/-- A decoder that has read nothing. -/
structure DecoderFresh (decoder : AcodDecoder) (all : List Bool) : Prop where
  at_start : DecoderAt decoder all 0
  received : decoder.baseBitsReceived = 0
  code : decoder.code = 0
  state : decoder.state = acodStateInit

theorem DecoderFresh.init {r : Reader} (hr : ReaderOK r) : DecoderFresh (acodDecoderInit r) r.unread :=
  ⟨⟨hr, rfl, (Nat.zero_sub _).symm⟩, rfl, rfl, rfl⟩

/-- The first read takes 32 bits. -/
theorem DecoderFresh.read {decoder : AcodDecoder} {all : List Bool} (h : DecoderFresh decoder all) :
    ∃ decoder', (∀ table, acodDecoderRead decoder table = some (acodDecoderProduceSymbol decoder' table)) ∧
      decoder'.state = acodStateInit ∧ Follows decoder' all acodFullInterval ∧
      decoder'.reader.context = decoder.reader.context := by
  obtain ⟨decoder', hloop, hat', hreceived', hcode', hstate', hcontext⟩ :=
    @acodDecoderReadBaseBits_spec 32 decoder all 0 h.at_start h.received rfl (by rw [h.code]; rfl)
  have hinit := hstate'.trans h.state
  have hfirst : decoder.baseBitsReceived < ACOD_STATE_SIZE_BITS := by rw [h.received]; decide
  refine ⟨decoder', fun table => ?_, hinit,
    ⟨hat', by rw [hinit]; exact acodStateInit_ok, hreceived', ⟨0, ?_, ?_, by rw [hcode', Nat.zero_add]; rfl⟩,
      acodFullInterval_contains _⟩, hcontext⟩
  · rw [acodDecoderRead, if_pos hfirst, hloop]
    rfl
  · rw [hinit]
    rfl
  · rw [hinit]
    rfl

/-- Every later read renormalises first. -/
theorem Follows.read {decoder : AcodDecoder} {all : List Bool} {i : Interval} (h : Follows decoder all i) :
    ∃ decoder', (∀ table, acodDecoderRead decoder table = some (acodDecoderProduceSymbol decoder' table)) ∧
      decoder'.state = acodRenormalized decoder.state ∧
      Follows decoder' all (Interval.zoom^[acodRenormalizeTurns decoder.state] i) ∧
      (i.bits + acodRenormalizeTurns decoder.state ≤ all.length + 33 →
        decoder'.reader.context = decoder.reader.context) := by
  obtain ⟨decoder₁, hshift, hstate₁, hfollows₁, hcontext₁⟩ := @acodDecoderShiftLoop_spec 32 _ _ _ h
  obtain ⟨-, hs₁⟩ := @acodShifts_done 32 _ h.state (Nat.le_mul_of_pos_left _ (Nat.succ_pos _))
  rw [← hstate₁] at hs₁
  obtain ⟨decoder₂, hunderflow, hstate₂, hfollows₂, hcontext₂⟩ := @acodDecoderUnderflowLoop_spec 32 _ _ _ hfollows₁ hs₁
  have hlater : ¬ decoder.baseBitsReceived < ACOD_STATE_SIZE_BITS := by
    rw [h.received]
    exact Nat.lt_irrefl _
  have hturns : acodRenormalizeTurns decoder.state =
      (acodShifts 32 decoder.state).1 + (acodUnderflows 32 decoder₁.state).1 := by
    rw [acodRenormalizeTurns, hstate₁]
  rw [Interval.zoom_iterate_bits] at hcontext₂
  refine ⟨decoder₂, fun table => ?_, ?_, ?_, fun hfew => ?_⟩
  · rw [acodDecoderRead, if_neg hlater, hshift]
    simp only [Option.bind_eq_bind, Option.bind_some, hunderflow]
    rfl
  · rw [hstate₂, hstate₁]
    rfl
  · rw [hturns, Nat.add_comm, Function.iterate_add_apply]
    exact hfollows₂
  · rw [hcontext₂ (by omega)]
    exact hcontext₁ (by omega)

/-- What is left of the range is the width of the interval. -/
theorem Follows.range_toNat {decoder : AcodDecoder} {all : List Bool} {i : Interval} (h : Follows decoder all i) :
    (decoder.state.high - decoder.state.low + 1).toNat = decoder.state.high.toNat - decoder.state.low.toNat + 1 ∧
      i.width = decoder.state.high.toNat - decoder.state.low.toNat + 1 := by
  obtain ⟨base, hlow, hhigh, -⟩ := h.base
  have hle := h.state.low_le
  have hlt := h.state.high_lt
  constructor
  · rw [UInt64.toNat_add, UInt64.toNat_sub_of_le _ _ (UInt64.le_iff_toNat_le.mpr hle), show UInt64.toNat 1 = 1 from rfl]
    omega
  · unfold Interval.width
    omega

/-- The value that is looked up is the position of the stream, and below
`2^64` all the way. -/
theorem Follows.value_toNat {decoder : AcodDecoder} {all : List Bool} {i : Interval} {table : Ftable}
    (h : Follows decoder all i) (ht : FtableOK table) (hpos : 0 < table.total.toNat) :
    (decoder.code - decoder.state.low + 1).toNat * table.total.toNat < 2 ^ 64 ∧
      (((decoder.code - decoder.state.low + 1) * table.total - 1) /
        (decoder.state.high - decoder.state.low + 1)).toNat =
        ((value (streamOf all) i.bits - i.low + 1) * table.total.toNat - 1) / i.width := by
  obtain ⟨base, hlow, hhigh, hcode⟩ := h.base
  obtain ⟨hfrom, hto⟩ := h.code_bounds
  obtain ⟨hrange, hwidth⟩ := h.range_toNat
  have hlt := h.state.high_lt
  have htotal := ht.total_le
  have hplus : (decoder.code - decoder.state.low + 1).toNat = value (streamOf all) i.bits - i.low + 1 := by
    rw [UInt64.toNat_add, UInt64.toNat_sub_of_le _ _ (UInt64.le_iff_toNat_le.mpr hfrom), show UInt64.toNat 1 = 1 from rfl]
    omega
  have hmul : (value (streamOf all) i.bits - i.low + 1) * table.total.toNat ≤ 2 ^ 32 * (2 ^ 30 + 2) :=
    Nat.mul_le_mul (by omega) htotal
  have hone : 1 ≤ (value (streamOf all) i.bits - i.low + 1) * table.total.toNat := Nat.mul_pos (Nat.succ_pos _) hpos
  have hsmall : (value (streamOf all) i.bits - i.low + 1) * table.total.toNat < 2 ^ 64 :=
    Nat.lt_of_le_of_lt hmul (by decide)
  have hproduct : ((decoder.code - decoder.state.low + 1) * table.total).toNat =
      (value (streamOf all) i.bits - i.low + 1) * table.total.toNat := by
    rw [UInt64.toNat_mul, hplus]
    exact Nat.mod_eq_of_lt hsmall
  refine ⟨by rw [hplus]; exact hsmall, ?_⟩
  rw [UInt64.toNat_div, hrange, hwidth, UInt64.toNat_sub_of_le, hproduct]
  · rfl
  · rw [UInt64.le_iff_toNat_le, hproduct]
    exact hone

/-- A code word in a symbol's share gives the symbol back. -/
theorem acodDecoderProduceSymbol_spec {decoder : AcodDecoder} {all : List Bool} {i : Interval} {table : Ftable}
    {symbol : Symbol} (h : Follows decoder all i) (hready : AcodStateReady decoder.state) (he : Codable table symbol)
    (hshare : (acodShare i table symbol).Contains (streamOf all)) :
    ∃ decoder', acodDecoderProduceSymbol decoder table = (symbol, decoder') ∧
      decoder'.state = acodShrinkTheRange decoder.state table symbol ∧ decoder'.reader = decoder.reader ∧
      decoder'.code = decoder.code ∧ Follows decoder' all (acodShare i table symbol) := by
  obtain ⟨base, hlow, hhigh, hcode⟩ := h.base
  obtain ⟨-, hwidth⟩ := h.range_toNat
  have hrange := hready.range
  have htotal := he.ok.total_le
  have hbelow := he.ok.exact.below_le (Nat.succ_le_of_lt he.lt)
  have hpos := he.pos
  rw [table.below_succ] at hbelow
  obtain ⟨hvalueLow, hvalueHigh⟩ := Interval.owner_of_narrow (by omega) (by omega) (by omega) hshare
  obtain ⟨-, hvalue⟩ := @Follows.value_toNat _ _ _ table h he.ok (by omega)
  rw [← hvalue] at hvalueLow hvalueHigh
  have hsymbol := acodFindSymbol_spec he.ok.exact (Nat.lt_of_lt_of_le hvalueHigh hbelow) hvalueLow hvalueHigh he.findable
  obtain ⟨hab, -, hshrinkLow, hshrinkHigh, hok⟩ := acodShrinkTheRange_spec hready.toAcodStateOK he.ok he.lt he.pos hrange
  refine ⟨{ decoder with state := acodShrinkTheRange decoder.state table symbol }, ?_, rfl, rfl, rfl,
    ⟨⟨h.at_bits.reader, h.at_bits.unread, h.at_bits.trailing⟩, hok, h.received, ⟨base, ?_, ?_, hcode⟩, hshare⟩⟩
  · simp only [acodDecoderProduceSymbol, hsymbol]
  · show i.low + table.below symbol * i.width / table.total.toNat = base + _
    rw [hshrinkLow, hwidth, hlow, Nat.add_assoc]
  · show i.low + (table.below symbol + table.freq symbol) * i.width / table.total.toNat - 1 = base + _
    rw [hshrinkHigh, hwidth, hlow]
    generalize table.below symbol * (decoder.state.high.toNat - decoder.state.low.toNat + 1) / table.total.toNat = a at hab
    generalize (table.below symbol + table.freq symbol) *
      (decoder.state.high.toNat - decoder.state.low.toNat + 1) / table.total.toNat = b at hab ⊢
    omega

/-- Whatever the stream goes on with, some symbol owns it. -/
theorem Follows.owner {decoder : AcodDecoder} {all : List Bool} {i : Interval} {table : Ftable}
    (h : Follows decoder all i) (ht : FtableOK table) (hlimit : table.length < 2 ^ 15) (hpos : 0 < table.total.toNat) :
    ∃ symbol, Codable table symbol ∧ (acodShare i table symbol).Contains (streamOf all) := by
  have hcontains := h.contains
  have hoffset : value (streamOf all) i.bits - i.low + 1 ≤ i.width := by
    unfold Interval.Contains at hcontains
    unfold Interval.width
    omega
  have hwidth : 0 < i.width := Nat.succ_pos _
  have hlt : ((value (streamOf all) i.bits - i.low + 1) * table.total.toNat - 1) / i.width <
      table.below table.length := by
    have hmul := Nat.mul_le_mul_right table.total.toNat hoffset
    have hone : 0 < (value (streamOf all) i.bits - i.low + 1) * table.total.toNat := Nat.mul_pos (Nat.succ_pos _) hpos
    rw [ht.sum, Nat.div_lt_iff_lt_mul hwidth, Nat.mul_comm table.total.toNat]
    omega
  obtain ⟨symbol, hs, hlow, hhigh⟩ := table.exists_owner hlt
  rw [table.below_succ] at hhigh
  exact ⟨symbol, ⟨⟨ht, hs, by omega⟩, .inl hlimit⟩, Interval.narrow_of_owner hpos hcontains hlow hhigh⟩

end Scomp
