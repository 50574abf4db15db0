/-
A block of the asymmetric-numerals coder comes back in order.

Between two symbols the state is between the total and twice the total. The
encoder sheds bits until the state is below twice the symbol's frequency, the
decoder takes bits back until it is at least the total: the same number.
-/
import Scomp.AsymmetricalNumericSystem.AnsEncoder
import Scomp.ArithmeticCoding.TableRuns
import Scomp.DataStructures.ReaderBytes
import Scomp.DataStructures.WriterFacts
import Scomp.Lib.AsymmetricNumerals

namespace Scomp

open AsymmetricNumerals

variable {table : Ftable} {s : Symbol}

/-! ## The two formulas -/

theorem Encodable.share_le (he : Encodable table s) : table.below s + table.freq s ≤ table.total.toNat := by
  rw [← table.below_succ]
  exact he.ok.exact.below_le (Nat.succ_le_of_lt he.lt)

/-- The next state is exact as long as the state is not far above the
total. -/
theorem ansCalcNextState_spec {state : UInt64} (he : Encodable table s) (hx : state.toNat < 2 * table.total.toNat) :
    ∃ state', ansCalcNextState s state table = some state' ∧
      (state / ftableGetFrequency table s).toNat * table.total.toNat < 2 ^ 64 ∧
      state'.toNat = next (table.freq s) (table.below s) table.total.toNat state.toNat := by
  have hpos := he.pos
  have hshare := he.share_le
  have htotal := he.ok.total_le
  have hfreq : (ftableGetFrequency table s).toNat = table.freq s := rfl
  have hlow := he.ok.exact.low_toNat (Nat.le_of_lt he.lt)
  have hmod := Nat.mod_lt state.toNat hpos
  have hdiv : state.toNat / table.freq s ≤ 2 ^ 31 + 4 := Nat.le_trans (Nat.div_le_self _ _) (by omega)
  have hproduct : state.toNat / table.freq s * table.total.toNat ≤ (2 ^ 31 + 4) * (2 ^ 30 + 2) :=
    Nat.mul_le_mul hdiv htotal
  refine ⟨_, if_pos (show ftableGetFrequency table s > 0 from UInt64.lt_iff_toNat_lt.mpr hpos), ?_, ?_⟩
  · rw [UInt64.toNat_div, hfreq]
    omega
  · rw [UInt64.toNat_add, UInt64.toNat_add, UInt64.toNat_mul, UInt64.toNat_div, UInt64.toNat_mod, hfreq, hlow,
      show (ftableGetTotal table).toNat = table.total.toNat from rfl, next]
    omega

/-- A state that a symbol was taken into gives both back. -/
theorem ansCalcPrevState_spec {state : UInt64} {x : Nat} (he : Encodable table s)
    (hstate : state.toNat = next (table.freq s) (table.below s) table.total.toNat x) (hx : x < 2 * table.freq s) :
    ∃ state', ansCalcPrevState s state table = some state' ∧
      (ftableGetFrequency table s).toNat * (state / table.total).toNat < 2 ^ 64 ∧ state'.toNat = x := by
  have hpos := he.pos
  have hshare := he.share_le
  have htotal := he.ok.total_le
  have hfreq : (ftableGetFrequency table s).toNat = table.freq s := rfl
  have hlow := he.ok.exact.low_toNat (Nat.le_of_lt he.lt)
  have hdiv := @next_div _ _ _ x hpos hshare
  have hmod := @next_mod _ _ _ x hpos hshare
  have hprev := @prev_next _ _ _ x hpos hshare
  have hproduct : table.freq s * (x / table.freq s) ≤ x := Nat.mul_div_le x _
  have hle : ftableGetLow table s ≤ state % ftableGetTotal table := by
    rw [UInt64.le_iff_toNat_le, UInt64.toNat_mod, hlow, hstate,
      show (ftableGetTotal table).toNat = table.total.toNat from rfl, hmod]
    exact Nat.le_add_left _ _
  refine ⟨_, if_pos (UInt64.lt_iff_toNat_lt.mpr ?_), ?_, ?_⟩
  · show 0 < table.total.toNat
    omega
  · rw [UInt64.toNat_div, hstate, hfreq, hdiv]
    omega
  · rw [prev, hdiv, hmod] at hprev
    rw [UInt64.toNat_add, UInt64.toNat_mul, UInt64.toNat_sub_of_le _ _ hle, UInt64.toNat_div, UInt64.toNat_mod, hfreq,
      hlow, hstate, show (ftableGetTotal table).toNat = table.total.toNat from rfl, hdiv, hmod]
    omega

/-- The decoder finds the symbol that was taken in. -/
theorem ansFindSymbolByOffset_spec {offset : UInt64} (h : table.Exact) (hs : s < table.length)
    (hfindable : table.length < 2 ^ 15 ∨ table.length = 2 ^ 15 ∧ s = 0)
    (hlow : table.below s ≤ offset.toNat) (hhigh : offset.toNat < table.below s + table.freq s) :
    ansFindSymbolByOffset table offset = some s := by
  have hshare := h.below_le (Nat.succ_le_of_lt hs)
  have hlow' := h.low_toNat (Nat.le_of_lt hs)
  have hsmall := table.total.toNat_lt
  rw [table.below_succ] at hshare
  unfold ansFindSymbolByOffset
  dsimp only
  rw [acodFindSymbol_spec h (Nat.lt_of_lt_of_le hhigh hshare) hlow hhigh hfindable]
  have hfreq : (ftableGetFrequency table s).toNat = table.freq s := rfl
  refine if_pos ⟨UInt64.lt_iff_toNat_lt.mpr ?_, ?_, ?_⟩
  · show 0 < table.freq s
    omega
  · rw [UInt64.le_iff_toNat_le, hlow']
    exact hlow
  · rw [UInt64.lt_iff_toNat_lt, UInt64.toNat_add, hlow', hfreq]
    omega

/-- Over 32768 symbols it finds the first one or its assertions fail. -/
theorem ansFindSymbolByOffset_wraps (h : table.length = 2 ^ 15) {offset : UInt64}
    (hfind : ansFindSymbolByOffset table offset = some s) : s = 0 ∧ offset < ftableGetFrequency table 0 := by
  unfold ansFindSymbolByOffset at hfind
  dsimp only at hfind
  rw [acodFindSymbol_wraps h] at hfind
  split at hfind
  · next hasserted =>
    cases hfind
    obtain ⟨-, -, hlt⟩ := hasserted
    rw [ftableGetLow, if_pos rfl, UInt64.zero_add] at hlt
    exact ⟨rfl, hlt⟩
  · cases hfind

/-! ## The two loops -/

theorem shiftRight_one_toNat (x : UInt64) : (x >>> 1).toNat = x.toNat / 2 := by
  rw [UInt64.toNat_shiftRight]
  rfl

theorem lowestBit_eq (x : UInt64) : (x &&& 1 != 0) = x.toNat.testBit 0 := by
  have hand : (x &&& 1).toNat = x.toNat % 2 := by
    rw [UInt64.toNat_and, show UInt64.toNat 1 = 1 from rfl, Nat.and_one_is_mod]
  have hiff : x &&& 1 ≠ 0 ↔ x.toNat % 2 = 1 := by
    rw [ne_eq, ← UInt64.toNat_inj, hand, show UInt64.toNat 0 = 0 from rfl]
    omega
  rw [Nat.testBit_zero, Bool.eq_iff_iff, bne_iff_ne, hiff, decide_eq_true_iff]

/-- **The encoder's loop** sheds bits until the state is below twice the
frequency. -/
theorem ansShedBits_spec {turns : Nat} {w : Writer} {state predicted : UInt64} (he : Encodable table s) (hw : WriterOK w)
    (hle : table.freq s ≤ state.toNat) (hlt : state.toNat < 2 * table.total.toNat)
    (hpredicted : predicted.toNat = next (table.freq s) (table.below s) table.total.toNat state.toNat)
    (hturns : state.toNat < 2 ^ turns) :
    ∃ k w' state', ansShedBits s table table.total turns w state predicted = some (w', state') ∧ WriterOK w' ∧
      w'.bits = w.bits ++ lowBits k state.toNat ∧ table.freq s ≤ state.toNat / 2 ^ k ∧
      state.toNat / 2 ^ k < 2 * table.freq s ∧
      state'.toNat = next (table.freq s) (table.below s) table.total.toNat (state.toNat / 2 ^ k) := by
  have hpos := he.pos
  have hshare := he.share_le
  induction turns generalizing w state predicted with
  | zero =>
    rw [Nat.pow_zero] at hturns
    omega
  | succ turns ih =>
    have hguard : predicted >>> 1 ≥ table.total ↔ 2 * table.freq s ≤ state.toNat := by
      rw [ge_iff_le, UInt64.le_iff_toNat_le, shiftRight_one_toNat, hpredicted,
        ← two_mul_le_next_iff hpos hshare]
      omega
    rw [ansShedBits]
    by_cases hlarge : 2 * table.freq s ≤ state.toNat
    · rw [if_pos (hguard.mpr hlarge)]
      obtain ⟨predicted', hnext, -, hpredicted'⟩ := @ansCalcNextState_spec _ _ (state >>> 1) he
        (by rw [shiftRight_one_toNat]; omega)
      obtain ⟨hok, hbits⟩ := @writerWriteBit_spec w (state &&& 1 != 0) hw
      obtain ⟨k, w', state', hloop, hok', hbits', hle', hlt', hstate'⟩ := ih hok
        (by rw [shiftRight_one_toNat]; omega) (by rw [shiftRight_one_toNat]; omega) hpredicted'
        (by rw [shiftRight_one_toNat]; rw [Nat.pow_succ] at hturns; omega)
      have hdiv : state.toNat / 2 / 2 ^ k = state.toNat / 2 ^ (k + 1) := by
        rw [Nat.div_div_eq_div_mul, Nat.pow_succ, Nat.mul_comm]
      rw [shiftRight_one_toNat] at hbits' hle' hlt' hstate'
      rw [hdiv] at hle' hlt' hstate'
      refine ⟨k + 1, w', state', by simp [hnext, hloop], hok', ?_, hle', hlt', hstate'⟩
      rw [hbits', hbits, lowBits_cons, lowestBit_eq, List.append_assoc]
      rfl
    · rw [if_neg (fun hn => hlarge (hguard.mp hn))]
      refine ⟨0, w, predicted, rfl, hw, by simp [lowBits], ?_, ?_, ?_⟩
      · rw [Nat.pow_zero, Nat.div_one]
        exact hle
      · rw [Nat.pow_zero, Nat.div_one]
        exact Nat.not_le.mp hlarge
      · rw [Nat.pow_zero, Nat.div_one]
        exact hpredicted

/-- **The decoder's loop** takes exactly those bits back. -/
theorem ansTakeBits_spec {total : UInt64} {k turns x : Nat} {decoder : AnsDecoder} {rest : List Bool}
    (hr : decoder.reader.Readable) (hunread : decoder.reader.unread = (lowBits k x).reverse ++ rest)
    (hstate : decoder.state.toNat = x / 2 ^ k) (hle : total.toNat ≤ x) (hlt : x < 2 * total.toNat)
    (htotal : total.toNat < 2 ^ 62) (hturns : k < turns) :
    ∃ decoder', ansTakeBits total turns decoder = some decoder' ∧ decoder'.reader.Readable ∧
      decoder'.reader.unread = rest ∧ decoder'.reader.context = decoder.reader.context ∧ decoder'.state.toNat = x := by
  induction k generalizing turns decoder with
  | zero =>
    obtain ⟨turns, rfl⟩ := Nat.exists_eq_add_of_lt hturns
    rw [Nat.pow_zero, Nat.div_one] at hstate
    refine ⟨decoder, ?_, hr, by simpa [lowBits] using hunread, rfl, hstate⟩
    rw [Nat.zero_add, ansTakeBits, if_neg]
    rw [UInt64.lt_iff_toNat_lt, hstate]
    omega
  | succ k ih =>
    obtain ⟨turns, rfl⟩ : ∃ more, turns = more + 1 := ⟨turns - 1, by omega⟩
    rw [lowBits_succ, List.reverse_append, List.reverse_singleton, List.singleton_append, List.cons_append] at hunread
    obtain ⟨r', hread, hr', hunread', hcontext, -, -⟩ := readerReadBit_cons hr hunread
    have hmissing := div_pow_lt hlt k
    have hbit : ((x.testBit k).toUInt8.toUInt64).toNat = (x.testBit k).toNat := by cases x.testBit k <;> rfl
    have hstate' : ((decoder.state <<< 1) ||| (x.testBit k).toUInt8.toUInt64).toNat = x / 2 ^ k := by
      have hdouble : (decoder.state <<< 1).toNat = 2 ^ 1 * (x / 2 ^ (k + 1)) := by
        rw [shiftLeft_one_toNat, hstate]
        omega
      rw [UInt64.toNat_or, hdouble, hbit, div_pow_eq k x,
        ← Nat.two_pow_add_eq_or_of_lt (show (x.testBit k).toNat < 2 ^ 1 from Bool.toNat_lt _)]
    obtain ⟨decoder', hloop, hr'', hunread'', hcontext', hx⟩ := @ih turns
      { reader := r', state := (decoder.state <<< 1) ||| (x.testBit k).toUInt8.toUInt64 } hr' hunread' hstate'
      (Nat.lt_of_succ_lt_succ hturns)
    refine ⟨decoder', ?_, hr'', hunread'', hcontext'.trans hcontext, hx⟩
    rw [ansTakeBits, if_pos (by rw [UInt64.lt_iff_toNat_lt, hstate]; exact hmissing), hread]
    exact hloop

/-! ## One symbol -/

/-- What taking in a symbol does safely: the next state is between the total
and twice the total, and no product wraps, neither in any turn of the
encoder's loop nor in the decoder. -/
structure AnsStepSafe (table : Ftable) (s : Symbol) (state state' : UInt64) : Prop where
  total_le : table.total.toNat ≤ state'.toNat
  lt_total : state'.toNat < 2 * table.total.toNat
  nextProduct : ∀ k, ((fun x : UInt64 => x >>> 1)^[k] state / ftableGetFrequency table s).toNat * table.total.toNat < 2 ^ 64
  prevProduct : (ftableGetFrequency table s).toNat * (state' / table.total).toNat < 2 ^ 64

theorem shiftRight_iterate_toNat (k : Nat) (x : UInt64) : ((fun x : UInt64 => x >>> 1)^[k] x).toNat ≤ x.toNat := by
  induction k with
  | zero => exact Nat.le_refl _
  | succ k ih =>
    rw [Function.iterate_succ_apply', shiftRight_one_toNat]
    exact Nat.le_trans (Nat.div_le_self _ 2) ih

/-- **One symbol**: what it writes takes the decoder back from the state
after it to the state before. -/
theorem ansEncoderWriteSymbol_spec {w : Writer} {state : UInt64} (he : Encodable table s) (hw : WriterOK w)
    (hle : table.total.toNat ≤ state.toNat) (hlt : state.toNat < 2 * table.total.toNat) :
    ∃ bits w' state', ansEncoderWriteSymbol w state table table.total s false = some (w', state', table) ∧
      WriterOK w' ∧ w'.bits = w.bits ++ bits ∧ AnsStepSafe table s state state' ∧
      (table.length < 2 ^ 15 ∨ table.length = 2 ^ 15 ∧ s = 0 →
        ∀ reader rest, reader.Readable → reader.unread = bits.reverse ++ rest →
        ∃ reader', ansDecoderRead { reader := reader, state := state' } table =
            some (s, { reader := reader', state := state }) ∧ reader'.Readable ∧ reader'.unread = rest ∧
          reader'.context = reader.context) := by
  have hpos := he.pos
  have hshare := he.share_le
  have htotal := he.ok.total_le
  have hsmall := state.toNat_lt
  obtain ⟨predicted, hnext, -, hpredicted⟩ := ansCalcNextState_spec he hlt
  obtain ⟨k, w', state', hloop, hok, hbits, hle', hlt', hstate'⟩ := @ansShedBits_spec _ _ 65 _ _ _ he hw (by omega)
    hlt hpredicted (by omega)
  have hlow : table.total.toNat ≤ state'.toNat := by
    rw [hstate']
    exact le_next hpos hshare hle'
  have hhigh : state'.toNat < 2 * table.total.toNat := by
    rw [hstate', ← Nat.not_le, two_mul_le_next_iff hpos hshare, Nat.not_le]
    exact hlt'
  obtain ⟨prevState, hprev, hproduct, hprevState⟩ := ansCalcPrevState_spec he hstate' hlt'
  refine ⟨lowBits k state.toNat, w', state', by simp [ansEncoderWriteSymbol, hnext, hloop], hok, hbits,
    ⟨hlow, hhigh, fun j => ?_, hproduct⟩, fun hfindable reader rest hr hunread => ?_⟩
  · have hj := shiftRight_iterate_toNat j state
    obtain ⟨-, -, hnextProduct, -⟩ := @ansCalcNextState_spec _ _ ((fun x : UInt64 => x >>> 1)^[j] state) he (by omega)
    exact hnextProduct
  · have hmod := @next_mod _ _ _ (state.toNat / 2 ^ k) hpos hshare
    have hrem := Nat.mod_lt (state.toNat / 2 ^ k) hpos
    have hoffset : (state' % table.total).toNat = state.toNat / 2 ^ k % table.freq s + table.below s := by
      rw [UInt64.toNat_mod, hstate', hmod]
    have hfind := @ansFindSymbolByOffset_spec _ _ (state' % table.total) he.ok.exact he.lt hfindable (by omega) (by omega)
    have hk : k < 64 := by
      have hpow : 2 ^ k ≤ state.toNat := by
        rw [← Nat.one_mul (2 ^ k), ← Nat.le_div_iff_mul_le (Nat.two_pow_pos k)]
        omega
      exact (Nat.pow_lt_pow_iff_right (by decide)).mp (Nat.lt_of_le_of_lt hpow hsmall)
    obtain ⟨decoder', htake, hr', hunread', hcontext, hback⟩ := @ansTakeBits_spec table.total k
      ((readerGetBitsAvailable reader).toNat + 65) _ { reader := reader, state := prevState } rest hr hunread
      hprevState hle hlt (by omega) (by omega)
    obtain ⟨reader', state''⟩ := decoder'
    obtain rfl : state'' = state := UInt64.toNat_inj.mp hback
    have hne : ¬ table.total = 0 := by
      rw [← UInt64.toNat_inj]
      show ¬ table.total.toNat = 0
      omega
    refine ⟨reader', ?_, hr', hunread', hcontext⟩
    simp [ansDecoderRead, ftableGetTotal, hne, hfind, hprev, htake]

/-! ## The block -/

theorem ansDecoderReadAll_cons {decoder decoder₁ decoder₂ : AnsDecoder} {block : List Symbol}
    (hread : ansDecoderRead decoder table = some (s, decoder₁))
    (hall : ansDecoderReadAll decoder₁ table block.length = some (block, decoder₂)) :
    ansDecoderReadAll decoder table (s :: block).length = some (s :: block, decoder₂) := by
  simp [ansDecoderReadAll, hread, hall]

/-- **A block**, by induction on its symbols from the last: the decoder
unwinds what the encoder wound up. -/
theorem ansEncoderWriteSymbols_spec {w : Writer} {block : List Symbol} (htotal : 0 < table.total.toNat) (hw : WriterOK w)
    (hblock : ∀ s ∈ block, Encodable table s) :
    ∃ bits w' state, ansEncoderWriteSymbols w table table.total false block = some (w', state, table) ∧ WriterOK w' ∧
      w'.bits = w.bits ++ bits ∧ table.total.toNat ≤ state.toNat ∧ state.toNat < 2 * table.total.toNat ∧
      ((∀ s ∈ block, table.length < 2 ^ 15 ∨ table.length = 2 ^ 15 ∧ s = 0) →
        ∀ reader rest, reader.Readable → reader.unread = bits.reverse ++ rest →
        ∃ reader', ansDecoderReadAll { reader := reader, state := state } table block.length =
            some (block, { reader := reader', state := table.total }) ∧ reader'.unread = rest ∧
          reader'.context = reader.context) := by
  induction block with
  | nil => exact ⟨[], w, table.total, rfl, hw, by simp, Nat.le_refl _, by omega,
      fun _ reader rest _ hunread => ⟨reader, rfl, hunread, rfl⟩⟩
  | cons s block ih =>
    obtain ⟨hs, hrest⟩ := List.forall_mem_cons.mp hblock
    obtain ⟨bits, w₁, state, hwrite, hok, hbits, hle, hlt, hdecode⟩ := ih hrest
    obtain ⟨bits', w', state', hwrite', hok', hbits', hsafe, hdecode'⟩ := ansEncoderWriteSymbol_spec hs hok hle hlt
    refine ⟨bits ++ bits', w', state', by simp [ansEncoderWriteSymbols, hwrite, hwrite'], hok', ?_, hsafe.total_le,
      hsafe.lt_total, fun hfindable reader rest hr hunread => ?_⟩
    · rw [hbits', hbits, List.append_assoc]
    · rw [List.reverse_append, List.append_assoc] at hunread
      obtain ⟨hfirst, hlater⟩ := List.forall_mem_cons.mp hfindable
      obtain ⟨reader₁, hread, hr₁, hunread₁, hcontext⟩ := hdecode' hfirst reader _ hr hunread
      obtain ⟨reader', hall, hunread', hcontext'⟩ := hdecode hlater reader₁ rest hr₁ hunread₁
      exact ⟨reader', ansDecoderReadAll_cons hread hall, hunread', hcontext'.trans hcontext⟩

/-- From a table of 32768 symbols only the first symbol is ever read. -/
theorem ansDecoderReadAll_wraps {decoder decoder' : AnsDecoder} {block : List Symbol} (h : table.length = 2 ^ 15)
    (hall : ansDecoderReadAll decoder table block.length = some (block, decoder')) : ∀ s ∈ block, s = 0 := by
  induction block generalizing decoder with
  | nil => exact fun s hs => absurd hs List.not_mem_nil
  | cons first block ih =>
    rw [List.length_cons, ansDecoderReadAll] at hall
    obtain ⟨⟨s, decoder₁⟩, hread, hall⟩ := Option.bind_eq_some_iff.mp hall
    obtain ⟨⟨rest, decoder₂⟩, hrest, hresult⟩ := Option.bind_eq_some_iff.mp hall
    obtain ⟨⟨rfl, rfl⟩, rfl⟩ : (s = first ∧ rest = block) ∧ decoder₂ = decoder' := by simpa using hresult
    refine List.forall_mem_cons.mpr ⟨?_, ih hrest⟩
    rw [ansDecoderRead] at hread
    dsimp only at hread
    split at hread
    · cases hread
    · obtain ⟨found, hfind, hread⟩ := Option.bind_eq_some_iff.mp hread
      obtain ⟨state, -, hread⟩ := Option.bind_eq_some_iff.mp hread
      obtain ⟨taken, -, hread⟩ := Option.bind_eq_some_iff.mp hread
      obtain ⟨rfl, -⟩ : found = s ∧ taken = decoder₁ := by simpa using hread
      exact (ansFindSymbolByOffset_wraps h hfind).1

/-- Any bits can be given to a reader, with zeroes that fill its last byte. -/
theorem exists_reader_unread (bits : List Bool) :
    ∃ reader padding, ReaderOK reader ∧ reader.unread = bits ++ List.replicate padding false := by
  have hwriter : ∃ w, WriterOK w ∧ w.bits = bits := by
    induction bits using List.reverseRecOn with
    | nil => exact ⟨writerInit [0], .init (by decide), writerInit_bits [0]⟩
    | append_singleton bits bit ih =>
      obtain ⟨w, hw, hbits⟩ := ih
      obtain ⟨hok, hwritten⟩ := @writerWriteBit_spec w bit hw
      exact ⟨writerWriteBit w bit, hok, by rw [hwritten, hbits]⟩
  obtain ⟨w, hw, rfl⟩ := hwriter
  obtain ⟨bytes, padding, -, -, hbytes, -⟩ := @writerConsumeAllBuffers_spec w contextInit hw rfl
  obtain ⟨reader, -, hat, hread, -⟩ := (Reader.AtByte.init contextInit).push
    (show 0 < (bufferMake (bytes ++ [0])).length by simp [bufferMake])
  refine ⟨reader, padding + 8, hat.ok, ?_⟩
  rw [Reader.unread_eq_ofBytes hat.aligned, hread, readerInit_unreadBytes, bufferMake_bytes, List.nil_append,
    Bits.ofBytes_append, hbytes, List.append_assoc, List.replicate_add]
  rfl

/-- **Block round trip.** The encoder ends with a state and some bits; from
that state and the bits in reverse the decoder reads the block in its order,
takes all of the bits and no others, and ends at the total. In between the
state stays in its bounds and no product wraps. -/
def AnsBlockRoundTrips (table : Ftable) (block : List Symbol) (w : Writer) : Prop :=
  ∃ bits w' state, ansEncoderWriteBlock w block table false = some (state, w', table) ∧ w'.bits = w.bits ++ bits ∧
    (∀ reader rest, reader.Readable → reader.unread = bits.reverse ++ rest →
      ∃ reader', ansDecoderReadAll { reader := reader, state := state } table block.length =
          some (block, { reader := reader', state := table.total }) ∧ reader'.unread = rest ∧
        reader'.context = reader.context) ∧
    ∀ before s after, block = before ++ s :: after → ∃ w₁ state₁ w₂ state₂,
      ansEncoderWriteSymbols w table table.total false after = some (w₁, state₁, table) ∧
        ansEncoderWriteSymbols w table table.total false (s :: after) = some (w₂, state₂, table) ∧
        AnsStepSafe table s state₁ state₂

theorem AnsBlockRoundTrips.of_findable {block : List Symbol} {w : Writer} (hblock : block ≠ [])
    (he : ∀ s ∈ block, Encodable table s) (hw : WriterOK w)
    (hfindable : ∀ s ∈ block, table.length < 2 ^ 15 ∨ table.length = 2 ^ 15 ∧ s = 0) : AnsBlockRoundTrips table block w := by
  obtain ⟨first, hfirst⟩ := List.exists_mem_of_ne_nil block hblock
  have htotal : 0 < table.total.toNat := by
    have hpos := (he first hfirst).pos
    have hshare := (he first hfirst).share_le
    omega
  obtain ⟨bits, w', state, hwrite, -, hbits, -, -, hdecode⟩ := ansEncoderWriteSymbols_spec htotal hw he
  refine ⟨bits, w', state, ?_, hbits, hdecode hfindable, ?_⟩
  · rw [ansEncoderWriteBlock, if_pos (List.length_pos_iff.mpr hblock), ftableGetTotal, hwrite]
    rfl
  · rintro before s after rfl
    obtain ⟨hpair, hafter⟩ := List.forall_mem_cons.mp (List.forall_mem_append.mp he).2
    obtain ⟨-, w₁, state₁, hwrite₁, hok, -, hle, hlt, -⟩ := ansEncoderWriteSymbols_spec htotal hw hafter
    obtain ⟨-, w₂, state₂, hwrite₂, -, -, hsafe, -⟩ := ansEncoderWriteSymbol_spec hpair hok hle hlt
    exact ⟨w₁, state₁, w₂, state₂, hwrite₁, by simp [ansEncoderWriteSymbols, hwrite₁, hwrite₂], hsafe⟩

theorem AnsBlockRoundTrips.zeroes {block : List Symbol} {w : Writer} (h : AnsBlockRoundTrips table block w)
    (hwraps : table.length = 2 ^ 15) : ∀ s ∈ block, s = 0 := by
  obtain ⟨bits, -, state, -, -, hdecode, -⟩ := h
  obtain ⟨reader, padding, hreader, hunread⟩ := exists_reader_unread bits.reverse
  obtain ⟨_, hall, -⟩ := hdecode reader _ hreader.toReadable hunread
  exact ansDecoderReadAll_wraps hwraps hall

/-- **When a block comes back**: if its table has at most 32767 symbols or all
of it is the first one. -/
theorem ans_block_round_trip_iff (table : Ftable) (block : List Symbol) (w : Writer) (ht : FtableOK table)
    (hlength : table.length ≤ 2 ^ 15) (hblock : block ≠ [])
    (hs : ∀ s ∈ block, s < table.length ∧ 0 < ftableGetFrequency table s) (hw : WriterOK w) :
    AnsBlockRoundTrips table block w ↔ table.length < 2 ^ 15 ∨ ∀ s ∈ block, s = 0 := by
  have he : ∀ s ∈ block, Encodable table s := fun s hmem => ⟨ht, (hs s hmem).1, UInt64.lt_iff_toNat_lt.mp (hs s hmem).2⟩
  rcases Nat.lt_or_eq_of_le hlength with hlt | hwraps
  · exact ⟨fun _ => .inl hlt, fun _ => .of_findable hblock he hw fun s _ => .inl hlt⟩
  · refine ⟨fun h => .inr (h.zeroes hwraps), fun h => .of_findable hblock he hw fun s hmem => .inr ⟨hwraps, ?_⟩⟩
    exact h.resolve_left (Nat.not_lt.mpr (Nat.le_of_eq hwraps.symm)) s hmem

/-- A block of two symbols, one of them counted twice. -/
theorem ans_block_round_trip_two : AnsBlockRoundTrips (ftableRun 2 FTABLE_INIT_ONE [1]) [1, 0] (writerInit [0]) := by
  have htable : FtableReachable (ftableRun 2 FTABLE_INIT_ONE [1]) := ⟨2, FTABLE_INIT_ONE, [1], by decide, by decide, rfl⟩
  refine (ans_block_round_trip_iff (ftableRun 2 FTABLE_INIT_ONE [1]) [1, 0] (writerInit [0]) htable.ok (by decide)
    (by decide) ?_ (.init (by decide))).mpr (.inl (by decide))
  simp only [List.forall_mem_cons, List.not_mem_nil, false_implies, implies_true, and_true, UInt64.lt_iff_toNat_lt]
  decide

/-- The second symbol of the largest table is never read back. -/
theorem ans_block_round_trip_fails :
    FtableOK ftableLargest ∧ 1 < ftableLargest.length ∧ 0 < ftableGetFrequency ftableLargest 1 ∧
      WriterOK (writerInit [0]) ∧ ¬ AnsBlockRoundTrips ftableLargest [1] (writerInit [0]) := by
  obtain ⟨hok, hlength, -, hones⟩ := ftableLargest_spec
  generalize ftableLargest = table at *
  refine ⟨hok, by rw [hlength]; decide, UInt64.lt_iff_toNat_lt.mpr ?_, .init (by decide), fun h => ?_⟩
  · rw [show (ftableGetFrequency table 1).toNat = 1 from hones 1 (by decide)]
    decide
  · exact Nat.one_ne_zero (h.zeroes hlength 1 (List.mem_singleton_self 1))

end Scomp
