/-
How the decoder gets through its input, and what it does after the end.

A read makes the interval smaller or takes bits, so enough reads use up the
input. The zeroes after it leave the code word two places: the low end of
the interval, where it stays, or the middle of the whole range.
-/
import Scomp.ArithmeticCoding.DecoderSafety

namespace Scomp

open IntervalCoding

/-- Nothing is left to read, and the code word is the lowest. -/
def AcodDecoder.Starved (decoder : AcodDecoder) : Prop :=
  readerGetBitsAvailable decoder.reader = 0 ∧ decoder.code = decoder.state.low

/-- The underflow error has been set, and the interval lies on both sides of
the code word `100..0`. -/
def AcodDecoder.OnMidpoint (decoder : AcodDecoder) : Prop :=
  ACOD_STATE_SIZE_BITS + 1 < decoder.trailingZeroesEmitted ∧ decoder.code = ACOD_HALF_RANGE ∧
    decoder.state.low < ACOD_HALF_RANGE

instance (decoder : AcodDecoder) : Decidable decoder.Starved := inferInstanceAs (Decidable (_ ∧ _))

instance (decoder : AcodDecoder) : Decidable decoder.OnMidpoint := inferInstanceAs (Decidable (_ ∧ _ ∧ _))

theorem DecoderAt.exhausted_iff {decoder : AcodDecoder} {all : List Bool} {n : Nat} (h : DecoderAt decoder all n) :
    readerGetBitsAvailable decoder.reader = 0 ↔ all.length ≤ n := by
  rw [readerGetBitsAvailable_eq h.reader, h.unread, List.length_drop]
  omega

/-! ## The low end -/

theorem Follows.starved_iff {decoder : AcodDecoder} {all : List Bool} {i : Interval} (h : Follows decoder all i) :
    decoder.Starved ↔ all.length ≤ i.bits ∧ i.AtBottom (streamOf all) := by
  obtain ⟨base, hlow, -, hcode⟩ := h.base
  rw [AcodDecoder.Starved, h.at_bits.exhausted_iff, ← UInt64.toNat_inj, Interval.AtBottom, hlow, hcode,
    Nat.add_left_cancel_iff]

structure DecoderStarved (all : List Bool) (decoder : AcodDecoder) : Prop where
  between : DecoderBetween decoder all
  starved : decoder.Starved

/-- **A starved decoder stays starved**, and all it reads is the first
symbol. -/
theorem DecoderStarved.read {decoder : AcodDecoder} {all : List Bool} {table : Ftable} (h : DecoderStarved all decoder)
    (he : Codable table 0) : ∃ decoder', acodDecoderRead decoder table = some (0, decoder') ∧ DecoderStarved all decoder' := by
  obtain ⟨hbetween, hstarved⟩ := h
  have hready : ∃ ready i, (∀ table, acodDecoderRead decoder table = some (acodDecoderProduceSymbol ready table)) ∧
      Follows ready all i ∧ AcodStateReady ready.state ∧ all.length ≤ i.bits ∧ i.AtBottom (streamOf all) := by
    cases hbetween with
    | fresh hfresh =>
      obtain ⟨ready, hread, hstate, hfollows, -⟩ := hfresh.read
      have hnone := hfresh.at_start.exhausted_iff.mp hstarved.1
      have hzero : value (streamOf all) (0 + 32) = 0 := by rw [value_zeroes (streamOf_zeroes hnone), value, Nat.zero_mul]
      rw [Nat.zero_add] at hzero
      exact ⟨ready, _, hread, hfollows, by rw [hstate]; exact acodStateInit_ready, Nat.le_trans hnone (Nat.zero_le _), hzero⟩
    | following i hfollows =>
      obtain ⟨ready, hread, hstate, hfollows', -⟩ := hfollows.read
      obtain ⟨hbits, hbottom⟩ := hfollows.starved_iff.mp hstarved
      refine ⟨ready, _, hread, hfollows', by rw [hstate]; exact acodRenormalized_ready hfollows.state, ?_,
        hbottom.zoom_iterate (streamOf_zeroes hbits) _⟩
      rw [Interval.zoom_iterate_bits]
      exact Nat.le_trans hbits (Nat.le_add_right _ _)
  obtain ⟨ready, i, hread, hfollows, hstate, hbits, hbottom⟩ := hready
  obtain ⟨-, hwidth⟩ := hfollows.range_toNat
  have hrange := hstate.range
  have htotal := he.ok.total_le
  have hbelow := he.ok.exact.below_le (Nat.succ_le_of_lt he.lt)
  have hpos := he.pos
  have hfirst : acodShare i table 0 = i.narrow 0 (table.freq 0) table.total.toNat := by simp [acodShare, Ftable.below]
  rw [table.below_succ] at hbelow
  obtain ⟨hbottom', hcontains⟩ := hbottom.narrow hpos (by omega) (show table.total.toNat ≤ i.width by omega)
  rw [← hfirst] at hbottom' hcontains
  obtain ⟨decoder', hproduce, -, -, -, hfollows'⟩ := acodDecoderProduceSymbol_spec hfollows hstate he hcontains
  exact ⟨decoder', by rw [hread, hproduce], ⟨.following _ hfollows', hfollows'.starved_iff.mpr ⟨hbits, hbottom'⟩⟩⟩

/-! ## Progress -/

theorem acodInterval_shifts {turns : Nat} {state : AcodState} (h : AcodStateOK state) (written : List Bool)
    (underflows : Nat) :
    ∃ written' underflows', Interval.zoom^[(acodShifts turns state).1] (acodInterval written underflows state) =
      acodInterval written' underflows' (acodShifts turns state).2 := by
  induction turns generalizing state written underflows with
  | zero => exact ⟨written, underflows, rfl⟩
  | succ turns ih =>
    rw [acodShifts]
    split
    · next hs =>
      obtain ⟨-, -, -, -, hok⟩ := acodPerformShift_spec h hs
      rw [Function.iterate_succ_apply, ← acodInterval_shift written underflows h hs]
      exact ih hok _ _
    · exact ⟨written, underflows, rfl⟩

theorem acodInterval_underflows {turns : Nat} {state : AcodState} (h : AcodStateOK state)
    (hs : ¬ acodIsShiftable state = true) (written : List Bool) (underflows : Nat) :
    ∃ underflows', Interval.zoom^[(acodUnderflows turns state).1] (acodInterval written underflows state) =
      acodInterval written underflows' (acodUnderflows turns state).2 := by
  induction turns generalizing state underflows with
  | zero => exact ⟨underflows, rfl⟩
  | succ turns ih =>
    rw [acodUnderflows]
    split
    · next hu =>
      obtain ⟨-, -, hok, hs'⟩ := acodPerformUnderflow_spec h hs hu
      rw [Function.iterate_succ_apply, ← acodInterval_underflow written underflows h hs hu]
      exact ih hok hs' _
    · exact ⟨underflows, rfl⟩

/-- The state leaves a multiple of half the range to what was written. -/
theorem acodInterval_renormalized {state : AcodState} (h : AcodStateOK state) (written : List Bool) (underflows : Nat) :
    ∃ written' underflows', Interval.zoom^[acodRenormalizeTurns state] (acodInterval written underflows state) =
      acodInterval written' underflows' (acodRenormalized state) := by
  obtain ⟨hok, hs⟩ := @acodShifts_done 32 _ h (Nat.le_mul_of_pos_left _ (Nat.succ_pos _))
  obtain ⟨written₁, underflows₁, hshifts⟩ := @acodInterval_shifts 32 _ h written underflows
  obtain ⟨underflows₂, hunderflows⟩ := @acodInterval_underflows 32 _ hok hs written₁ underflows₁
  refine ⟨written₁, underflows₂, ?_⟩
  rw [acodRenormalizeTurns, Nat.add_comm, Function.iterate_add_apply, hshifts]
  exact hunderflows

theorem acodBase_eq (written : List Bool) (underflows : Nat) : ∃ m, acodBase written underflows = 2 ^ 31 * m := by
  refine ⟨ofBits written * 2 ^ (underflows + 1) + (2 ^ underflows - 1), ?_⟩
  have hwide : 2 ^ (underflows + 32) = 2 ^ 31 * 2 ^ (underflows + 1) := by
    rw [← Nat.pow_add]
    congr 1
    omega
  rw [acodBase, hwide]
  ring

/-- At least so many reads: each makes the interval smaller, or takes bits. -/
inductive DecoderPast (all : List Bool) (reads : Nat) (decoder : AcodDecoder) : Prop
  | fresh : DecoderFresh decoder all → reads = 0 → DecoderPast all reads decoder
  | following (written : List Bool) (underflows : Nat) :
      Follows decoder all (acodInterval written underflows decoder.state) →
      reads + (acodInterval written underflows decoder.state).width ≤
        (acodInterval written underflows decoder.state).bits * 2 ^ 32 → DecoderPast all reads decoder

theorem Follows.width_le {decoder : AcodDecoder} {all : List Bool} {i : Interval} (h : Follows decoder all i) :
    i.width ≤ 2 ^ 32 := by
  obtain ⟨-, hwidth⟩ := h.range_toNat
  have hlt := h.state.high_lt
  omega

/-- Taking bits does not lose the reads that are done. -/
theorem DecoderPast.ready {decoder : AcodDecoder} {all : List Bool} {reads : Nat} (h : DecoderPast all reads decoder) :
    ∃ ready written underflows, (∀ table, acodDecoderRead decoder table = some (acodDecoderProduceSymbol ready table)) ∧
      Follows ready all (acodInterval written underflows ready.state) ∧ AcodStateReady ready.state ∧
      reads + (acodInterval written underflows ready.state).width ≤
        (acodInterval written underflows ready.state).bits * 2 ^ 32 := by
  cases h with
  | fresh hfresh hreads =>
    obtain ⟨ready, hread, hstate, hfollows, -⟩ := hfresh.read
    have hfull : acodInterval [] 0 ready.state = acodFullInterval := by rw [hstate]; rfl
    rw [← hfull] at hfollows
    refine ⟨ready, [], 0, hread, hfollows, by rw [hstate]; exact acodStateInit_ready, ?_⟩
    rw [hreads, hfull]
    decide
  | following written underflows hfollows hpast =>
    obtain ⟨ready, hread, hstate, hfollows', -⟩ := hfollows.read
    obtain ⟨written', underflows', hrenormalized⟩ := acodInterval_renormalized hfollows.state written underflows
    have hle : (acodInterval written underflows decoder.state).low ≤ (acodInterval written underflows decoder.state).high :=
      Nat.add_le_add_left hfollows.state.low_le _
    have hwidth := Interval.zoom_iterate_width hle (acodRenormalizeTurns decoder.state)
    have hsmall := hfollows'.width_le
    have hbits := Interval.zoom_iterate_bits (acodInterval written underflows decoder.state) (acodRenormalizeTurns decoder.state)
    rw [hrenormalized, ← hstate] at hfollows' hsmall hwidth hbits
    refine ⟨ready, written', underflows', hread, hfollows', by rw [hstate]; exact acodRenormalized_ready hfollows.state, ?_⟩
    rw [hbits, Nat.add_mul]
    rcases Nat.eq_zero_or_pos (acodRenormalizeTurns decoder.state) with hzero | hpos
    · rw [hzero, Nat.pow_zero, Nat.mul_one] at hwidth
      omega
    · omega

theorem FtableReady.freq_lt_total {table : Ftable} {limit : Nat} (h : FtableReady table limit) (hlimit : 2 ≤ limit)
    {s : Symbol} (hs : s < limit) : table.freq s < table.total.toNat := by
  have hlimit_eq := h.limit_eq
  have hbelow := h.ok.exact.below_le (show s + 1 ≤ table.length by rw [hlimit_eq]; exact hs)
  rw [table.below_succ] at hbelow
  rcases Nat.eq_zero_or_pos s with rfl | hpos
  · have hother := h.positive 1 (by omega)
    have hboth := h.ok.exact.below_le (show 1 + 1 ≤ table.length by omega)
    rw [table.below_succ, table.below_succ] at hboth
    omega
  · have hother := h.positive 0 (by omega)
    have hfirst := table.below_mono hpos
    rw [table.below_succ] at hfirst
    omega

/-- **Every read counts.** -/
theorem DecoderPast.read {decoder : AcodDecoder} {all : List Bool} {reads limit : Nat} {table : Ftable}
    (h : DecoderPast all reads decoder) (ht : FtableReady table limit) (hlimit : 2 ≤ limit) :
    ∃ s decoder', acodDecoderRead decoder table = some (s, decoder') ∧ s < limit ∧ DecoderPast all (reads + 1) decoder' := by
  obtain ⟨ready, written, underflows, hread, hfollows, hstate, hpast⟩ := h.ready
  have htotal : 0 < table.total.toNat := Nat.lt_of_le_of_lt (Nat.zero_le _) (ht.freq_lt_total hlimit (show 0 < limit by omega))
  obtain ⟨s, he, hshare⟩ := hfollows.owner ht.ok ht.length_lt htotal
  have hs := he.lt
  rw [ht.limit_eq] at hs
  obtain ⟨decoder', hproduce, hstate', -, -, hfollows'⟩ := acodDecoderProduceSymbol_spec hfollows hstate he hshare
  obtain ⟨-, hinterval⟩ := @acodInterval_shrink written underflows _ _ _ hstate he.toEncodable
  obtain ⟨-, hwidth⟩ := hfollows.range_toNat
  have hrange := hstate.range
  have hsum := he.ok.total_le
  have hbelow := he.ok.exact.below_le (Nat.succ_le_of_lt he.lt)
  have hpos := he.pos
  have hproper := ht.freq_lt_total hlimit hs
  rw [table.below_succ] at hbelow
  have hsmaller : (acodShare (acodInterval written underflows ready.state) table s).width <
      (acodInterval written underflows ready.state).width :=
    Interval.narrow_width_lt (by omega) hbelow (by omega) (by omega)
  have hbits : (acodShare (acodInterval written underflows ready.state) table s).bits =
      (acodInterval written underflows ready.state).bits := rfl
  rw [← hinterval, ← hstate'] at hfollows' hsmaller hbits
  exact ⟨s, decoder', by rw [hread, hproduce], hs, .following written underflows hfollows' (by omega)⟩

theorem DecoderPast.weaken {decoder : AcodDecoder} {all : List Bool} {reads : Nat}
    (h : DecoderPast all (reads + 1) decoder) : DecoderPast all reads decoder := by
  cases h with
  | fresh _ hreads => cases hreads
  | following written underflows hfollows hpast => exact .following written underflows hfollows (by omega)

/-- **After enough reads** only zeroes are left in the code word, its first
bit aside, and the error has been set. -/
theorem DecoderPast.settled {decoder : AcodDecoder} {all : List Bool} {reads : Nat} (h : DecoderPast all reads decoder)
    (hreads : (all.length + 34) * 2 ^ 32 ≤ reads) : decoder.Starved ∨ decoder.OnMidpoint := by
  cases h with
  | fresh _ hzero => omega
  | following written underflows hfollows hpast =>
    generalize hi : acodInterval written underflows decoder.state = i at hfollows hpast
    have hmany : all.length + 34 ≤ i.bits := by omega
    have hexhausted := hfollows.at_bits.exhausted_iff.mpr (by omega)
    have htrailing := hfollows.at_bits.trailing
    obtain ⟨base, hlow, -, hcode⟩ := hfollows.base
    obtain ⟨hfrom, hto⟩ := hfollows.code_bounds
    have hlt := hfollows.state.high_lt
    obtain ⟨m, hbase⟩ := acodBase_eq written underflows
    have hilow : i.low = acodBase written underflows + decoder.state.low.toNat := by rw [← hi]; rfl
    have hvalue := @value_zeroes (streamOf all) (i.bits - 32) (streamOf_zeroes (by omega)) 32
    rw [Nat.sub_add_cancel (by omega)] at hvalue
    -- both the position and the base are multiples of half the range
    have hends : decoder.code.toNat = 0 ∨ decoder.code.toNat = 2 ^ 31 := by omega
    by_cases hbottom : decoder.code.toNat = decoder.state.low.toNat
    · exact .inl ⟨hexhausted, UInt64.toNat_inj.mp hbottom⟩
    · refine .inr ⟨?_, UInt64.toNat_inj.mp ?_, UInt64.lt_iff_toNat_lt.mpr ?_⟩
      · show 32 + 1 < decoder.trailingZeroesEmitted
        omega
      · show decoder.code.toNat = 2 ^ 31
        omega
      · show decoder.state.low.toNat < 2 ^ 31
        omega

end Scomp
