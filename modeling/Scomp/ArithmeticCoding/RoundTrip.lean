/-
What the encoder writes, the decoder reads.

The decoder renormalises before the next symbol where the encoder does it
after the last one, so between symbols it lags behind (`Lags`); within a
read it follows the encoder's interval. The stream is in the encoder's last
interval because of the final bits, and in all earlier ones because every
step narrows.
-/
import Scomp.ArithmeticCoding.Decoder
import Scomp.DataStructures.ReaderBytes

namespace Scomp

open IntervalCoding

def acodEncodeAll (encoder : AcodEncoder) : List (Ftable × Symbol) → AcodEncoder
  | [] => encoder
  | (table, symbol) :: input => acodEncodeAll (acodEncoderWrite encoder table symbol) input

def acodDecodeAll (decoder : AcodDecoder) : List Ftable → Option (List Symbol × AcodDecoder)
  | [] => some ([], decoder)
  | table :: tables => do
    let (symbol, decoder) ← acodDecoderRead decoder table
    let (symbols, decoder) ← acodDecodeAll decoder tables
    return (symbol :: symbols, decoder)

/-- Read with these tables one after another, the decoder gives these
symbols, without an error. -/
def AcodYields (decoder : AcodDecoder) : List (Ftable × Symbol) → Prop
  | [] => True
  | (table, symbol) :: input => ∃ decoder', acodDecoderRead decoder table = some (symbol, decoder') ∧
      decoder'.reader.context = decoder.reader.context ∧ AcodYields decoder' input

theorem AcodYields.decodeAll {decoder : AcodDecoder} {input : List (Ftable × Symbol)} (h : AcodYields decoder input) :
    ∃ decoder', acodDecodeAll decoder (input.map Prod.fst) = some (input.map Prod.snd, decoder') ∧
      decoder'.reader.context = decoder.reader.context := by
  induction input generalizing decoder with
  | nil => exact ⟨decoder, rfl, rfl⟩
  | cons pair input ih =>
    obtain ⟨decoder₁, hread, hcontext, hrest⟩ := h
    obtain ⟨decoder₂, hall, hcontext'⟩ := ih hrest
    refine ⟨decoder₂, ?_, hcontext'.trans hcontext⟩
    simp only [List.map_cons, acodDecodeAll, hread, hall, Option.bind_eq_bind, Option.bind_some]
    rfl

/-! ## Between two symbols -/

/-- A decoder that has read as many symbols as the encoder has written: both
are fresh, or the decoder has yet to renormalise. -/
inductive Lags (decoder : AcodDecoder) (all : List Bool) (encoder : AcodEncoder) : Prop
  | fresh : DecoderFresh decoder all → encoder.state = acodStateInit → encoder.interval = acodFullInterval →
      Lags decoder all encoder
  | behind (i : Interval) : Follows decoder all i → acodRenormalized decoder.state = encoder.state →
      Interval.zoom^[acodRenormalizeTurns decoder.state] i = encoder.interval → Lags decoder all encoder

theorem Lags.init {r : Reader} {w : Writer} (hr : ReaderOK r) (hw : w.bits = []) :
    Lags (acodDecoderInit r) r.unread (acodEncoderInit w) := by
  refine .fresh (.init hr) rfl ?_
  simp only [AcodEncoder.interval, acodEncoderInit, hw]
  rfl

/-- Reading first catches up with the encoder. -/
theorem Lags.read {decoder : AcodDecoder} {all : List Bool} {encoder : AcodEncoder} (h : Lags decoder all encoder)
    (hbits : encoder.interval.bits ≤ all.length + 33) :
    ∃ decoder', (∀ table, acodDecoderRead decoder table = some (acodDecoderProduceSymbol decoder' table)) ∧
      decoder'.state = encoder.state ∧ Follows decoder' all encoder.interval ∧
      decoder'.reader.context = decoder.reader.context := by
  cases h with
  | fresh hfresh hinit hinterval =>
    obtain ⟨decoder', hread, hstate, hfollows, hcontext⟩ := hfresh.read
    exact ⟨decoder', hread, hstate.trans hinit.symm, by rw [hinterval]; exact hfollows, hcontext⟩
  | behind i hfollows hstate hinterval =>
    obtain ⟨decoder', hread, hstate', hfollows', hcontext⟩ := hfollows.read
    have hcount := congrArg Interval.bits hinterval
    rw [Interval.zoom_iterate_bits] at hcount
    exact ⟨decoder', hread, hstate'.trans hstate, by rw [← hinterval]; exact hfollows', hcontext (by omega)⟩

/-- **One symbol**: what the encoder writes next, the decoder reads next. -/
theorem Lags.step {decoder : AcodDecoder} {all : List Bool} {encoder : AcodEncoder} {table : Ftable} {symbol : Symbol}
    (h : Lags decoder all encoder) (hready : AcodEncoderReady encoder) (he : Codable table symbol)
    (hcontains : (acodEncoderWrite encoder table symbol).interval.Contains (streamOf all))
    (hbits : encoder.interval.bits ≤ all.length + 33) :
    ∃ decoder', acodDecoderRead decoder table = some (symbol, decoder') ∧
      decoder'.reader.context = decoder.reader.context ∧
      Lags decoder' all (acodEncoderWrite encoder table symbol) := by
  obtain ⟨-, hstate, hinterval⟩ := acodEncoderWrite_spec hready he.toEncodable
  have hshare : (acodShare encoder.interval table symbol).Contains (streamOf all) := by
    rw [hinterval] at hcontains
    exact Interval.contains_zoom_iterate.mp hcontains
  obtain ⟨decoder₁, hread, hstate₁, hfollows₁, hcontext₁⟩ := h.read hbits
  obtain ⟨decoder₂, hproduce, hstate₂, hreader₂, -, hfollows₂⟩ := acodDecoderProduceSymbol_spec hfollows₁
    (by rw [hstate₁]; exact hready.state) he hshare
  refine ⟨decoder₂, by rw [hread, hproduce], by rw [hreader₂, hcontext₁], .behind _ hfollows₂ ?_ ?_⟩
  · rw [hstate₂, hstate₁, hstate]
  · rw [hstate₂, hstate₁, hinterval]

/-! ## Whole runs -/

theorem acodEncodeAll_spec {encoder : AcodEncoder} {input : List (Ftable × Symbol)} (h : AcodEncoderReady encoder)
    (he : ∀ pair ∈ input, Encodable pair.1 pair.2) :
    AcodEncoderReady (acodEncodeAll encoder input) ∧
      encoder.interval.bits ≤ (acodEncodeAll encoder input).interval.bits ∧
      ∀ stream, (acodEncodeAll encoder input).interval.Contains stream → encoder.interval.Contains stream := by
  induction input generalizing encoder with
  | nil => exact ⟨h, Nat.le_refl _, fun _ hc => hc⟩
  | cons pair input ih =>
    obtain ⟨table, symbol⟩ := pair
    have hpair := he (table, symbol) (List.mem_cons_self ..)
    obtain ⟨hready, -, hinterval⟩ := acodEncoderWrite_spec h hpair
    obtain ⟨hready', hbits, hback⟩ := ih hready fun pair hmem => he pair (List.mem_cons_of_mem _ hmem)
    have hle := hpair.ok.exact.below_le (Nat.succ_le_of_lt hpair.lt)
    rw [table.below_succ] at hle
    refine ⟨hready', Nat.le_trans ?_ hbits, fun stream hc => ?_⟩
    · rw [hinterval, Interval.zoom_iterate_bits]
      exact Nat.le_add_right _ _
    · have hnext := hback stream hc
      rw [hinterval, Interval.contains_zoom_iterate] at hnext
      exact Interval.contains_of_narrow hle (Nat.add_le_add_left h.state.low_le _) hnext

/-- **Any run**: a decoder that lags behind the encoder yields what the
encoder goes on to write. -/
theorem Lags.yields {decoder : AcodDecoder} {all : List Bool} {encoder : AcodEncoder} {input : List (Ftable × Symbol)}
    (h : Lags decoder all encoder) (hready : AcodEncoderReady encoder) (he : ∀ pair ∈ input, Codable pair.1 pair.2)
    (hcontains : (acodEncodeAll encoder input).interval.Contains (streamOf all))
    (hbits : (acodEncodeAll encoder input).interval.bits ≤ all.length + 33) : AcodYields decoder input := by
  induction input generalizing decoder encoder with
  | nil => trivial
  | cons pair input ih =>
    obtain ⟨table, symbol⟩ := pair
    have hpair := he (table, symbol) (List.mem_cons_self ..)
    have hrest : ∀ pair ∈ input, Codable pair.1 pair.2 := fun pair hmem => he pair (List.mem_cons_of_mem _ hmem)
    obtain ⟨hready', -, -⟩ := acodEncoderWrite_spec hready hpair.toEncodable
    obtain ⟨-, -, hback⟩ := acodEncodeAll_spec hready' fun pair hmem => (hrest pair hmem).toEncodable
    obtain ⟨-, hle, -⟩ := acodEncodeAll_spec hready fun pair hmem => (he pair hmem).toEncodable
    obtain ⟨decoder', hread, hcontext, hlags⟩ := h.step hready hpair (hback _ hcontains) (Nat.le_trans hle hbits)
    exact ⟨decoder', hread, hcontext, ih hlags hready' hrest hcontains hbits⟩

/-- The finished encoder's bits drive a fresh decoder, whatever follows
them. -/
theorem acodYields_of_written {w : Writer} {input : List (Ftable × Symbol)} {r : Reader} {following : List Bool}
    (hw : WriterOK w) (hempty : w.bits = []) (he : ∀ pair ∈ input, Codable pair.1 pair.2) (hr : ReaderOK r)
    (hunread : r.unread = (acodEncoderDeinit (acodEncodeAll (acodEncoderInit w) input)).bits ++ following) :
    AcodYields (acodDecoderInit r) input := by
  have hready := AcodEncoderReady.init hw
  obtain ⟨hready', -, -⟩ := acodEncodeAll_spec hready fun pair hmem => (he pair hmem).toEncodable
  obtain ⟨-, hlength, hcontains⟩ := acodEncoderDeinit_spec hready'
  refine (Lags.init hr hempty).yields hready he ?_ ?_
  · rw [hunread]
    exact hcontains following
  · rw [hunread, List.length_append]
    omega

/-- The written bytes alone drive a fresh decoder. -/
theorem acodYields_of_consumed (context : Context) {staleBytes : List Byte} {input : List (Ftable × Symbol)}
    (hsize : 0 < staleBytes.length) (he : ∀ pair ∈ input, Codable pair.1 pair.2) :
    ∃ bytes r, (writerConsumeAllBuffers contextInit
        (acodEncoderDeinit (acodEncodeAll (acodEncoderInit (writerInit staleBytes)) input))).1 =
          { isError := false, buffer := bufferMake bytes } ∧
      readerPushBuffer (readerInit context) (bufferMake bytes) = some r ∧ AcodYields (acodDecoderInit r) input ∧
      r.context = context := by
  have hw : WriterOK (writerInit staleBytes) := .init hsize
  have hempty := writerInit_bits staleBytes
  obtain ⟨hready, hbits, -⟩ := acodEncodeAll_spec (AcodEncoderReady.init hw) fun pair hmem => (he pair hmem).toEncodable
  obtain ⟨hok, hlength, -⟩ := acodEncoderDeinit_spec hready
  obtain ⟨bytes, padding, w', hconsume, hbytes, -⟩ := @writerConsumeAllBuffers_spec _ contextInit hok rfl
  have hpos : 0 < (bufferMake bytes).length := by
    have hcount := congrArg List.length hbytes
    rw [Bits.ofBytes_length, List.length_append] at hcount
    show 0 < bytes.length
    have hfresh : (acodEncoderInit (writerInit staleBytes)).interval.bits = 32 := by
      simp only [AcodEncoder.interval, acodEncoderInit, acodInterval, hempty]
      rfl
    omega
  obtain ⟨r, hpush, hat, hread, -⟩ := (Reader.AtByte.init context).push hpos
  rw [readerInit_unreadBytes, bufferMake_bytes, List.nil_append] at hread
  have hunread : r.unread = (acodEncoderDeinit (acodEncodeAll (acodEncoderInit (writerInit staleBytes)) input)).bits ++
      List.replicate padding false := by
    rw [Reader.unread_eq_ofBytes hat.aligned, hread, hbytes]
  have hcontext : r.context = context := by
    rw [readerPushBuffer, if_pos hpos] at hpush
    cases hpush
    rfl
  exact ⟨bytes, r, by rw [hconsume], hpush, acodYields_of_written hw hempty he hat.ok hunread, hcontext⟩

/-! ## The round trip -/

/-- **Arithmetic coding round trip.** From the written bits and any bits
after them a fresh decoder reads the symbols back; from the written bytes
alone it does so without an underflow error. -/
def AcodRoundTrips (context : Context) (staleBytes : List Byte) (input : List (Ftable × Symbol)) : Prop :=
  let w := acodEncoderDeinit (acodEncodeAll (acodEncoderInit (writerInit staleBytes)) input)
  (∀ r following, ReaderOK r → r.unread = w.bits ++ following →
    ∃ decoder, acodDecodeAll (acodDecoderInit r) (input.map Prod.fst) = some (input.map Prod.snd, decoder)) ∧
  ∃ bytes r decoder, (writerConsumeAllBuffers contextInit w).1 = { isError := false, buffer := bufferMake bytes } ∧
    readerPushBuffer (readerInit context) (bufferMake bytes) = some r ∧
    acodDecodeAll (acodDecoderInit r) (input.map Prod.fst) = some (input.map Prod.snd, decoder) ∧
    decoder.reader.context = context

theorem AcodRoundTrips.of_codable (context : Context) {staleBytes : List Byte} (hsize : 0 < staleBytes.length)
    {input : List (Ftable × Symbol)} (he : ∀ pair ∈ input, Codable pair.1 pair.2) :
    AcodRoundTrips context staleBytes input := by
  constructor
  · intro r following hr hunread
    obtain ⟨decoder, hall, -⟩ := (acodYields_of_written (.init hsize) (writerInit_bits staleBytes) he hr hunread).decodeAll
    exact ⟨decoder, hall⟩
  · obtain ⟨bytes, r, hconsume, hpush, hyields, hcontext⟩ := acodYields_of_consumed context hsize he
    obtain ⟨decoder, hall, hdecoder⟩ := hyields.decodeAll
    exact ⟨bytes, r, decoder, hconsume, hpush, hall, hdecoder.trans hcontext⟩

/-- From a table of 32768 symbols only the first symbol is ever read. -/
theorem acodDecodeAll_wraps {decoder decoder' : AcodDecoder} {input : List (Ftable × Symbol)}
    (h : acodDecodeAll decoder (input.map Prod.fst) = some (input.map Prod.snd, decoder')) :
    ∀ pair ∈ input, pair.1.length = 2 ^ 15 → pair.2 = 0 := by
  induction input generalizing decoder with
  | nil => exact fun pair hmem => absurd hmem List.not_mem_nil
  | cons first input ih =>
    rw [List.map_cons, acodDecodeAll] at h
    obtain ⟨⟨symbol, decoder₁⟩, hread, h⟩ := Option.bind_eq_some_iff.mp h
    obtain ⟨⟨symbols, decoder₂⟩, hall, hresult⟩ := Option.bind_eq_some_iff.mp h
    obtain ⟨⟨hsymbol, hsymbols⟩, hdecoder⟩ : (symbol = first.2 ∧ symbols = input.map Prod.snd) ∧ decoder₂ = decoder' := by
      simpa using hresult
    rw [hsymbols, hdecoder] at hall
    rintro pair (_ | ⟨_, hmem⟩) hwraps
    · rw [← hsymbol]
      exact acodDecoderRead_wraps hwraps hread
    · exact ih hall pair hmem hwraps

/-- **When the round trip holds**: if every symbol has a table of at most
32767 symbols or is the first one. -/
theorem acod_round_trip_iff (context : Context) (staleBytes : List Byte) (hsize : 0 < staleBytes.length)
    (input : List (Ftable × Symbol))
    (hinput : ∀ pair ∈ input, FtableOK pair.1 ∧ pair.1.length ≤ 2 ^ 15 ∧ pair.2 < pair.1.length ∧ 0 < pair.1.freq pair.2) :
    AcodRoundTrips context staleBytes input ↔ ∀ pair ∈ input, pair.1.length < 2 ^ 15 ∨ pair.2 = 0 := by
  constructor
  · intro h pair hmem
    obtain ⟨-, _, _, _, -, -, hall, -⟩ := h
    obtain ⟨-, hlength, -⟩ := hinput pair hmem
    exact (Nat.lt_or_eq_of_le hlength).imp_right (acodDecodeAll_wraps hall pair hmem)
  · intro h
    refine .of_codable context hsize fun pair hmem => ?_
    obtain ⟨hok, hlength, hlt, hpos⟩ := hinput pair hmem
    refine ⟨⟨hok, hlt, hpos⟩, (h pair hmem).elim .inl fun hzero => ?_⟩
    exact (Nat.lt_or_eq_of_le hlength).imp_right fun hwraps => ⟨hwraps, hzero⟩

/-- Two symbols, each with a table of its own. -/
theorem acod_round_trip_two :
    AcodRoundTrips contextInit [0xaa] [(ftableInit 2 FTABLE_INIT_ONE, 1), (ftableInit 3 FTABLE_INIT_ONE, 0)] := by
  have htwo := (ftableInit_ready 2 FTABLE_INIT_ONE (by decide) (by decide)).1.encodable (show 1 < 2 by decide)
  have hthree := (ftableInit_ready 3 FTABLE_INIT_ONE (by decide) (by decide)).1.encodable (show 0 < 3 by decide)
  refine (acod_round_trip_iff contextInit [0xaa] (by decide) _ ?_).mpr ?_
  · simp only [List.forall_mem_cons, List.not_mem_nil, false_implies, implies_true, and_true]
    exact ⟨⟨htwo.ok, by decide, htwo.lt, htwo.pos⟩, hthree.ok, by decide, hthree.lt, hthree.pos⟩
  · simp only [List.forall_mem_cons, List.not_mem_nil, false_implies, implies_true, and_true]
    decide

/-- The second symbol of the largest table is read back as the first. -/
theorem acod_round_trip_fails :
    FtableOK ftableLargest ∧ 1 < ftableLargest.length ∧ 0 < ftableLargest.freq 1 ∧
      ¬ AcodRoundTrips contextInit [0xaa] [(ftableLargest, 1)] := by
  obtain ⟨hok, hlength, -, hones⟩ := ftableLargest_spec
  generalize ftableLargest = table at *
  refine ⟨hok, by rw [hlength]; decide, by rw [hones 1 (by decide)]; decide, fun h => ?_⟩
  obtain ⟨-, _, _, _, -, -, hall, -⟩ := h
  exact Nat.one_ne_zero (acodDecodeAll_wraps hall (table, 1) (List.mem_singleton_self _) hlength)

end Scomp
