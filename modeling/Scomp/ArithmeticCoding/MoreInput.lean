/-
More input never changes what is read, as long as there was enough of it.

A decoder is compared with one in the same state whose reader holds the same
bits, cut into buffers in any way, and other bits after them. A symbol takes a
bounded number of bits, so the two agree for as many symbols as the first one
has room for; with nothing more behind it, for ever.
-/
import Scomp.ArithmeticCoding.SafeReads

namespace Scomp

/-! ## Readers -/

/-- `r'` holds what `r` holds, and `more` after it. -/
structure Reader.Extends (r r' : Reader) (more : List Bool) : Prop where
  ok : ReaderOK r
  ok' : ReaderOK r'
  unread : r'.unread = r.unread ++ more
  context : r'.context = r.context

theorem Reader.Extends.available {r r' : Reader} {more : List Bool} (h : r.Extends r' more)
    (hmore : more = [] ∨ r.unread ≠ []) :
    (readerGetBitsAvailable r > 0 ↔ r.unread ≠ []) ∧ (readerGetBitsAvailable r' > 0 ↔ r.unread ≠ []) := by
  have havailable := readerGetBitsAvailable_eq h.ok
  have havailable' := readerGetBitsAvailable_eq h.ok'
  rw [h.unread, List.length_append] at havailable'
  rw [havailable, havailable', ← List.length_pos_iff]
  rcases hmore with rfl | hne
  · rw [List.length_nil]
    omega
  · have hpos := List.length_pos_iff.mpr hne
    omega

/-- A push takes the next of the bits that the other reader has already. -/
theorem Reader.Extends.push {r r' : Reader} {b : Buffer} {more : List Bool} (h : r.Extends r' (b.bits ++ more))
    (hb : 0 < b.length) :
    ∃ r₁, readerPushBuffer r b = some r₁ ∧ r₁.Extends r' more ∧ r₁.unread = r.unread ++ b.bits := by
  obtain ⟨r₁, hpush, -, hunread, -, hcontext, hok⟩ := readerPushBuffer_spec h.ok.toReadable hb
  refine ⟨r₁, hpush, ⟨hok h.ok, h.ok', ?_, h.context.trans hcontext.symm⟩, hunread⟩
  rw [h.unread, hunread, List.append_assoc]

theorem Reader.Extends.recover {r r' : Reader} {more : List Bool} (h : r.Extends r' more)
    (hexhausted : readerHasExhaustedBuffer r = true) :
    ∃ b r₁, readerRecoverExhaustedBuffer r = some (b, r₁) ∧ r₁.Extends r' more ∧ r₁.unread = r.unread := by
  obtain ⟨b, r₁, hrecover⟩ := readerRecover_of_exhausted h.ok hexhausted
  obtain ⟨hok, hunread, -, hcontext⟩ := readerRecover_spec h.ok hrecover
  exact ⟨b, r₁, hrecover, ⟨hok, h.ok', by rw [h.unread, hunread], h.context.trans hcontext.symm⟩, hunread⟩

theorem Reader.Extends.symm {r r' : Reader} (h : r.Extends r' []) : r'.Extends r [] :=
  ⟨h.ok', h.ok, by rw [h.unread, List.append_nil, List.append_nil], h.context.symm⟩

/-! ## The arithmetic decoder -/

/-- A decoder that has at least `bits` to read, and no error but that of
`context`, unless the input is at its end; and one in the same state with
`more` behind. -/
structure DecoderExtends (atEnd : Prop) (more : List Bool) (context : Context) (bits : Nat)
    (decoder decoder' : AcodDecoder) : Prop where
  reader : decoder.reader.Extends decoder'.reader more
  same : decoder' = { decoder with reader := decoder'.reader }
  ended : atEnd → more = []
  enough : atEnd ∨ bits ≤ decoder.reader.unread.length ∧ decoder.reader.context = context

variable {atEnd : Prop} {more : List Bool} {context : Context} {bits : Nat} {decoder decoder' : AcodDecoder}

theorem DecoderExtends.weaken {fewer : Nat} (h : DecoderExtends atEnd more context bits decoder decoder')
    (hfewer : fewer ≤ bits) : DecoderExtends atEnd more context fewer decoder decoder' := by
  refine ⟨h.reader, h.same, h.ended, ?_⟩
  rcases h.enough with hend | ⟨hle, hcontext⟩
  · exact .inl hend
  · exact .inr ⟨Nat.le_trans hfewer hle, hcontext⟩

theorem DecoderExtends.symm (h : DecoderExtends True more context bits decoder decoder') :
    DecoderExtends True [] context bits decoder' decoder := by
  have hreader := h.reader
  rw [h.ended trivial] at hreader
  refine ⟨hreader.symm, ?_, fun _ => rfl, .inl trivial⟩
  rw [h.same]

/-- What both do with their state, and not with the reader. -/
theorem DecoderExtends.update (h : DecoderExtends atEnd more context bits decoder decoder') {update : AcodDecoder → AcodDecoder}
    (hreader : ∀ d, (update d).reader = d.reader)
    (hsame : ∀ (d : AcodDecoder) (r : Reader), update { d with reader := r } = { update d with reader := r }) :
    DecoderExtends atEnd more context bits (update decoder) (update decoder') := by
  refine ⟨by rw [hreader, hreader]; exact h.reader, ?_, h.ended, by rw [hreader]; exact h.enough⟩
  rw [hreader, h.same, hsame]

/-- **One bit** is the same bit. -/
theorem DecoderExtends.readBit (h : DecoderExtends atEnd more context (bits + 1) decoder decoder') :
    ∃ bit after after', acodDecoderReadBit decoder = some (bit, after) ∧
      acodDecoderReadBit decoder' = some (bit, after') ∧ DecoderExtends atEnd more context bits after after' := by
  obtain ⟨hreader, hsame, hended, henough⟩ := h
  have hmore : atEnd ∨ decoder.reader.unread ≠ [] := by
    rcases henough with hend | ⟨hle, -⟩
    · exact .inl hend
    · exact .inr (List.length_pos_iff.mp (by omega))
  obtain ⟨havailable, havailable'⟩ := hreader.available (hmore.imp_left hended)
  cases hunread : decoder.reader.unread with
  | nil =>
    have hend : atEnd := by
      rcases hmore with hend | hne
      · exact hend
      · exact absurd hunread hne
    have htrailing : decoder'.trailingZeroesEmitted = decoder.trailingZeroesEmitted := by rw [hsame]
    refine ⟨0, _, _, if_neg (by rw [havailable]; simp [hunread]), if_neg (by rw [havailable']; simp [hunread]), ?_, ?_,
      hended, .inl hend⟩
    · rw [htrailing]
      dsimp only
      split
      · refine ⟨hreader.ok.underflow, hreader.ok'.underflow, hreader.unread, ?_⟩
        simp only [readerSetUnderflowError, hreader.context]
      · exact hreader
    · rw [htrailing, hsame]
  | cons bit rest =>
    have hne : decoder.reader.unread ≠ [] := by simp [hunread]
    have hunread' : decoder'.reader.unread = bit :: (rest ++ more) := by rw [hreader.unread, hunread, List.cons_append]
    obtain ⟨r, hread, -, hrest, hcontext, -, hok⟩ := readerReadBit_cons hreader.ok.toReadable hunread
    obtain ⟨r', hread', -, hrest', hcontext', -, hok'⟩ := readerReadBit_cons hreader.ok'.toReadable hunread'
    refine ⟨bit.toUInt8, { decoder with reader := r }, { decoder' with reader := r' }, ?_, ?_,
      ⟨hok hreader.ok, hok' hreader.ok', by rw [hrest, hrest'], ?_⟩, by rw [hsame], hended, ?_⟩
    · rw [acodDecoderReadBit, if_pos (havailable.mpr hne), hread]
      rfl
    · rw [acodDecoderReadBit, if_pos (havailable'.mpr hne), hread']
      rfl
    · rw [hcontext, hcontext', hreader.context]
    · rcases henough with hend | ⟨hle, hkept⟩
      · exact .inl hend
      · right
        rw [hunread, List.length_cons] at hle
        refine ⟨show bits ≤ r.unread.length by rw [hrest]; omega, hcontext.trans hkept⟩

/-- A loop that takes a bit each turn, as the three loops of the decoder
do. -/
theorem DecoderExtends.loop {loop : Nat → AcodDecoder → Option AcodDecoder} {going : AcodDecoder → Bool}
    {update : Byte → AcodDecoder → AcodDecoder} (hzero : ∀ d, loop 0 d = some d)
    (hstep : ∀ turns d, loop (turns + 1) d =
      if going d then (acodDecoderReadBit d).bind fun read => loop turns (update read.1 read.2) else some d)
    (hgoing : ∀ (d : AcodDecoder) (r : Reader), going { d with reader := r } = going d)
    (hreader : ∀ bit d, (update bit d).reader = d.reader)
    (hsame : ∀ bit (d : AcodDecoder) (r : Reader), update bit { d with reader := r } = { update bit d with reader := r })
    {turns : Nat} (h : DecoderExtends atEnd more context (bits + turns) decoder decoder') :
    ∃ after after', loop turns decoder = some after ∧ loop turns decoder' = some after' ∧
      DecoderExtends atEnd more context bits after after' := by
  induction turns generalizing decoder decoder' with
  | zero => exact ⟨decoder, decoder', hzero _, hzero _, h⟩
  | succ turns ih =>
    have hagree : going decoder' = going decoder := by rw [h.same, hgoing]
    rw [hstep, hstep, hagree]
    by_cases hcond : going decoder = true
    · obtain ⟨bit, next, next', hread, hread', hnext⟩ := h.readBit
      simp only [if_pos hcond, hread, hread', Option.bind_some]
      exact ih (hnext.update (hreader bit) (hsame bit))
    · simp only [if_neg hcond]
      exact ⟨decoder, decoder', rfl, rfl, h.weaken (Nat.le_add_right _ _)⟩

/-- The most bits that one symbol takes, as the loops end after 32 turns. -/
def ACOD_MAX_SYMBOL_BITS : Nat := 64

theorem acodFindSymbol_lt {table : Ftable} {value : SymbolFrequency} {turns start stop : Nat} (h : start < stop) :
    acodFindSymbol table value turns start stop < stop := by
  induction turns generalizing start stop with
  | zero => exact h
  | succ turns ih =>
    rw [acodFindSymbol]
    by_cases hmore : stop - start > 1
    · rw [if_pos hmore]
      dsimp only
      split
      · exact Nat.lt_of_lt_of_le (ih (show start < (start + stop) / 2 by omega)) (by omega)
      · exact ih (show (start + stop) / 2 < stop by omega)
    · rw [if_neg hmore]
      exact h

/-- **One symbol** is the same symbol. -/
theorem DecoderExtends.read (h : DecoderExtends atEnd more context (bits + ACOD_MAX_SYMBOL_BITS) decoder decoder') {table : Ftable} :
    ∃ s after after', acodDecoderRead decoder table = some (s, after) ∧
      acodDecoderRead decoder' table = some (s, after') ∧ DecoderExtends atEnd more context bits after after' := by
  have hproduce : ∀ {d d'}, DecoderExtends atEnd more context bits d d' →
      ∃ s after after', acodDecoderProduceSymbol d table = (s, after) ∧
        acodDecoderProduceSymbol d' table = (s, after') ∧ DecoderExtends atEnd more context bits after after' := by
    intro d d' hd
    refine ⟨(acodDecoderProduceSymbol d table).1, (acodDecoderProduceSymbol d table).2,
      (acodDecoderProduceSymbol d' table).2, rfl, ?_,
      @DecoderExtends.update _ _ _ _ _ _ hd (fun d => (acodDecoderProduceSymbol d table).2) (fun _ => rfl) fun _ _ => rfl⟩
    rw [hd.same]
    rfl
  have hbase : decoder'.baseBitsReceived = decoder.baseBitsReceived := by rw [h.same]
  rw [show ACOD_MAX_SYMBOL_BITS = 32 + 32 from rfl, ← Nat.add_assoc] at h
  simp only [acodDecoderRead, hbase]
  split
  · obtain ⟨ready, ready', hloop, hloop', hready⟩ := @DecoderExtends.loop atEnd more context bits decoder decoder'
      acodDecoderReadBaseBits (fun d => decide (d.baseBitsReceived < ACOD_STATE_SIZE_BITS))
      (fun bit d => { d with
        code := (d.code <<< 1) ||| bit.toUInt64
        baseBitsReceived := d.baseBitsReceived + 1 })
      (fun _ => rfl) (fun turns d => by simp only [decide_eq_true_eq]; rw [acodDecoderReadBaseBits]; rfl)
      (fun _ _ => rfl) (fun _ _ => rfl) (fun _ _ _ => rfl) 32 (h.weaken (Nat.le_add_right _ _))
    obtain ⟨s, after, after', hs, hs', hafter⟩ := hproduce hready
    exact ⟨s, after, after', by rw [hloop]; exact congrArg some hs, by rw [hloop']; exact congrArg some hs', hafter⟩
  · obtain ⟨shifted, shifted', hshift, hshift', hshifted⟩ := @DecoderExtends.loop atEnd more context (bits + 32) decoder decoder'
      acodDecoderShiftLoop (fun d => acodIsShiftable d.state)
      (fun bit d => { d with
        code := ((d.code <<< 1) &&& ACOD_STATE_MASK) ||| bit.toUInt64
        state := acodPerformShift d.state })
      (fun _ => rfl) (fun _ _ => rfl) (fun _ _ => rfl) (fun _ _ => rfl) (fun _ _ _ => rfl) 32 h
    obtain ⟨ready, ready', hunderflow, hunderflow', hready⟩ := @DecoderExtends.loop atEnd more context bits shifted shifted'
      acodDecoderUnderflowLoop (fun d => acodIsUnderflowable d.state)
      (fun bit d => { d with
        code := (d.code &&& ACOD_HALF_RANGE) ||| ((d.code <<< 1) &&& (ACOD_STATE_MASK >>> 1)) ||| bit.toUInt64
        state := acodPerformUnderflow d.state })
      (fun _ => rfl) (fun _ _ => rfl) (fun _ _ => rfl) (fun _ _ => rfl) (fun _ _ _ => rfl) 32 hshifted
    obtain ⟨s, after, after', hs, hs', hafter⟩ := hproduce hready
    refine ⟨s, after, after', ?_, ?_, hafter⟩
    · rw [hshift]
      simp only [Option.bind_eq_bind, Option.bind_some, hunderflow]
      exact congrArg some hs
    · rw [hshift']
      simp only [Option.bind_eq_bind, Option.bind_some, hunderflow']
      exact congrArg some hs'

theorem acodDecoderRead_lt {table : Ftable} {s : Symbol} {after : AcodDecoder} {limit : Nat} (ht : FtableReady table limit)
    (hpos : 0 < limit) (hread : acodDecoderRead decoder table = some (s, after)) : s < limit := by
  obtain ⟨ready, hproduce⟩ := acodDecoderRead_produces hread
  rw [show s = (acodDecoderProduceSymbol ready table).1 by rw [hproduce], acodDecoderProduceSymbol,
    ftableGetSymbolLimit_toNat ht.length_lt, ht.limit_eq]
  exact acodFindSymbol_lt hpos

/-! ## Any decoder -/

/-- Decoders that read the same for a number of symbols. -/
structure ReadsAlike {δ : Type} [SymbolDecoder δ] (R : Nat → δ → δ → Prop) : Prop where
  read {symbols : Nat} {decoder decoder' : δ} {ref : TableRef} {table : Ftable} {s : Symbol} {after : δ} :
    R (symbols + 1) decoder decoder' → FtableReady table ref.limit →
    SymbolDecoder.read decoder ref table = some (s, after) →
      s < ref.limit ∧ ∃ after', SymbolDecoder.read decoder' ref table = some (s, after') ∧ R symbols after after'
  weaken {fewer symbols : Nat} {decoder decoder' : δ} : R symbols decoder decoder' → fewer ≤ symbols →
    R fewer decoder decoder'

/-- **The arithmetic decoder**: what it reads with more input is what it reads
with bits enough for so many symbols. -/
theorem acodDecoder_readsAlike (atEnd : Prop) (more : List Bool) (context : Context) :
    ReadsAlike fun symbols decoder decoder' =>
      DecoderExtends atEnd more context (symbols * ACOD_MAX_SYMBOL_BITS) decoder' decoder := by
  constructor
  · intro symbols decoder decoder' ref table s after h ht hread
    rw [Nat.succ_mul] at h
    obtain ⟨s', after', after₁, hread', hread₁, hafter⟩ := @DecoderExtends.read _ _ _ _ _ _ h table
    have hread₀ : acodDecoderRead decoder table = some (s, after) := hread
    rw [hread₀] at hread₁
    cases hread₁
    exact ⟨acodDecoderRead_lt ht ref.limit_pos hread₀, after', hread', hafter⟩
  · intro fewer symbols decoder decoder' h hfewer
    exact h.weaken (Nat.mul_le_mul_right _ hfewer)

/-! ## Numbers -/

section Uint

variable {δ : Type} [SymbolDecoder δ] {R : Nat → δ → δ → Prop} {ref : UintTable → TableRef} {tables : UintFreqTables}

theorem uintReaderReadParts_alike (hR : ReadsAlike R) (hparts : (ref .parts).limit = 16)
    (ht : FtableReady tables.uintPartsTable 16) {left i symbols : Nat} {result result' : UInt64} {decoder decoder' after : δ}
    (h : R (symbols + left) decoder decoder')
    (hread : uintReaderReadParts ref tables left i result decoder = some (result', after)) :
    ∃ after', uintReaderReadParts ref tables left i result decoder' = some (result', after') ∧ R symbols after after' := by
  induction left generalizing i result decoder decoder' with
  | zero =>
    cases hread
    exact ⟨decoder', rfl, h⟩
  | succ left ih =>
    simp only [uintReaderReadParts, Option.bind_eq_bind, Option.bind_eq_some_iff, Prod.exists] at hread ⊢
    obtain ⟨part, next, hpart, hrest⟩ := hread
    obtain ⟨-, next', hpart', hnext⟩ := hR.read h (by rw [hparts]; exact ht) hpart
    obtain ⟨after', hrest', hafter⟩ := ih hnext hrest
    exact ⟨after', ⟨part, next', hpart', hrest'⟩, hafter⟩

/-- **A number takes as many symbols as its length table has**, at most. -/
theorem uintReaderRead_alike (hR : ReadsAlike R) (hparts : (ref .parts).limit = 16) (hlast : (ref .lastPart).limit = 16)
    (ht : UintTablesReady tables (ref .length).limit) {symbols : Nat} {value : UInt64} {tables' : UintFreqTables}
    {decoder decoder' after : δ} (h : R (symbols + (ref .length).limit) decoder decoder')
    (hread : uintReaderRead ref tables decoder = some (value, tables', after)) :
    UintTablesReady tables' (ref .length).limit ∧
      ∃ after', uintReaderRead ref tables decoder' = some (value, tables', after') ∧ R symbols after after' := by
  have hpos := (ref .length).limit_pos
  simp only [uintReaderRead, Option.bind_eq_bind, Option.bind_eq_some_iff, Prod.exists] at hread ⊢
  obtain ⟨symbol, next, hcount, result, last, hloop, hread⟩ := hread
  obtain ⟨count, rfl⟩ : ∃ count : Nat, count = symbol := ⟨symbol, rfl⟩
  obtain ⟨hlt, next', hcount', hnext⟩ := @ReadsAlike.read _ _ _ hR (symbols + ((ref .length).limit - 1)) _ _ _ _ _ _
    (hR.weaken h (by omega)) ht.length hcount
  have hcountLt : count < (ref .length).limit := hlt
  have hready : UintTablesReady { tables with lengthTable := ftableIncrement tables.lengthTable count }
      (ref .length).limit := ⟨ht.length.increment hlt, ht.parts, ht.lastPart⟩
  rcases Nat.eq_zero_or_pos count with hzero | hcountPos
  · obtain ⟨last', hloop', hlast'⟩ := @uintReaderReadParts_alike _ _ _ ref _ hR hparts hready.parts _ _ symbols _ _ _ _ _
      (hR.weaken hnext (by omega)) hloop
    simp only [if_neg (show ¬ count > 0 by omega), Option.pure_def, Option.some.injEq, Prod.mk.injEq] at hread
    obtain ⟨hvalue, htables, hafter⟩ := hread
    subst hafter
    refine ⟨by rw [← htables]; exact hready, last', ⟨count, next', hcount', result, last', hloop', ?_⟩, hlast'⟩
    rw [if_neg (show ¬ count > 0 by omega), hvalue, htables]
    rfl
  · have hle : symbols + 1 + (count - 1) ≤ symbols + ((ref .length).limit - 1) := by omega
    obtain ⟨last', hloop', hlast'⟩ := @uintReaderReadParts_alike _ _ _ ref _ hR hparts hready.parts _ _ (symbols + 1) _ _ _ _ _
      (hR.weaken hnext hle) hloop
    rw [if_pos hcountPos] at hread
    obtain ⟨⟨part, final⟩, hpart, hdone⟩ := Option.bind_eq_some_iff.mp hread
    obtain ⟨hpartLt, final', hpart', hfinal⟩ := hR.read hlast' (by rw [hlast]; exact ht.lastPart) hpart
    rw [hlast] at hpartLt
    cases hdone
    refine ⟨⟨hready.length, hready.parts, ht.lastPart.increment hpartLt⟩, final', ⟨count, next', hcount', result, last', hloop', ?_⟩, hfinal⟩
    rw [if_pos hcountPos]
    exact Option.bind_eq_some_iff.mpr ⟨(part, final'), hpart', rfl⟩

end Uint

end Scomp
