/-
How many bits the encoder writes when the table counts each symbol after it.

From one of each symbol, which is how tables start, that is at most a
logarithm more for each symbol of the table than with any fixed table.
-/
import Scomp.ArithmeticCoding.OutputLength
import Scomp.ArithmeticCoding.TableRuns
import Scomp.Lib.AdaptiveCode

namespace Scomp

open Finset (range)
open AdaptiveCode

/-- `acod_encoder_write` and then `ftable_increment`, for each symbol. -/
def acodEncodeAdaptively (encoder : AcodEncoder) (table : Ftable) : List Symbol → AcodEncoder × Ftable
  | [] => (encoder, table)
  | symbol :: symbols =>
    acodEncodeAdaptively (acodEncoderWrite encoder table symbol) (ftableIncrement table symbol) symbols

/-- What is written, with the table it is written with. -/
def adaptiveInput (table : Ftable) : List Symbol → List (Ftable × Symbol)
  | [] => []
  | symbol :: symbols => (table, symbol) :: adaptiveInput (ftableIncrement table symbol) symbols

theorem acodEncodeAdaptively_eq (encoder : AcodEncoder) (table : Ftable) (symbols : List Symbol) :
    acodEncodeAdaptively encoder table symbols =
      (acodEncodeAll encoder (adaptiveInput table symbols), symbols.foldl ftableIncrement table) := by
  induction symbols generalizing encoder table with
  | nil => rfl
  | cons symbol symbols ih => rw [acodEncodeAdaptively, ih, adaptiveInput, acodEncodeAll, List.foldl_cons]

/-! ## Tables below the limit -/

theorem ftableInit_one {length initFlags : Nat} (hone : initFlags &&& FTABLE_INIT_ONE ≠ 0)
    (hrange : ftableInitLimit length initFlags < 2 ^ 15) :
    ∀ x < ftableInitLimit length initFlags, (ftableInit length initFlags).freq x = 1 := by
  have hlength : length < 2 ^ 15 := Nat.lt_of_le_of_lt (Nat.le_add_right _ _) hrange
  obtain ⟨-, hlen, -⟩ := ftableInit_ok length initFlags hlength
  obtain ⟨-, hones⟩ := @ftableInit_ones length initFlags hone hlength
  rw [hlen] at hones
  exact hones

/-! ## The bits -/

theorem acodIdealBits_fixed {table : Ftable} (h : table.Exact) (symbols : List Symbol) :
    acodIdealBits (symbols.map fun symbol => (table, symbol)) =
      fixedBits (range table.length) table.freq symbols := by
  simp only [acodIdealBits, fixedBits, List.map_map]
  refine congrArg List.sum (List.map_congr_left fun symbol _ => ?_)
  have hsum : table.below table.length = table.total.toNat := h
  simp only [Function.comp, symbolBits, ← hsum]
  rfl

theorem acodIdealBits_adaptive {table : Ftable} {symbols : List Symbol} (h : FtableOK table)
    (hlimit : table.length < 2 ^ 15) (hs : ∀ symbol ∈ symbols, symbol < table.length)
    (hroom : table.total.toNat + symbols.length ≤ 2 ^ 30 + 2) :
    acodIdealBits (adaptiveInput table symbols) =
      adaptiveBits (range table.length) table.freq symbols := by
  induction symbols generalizing table with
  | nil => rfl
  | cons symbol symbols ih =>
    rw [List.length_cons] at hroom
    obtain ⟨hsymbol, hsymbols⟩ := List.forall_mem_cons.mp hs
    obtain ⟨hok, hlen, -⟩ := ftableIncrement_spec h hlimit hsymbol
    obtain ⟨htotal, hfreq⟩ := ftableIncrement_exact symbol h (by omega)
    have hrest := ih hok (by rw [hlen]; exact hlimit) (by rw [hlen]; exact hsymbols) (by omega)
    have hcount : adaptiveBits (range table.length) (ftableIncrement table symbol).freq symbols =
        adaptiveBits (range table.length) (count table.freq symbol) symbols :=
      adaptiveBits_congr (fun x hx => hfreq x (Finset.mem_range.mp hx)) fun x hx => Finset.mem_range.mpr (hsymbols x hx)
    rw [hlen, hcount] at hrest
    rw [adaptiveBits, ← hrest, symbolBits]
    simp only [acodIdealBits, adaptiveInput, List.map_cons, List.sum_cons, ← h.sum]
    rfl

theorem adaptiveInput_length (table : Ftable) (symbols : List Symbol) : (adaptiveInput table symbols).length = symbols.length := by
  induction symbols generalizing table with
  | nil => rfl
  | cons symbol symbols ih => rw [adaptiveInput, List.length_cons, List.length_cons, ih]

/-- What is written adaptively can be, with totals that stay small. -/
theorem adaptiveInput_spec {table : Ftable} {limit : Nat} {symbols : List Symbol} (h : FtableReady table limit)
    (hs : ∀ symbol ∈ symbols, symbol < limit) {bound : Nat} (hbound : bound ≤ 2 ^ 29 + 1)
    (hroom : table.total.toNat + symbols.length ≤ bound) :
    ∀ pair ∈ adaptiveInput table symbols, Encodable pair.1 pair.2 ∧ pair.1.total.toNat ≤ bound := by
  induction symbols generalizing table with
  | nil => simp [adaptiveInput]
  | cons symbol symbols ih =>
    rw [List.length_cons] at hroom
    obtain ⟨hsymbol, hsymbols⟩ := List.forall_mem_cons.mp hs
    obtain ⟨htotal, -⟩ := ftableIncrement_exact symbol h.ok (by omega)
    refine List.forall_mem_cons.mpr ⟨⟨h.encodable hsymbol, ?_⟩, ih (h.increment hsymbol) hsymbols (by omega)⟩
    dsimp only
    omega

/-- **Adapting costs at most a logarithm more.** When the table starts with
one of each symbol and counts each symbol after it is written, the output is
no longer than with any fixed table, but for the number of its other symbols
times the logarithm of the input's length, the rounding of the shares and
two bits at the end. -/
theorem acod_adaptive_output_length {staleBytes staleFixed : List Byte} (hsize : 0 < staleBytes.length)
    (hsizeFixed : 0 < staleFixed.length) {length initFlags : Nat} (hone : initFlags &&& FTABLE_INIT_ONE ≠ 0)
    (hrange : ftableInitLimit length initFlags < 2 ^ 15) {symbols : List Symbol}
    (hfits : ftableInitLimit length initFlags + symbols.length ≤ 2 ^ 29 + 1) {fixed : Ftable} (hfixed : FtableOK fixed)
    (hlimit : fixed.length = ftableInitLimit length initFlags)
    (hsymbols : ∀ symbol ∈ symbols, symbol < ftableInitLimit length initFlags ∧ 0 < fixed.freq symbol ∧
      AcodShareOfTwo fixed symbol) :
    let adaptive := (acodEncodeAdaptively (acodEncoderInit (writerInit staleBytes)) (ftableInit length initFlags) symbols).1
    let fixedInput := symbols.map fun symbol => (fixed, symbol)
    let written := acodEncodeAll (acodEncoderInit (writerInit staleFixed)) fixedInput
    ((acodEncoderDeinit adaptive).bits.length : ℝ) ≤ (acodEncoderDeinit written).bits.length +
      (ftableInitLimit length initFlags - 1 : ℕ) * Real.logb 2 (symbols.length + 1) + acodRoundingBits fixedInput +
      symbols.length * (3 * ((ftableInitLimit length initFlags + symbols.length : ℕ) / (ACOD_MIN_RANGE.toNat : ℝ))) + 2 := by
  intro adaptive fixedInput written
  have hs : ∀ symbol ∈ symbols, symbol < ftableInitLimit length initFlags := fun symbol hmem => (hsymbols symbol hmem).1
  obtain ⟨hready, -⟩ := ftableInit_ready length initFlags hone (by unfold ftableInitLimit at hrange; omega)
  change FtableReady _ (ftableInitLimit length initFlags) at hready
  have hones := @ftableInit_one length initFlags hone hrange
  have htotal : (ftableInit length initFlags).total.toNat = ftableInitLimit length initFlags := by
    rw [← hready.ok.sum, hready.limit_eq, Ftable.below, Finset.sum_congr rfl fun x hx => hones x (Finset.mem_range.mp hx)]
    simp
  have hpairs := adaptiveInput_spec hready hs hfits (by rw [htotal])
  have hrounding := acodRoundingBits_le fun pair hmem => ⟨(hpairs pair hmem).1.pos, (hpairs pair hmem).2⟩
  rw [adaptiveInput_length] at hrounding
  obtain ⟨-, hupper⟩ := acodEncodeAll_length (.init (.init hsize)) (fun pair hmem => (hpairs pair hmem).1) fun pair hmem =>
    acodShareOfTwo_of_total_le (hpairs pair hmem).1.pos (Nat.le_trans (hpairs pair hmem).2 hfits)
  rw [acodEncoderInit_cost (writerInit_bits staleBytes), zero_add] at hupper
  have hfixedPairs : ∀ pair ∈ fixedInput, Encodable pair.1 pair.2 ∧ AcodShareOfTwo pair.1 pair.2 := by
    intro pair hmem
    obtain ⟨symbol, hsymbol, rfl⟩ := List.mem_map.mp hmem
    obtain ⟨hlt, hpos, hshare⟩ := hsymbols symbol hsymbol
    exact ⟨⟨hfixed, by rw [hlimit]; exact hlt, hpos⟩, hshare⟩
  obtain ⟨hlower, -⟩ := acodEncodeAll_length (.init (.init hsizeFixed)) (fun pair hmem => (hfixedPairs pair hmem).1)
    fun pair hmem => (hfixedPairs pair hmem).2
  rw [acodEncoderInit_cost (writerInit_bits staleFixed), zero_add] at hlower
  have hideal := acodIdealBits_adaptive hready.ok hready.length_lt
    (by rw [hready.limit_eq]; exact hs) (by rw [htotal]; omega)
  have hadaptive := @adaptiveBits_le _ _ (range (ftableInitLimit length initFlags)) fixed.freq symbols fun symbol hmem =>
    ⟨Finset.mem_range.mpr (hs symbol hmem), (hsymbols symbol hmem).2.1⟩
  rw [hready.limit_eq, adaptiveBits_congr (fun x hx => hones x (Finset.mem_range.mp hx))
    fun x hx => Finset.mem_range.mpr (hs x hx)] at hideal
  have hfixedIdeal := acodIdealBits_fixed hfixed.exact symbols
  rw [hlimit] at hfixedIdeal
  rw [Finset.card_range, ← hideal, ← hfixedIdeal] at hadaptive
  have heq : adaptive = acodEncodeAll (acodEncoderInit (writerInit staleBytes))
      (adaptiveInput (ftableInit length initFlags) symbols) := congrArg Prod.fst (acodEncodeAdaptively_eq _ _ _)
  rw [heq]
  linarith

/-- Two symbols, the second one rare, against a table that never changes. -/
theorem acod_adaptive_output_length_two :
    let adaptive := (acodEncodeAdaptively (acodEncoderInit (writerInit [0xaa])) (ftableInit 2 FTABLE_INIT_ONE) [0, 0, 0, 1]).1
    let fixedInput := [0, 0, 0, 1].map fun symbol => (ftableInit 2 FTABLE_INIT_ONE, symbol)
    let written := acodEncodeAll (acodEncoderInit (writerInit [0xaa])) fixedInput
    ((acodEncoderDeinit adaptive).bits.length : ℝ) ≤ (acodEncoderDeinit written).bits.length +
      (2 - 1 : ℕ) * Real.logb 2 ((4 : ℕ) + 1) + acodRoundingBits fixedInput +
      (4 : ℕ) * (3 * ((2 + 4 : ℕ) / (ACOD_MIN_RANGE.toNat : ℝ))) + 2 := by
  obtain ⟨hready, -⟩ := ftableInit_ready 2 FTABLE_INIT_ONE (by decide) (by decide)
  refine @acod_adaptive_output_length [0xaa] [0xaa] (by decide) (by decide) 2 FTABLE_INIT_ONE (by decide) (by decide)
    [0, 0, 0, 1] (by decide) _ hready.ok hready.limit_eq fun symbol hmem => ?_
  have hlt : symbol < 2 := by
    simp only [List.mem_cons, List.not_mem_nil, or_false] at hmem
    rcases hmem with rfl | rfl | rfl | rfl <;> decide
  exact ⟨hlt, hready.positive symbol hlt, acodShareOfTwo_of_total_le (hready.positive symbol hlt) (by decide)⟩

end Scomp
