/-
Coding a sequence with frequencies that count what has been coded.

Each symbol costs the logarithm of its inverse frequency, and is counted
after it. Starting with one of every symbol, that costs no more than any
fixed frequencies do, but for the logarithm of a polynomial in the length.
-/
import Mathlib.Data.Nat.Choose.Multinomial
import Scomp.Lib.CodeLength

namespace AdaptiveCode

open scoped Nat

variable {ι : Type} [DecidableEq ι]

/-- The frequencies with one symbol counted. -/
def count (freq : ι → ℕ) (i : ι) : ι → ℕ := fun j => freq j + if j = i then 1 else 0

/-- The bits of one symbol. -/
noncomputable def symbolBits (symbols : Finset ι) (freq : ι → ℕ) (i : ι) : ℝ :=
  IntervalCoding.log2 ((∑ j ∈ symbols, freq j : ℕ) / freq i)

noncomputable def fixedBits (symbols : Finset ι) (freq : ι → ℕ) (input : List ι) : ℝ :=
  (input.map (symbolBits symbols freq)).sum

noncomputable def adaptiveBits (symbols : Finset ι) : (ι → ℕ) → List ι → ℝ
  | _, [] => 0
  | freq, i :: input => symbolBits symbols freq i + adaptiveBits symbols (count freq i) input

/-- Only the frequencies of the symbols count. -/
theorem adaptiveBits_congr {symbols : Finset ι} {freq freq' : ι → ℕ} {input : List ι}
    (hfreq : ∀ i ∈ symbols, freq i = freq' i) (h : ∀ i ∈ input, i ∈ symbols) :
    adaptiveBits symbols freq input = adaptiveBits symbols freq' input := by
  induction input generalizing freq freq' with
  | nil => rfl
  | cons i input ih =>
    obtain ⟨hi, hrest⟩ := List.forall_mem_cons.mp h
    have hnext : ∀ j ∈ symbols, count freq i j = count freq' i j := fun j hj => by rw [count, count, hfreq j hj]
    rw [adaptiveBits, adaptiveBits, symbolBits, symbolBits, Finset.sum_congr rfl hfreq, hfreq i hi, ih hnext hrest]

/-! ## What adapting costs -/

/-- The costs telescope in the logarithm of this. -/
noncomputable def spread (symbols : Finset ι) (freq : ι → ℕ) : ℝ :=
  ((∑ i ∈ symbols, freq i) - 1)! / (∏ i ∈ symbols, (freq i - 1)! : ℕ)

section
variable {symbols : Finset ι} {freq : ι → ℕ}

theorem sum_count {i : ι} (hi : i ∈ symbols) : ∑ j ∈ symbols, count freq i j = ∑ j ∈ symbols, freq j + 1 := by
  simp only [count, Finset.sum_add_distrib, Finset.sum_ite_eq', if_pos hi]

theorem prod_factorial_count {i : ι} (hi : i ∈ symbols) (hpos : 0 < freq i) :
    ∏ j ∈ symbols, (count freq i j - 1)! = freq i * ∏ j ∈ symbols, (freq j - 1)! := by
  have hothers : ∏ j ∈ symbols.erase i, (count freq i j - 1)! = ∏ j ∈ symbols.erase i, (freq j - 1)! :=
    Finset.prod_congr rfl fun j hj => by rw [count, if_neg (Finset.ne_of_mem_erase hj), Nat.add_zero]
  have hself : (count freq i i - 1)! = freq i * (freq i - 1)! := by
    rw [count, if_pos rfl, Nat.add_sub_cancel, Nat.mul_factorial_pred hpos.ne']
  rw [← Finset.mul_prod_erase symbols _ hi, ← Finset.mul_prod_erase symbols (fun j => (freq j - 1)!) hi, hothers, hself,
    Nat.mul_assoc]

omit [DecidableEq ι] in
theorem spread_pos : 0 < spread symbols freq := by
  have hprod : 0 < ∏ i ∈ symbols, (freq i - 1)! := Finset.prod_pos fun i _ => Nat.factorial_pos _
  exact div_pos (by exact_mod_cast Nat.factorial_pos _) (by exact_mod_cast hprod)

theorem spread_count {i : ι} (hi : i ∈ symbols) (hpos : 0 < freq i) :
    spread symbols (count freq i) = spread symbols freq * ((∑ j ∈ symbols, freq j : ℕ) / freq i) := by
  have hsum : 0 < ∑ j ∈ symbols, freq j := Nat.lt_of_lt_of_le hpos (Finset.single_le_sum (fun _ _ => Nat.zero_le _) hi)
  have hprod : 0 < ∏ j ∈ symbols, (freq j - 1)! := Finset.prod_pos fun j _ => Nat.factorial_pos _
  have hprodR : ((∏ j ∈ symbols, (freq j - 1)! : ℕ) : ℝ) ≠ 0 := by exact_mod_cast hprod.ne'
  have hposR : (freq i : ℝ) ≠ 0 := by exact_mod_cast hpos.ne'
  rw [spread, spread, sum_count hi, prod_factorial_count hi hpos, Nat.add_sub_cancel, ← Nat.mul_factorial_pred hsum.ne']
  rw [Nat.cast_mul, Nat.cast_mul]
  field_simp

/-- **The cost of adapting**, by the frequencies it starts and ends with. -/
theorem adaptiveBits_eq {input : List ι} (h : ∀ i ∈ input, i ∈ symbols ∧ 0 < freq i) :
    adaptiveBits symbols freq input =
      Real.logb 2 (spread symbols fun i => freq i + input.count i) - Real.logb 2 (spread symbols freq) := by
  induction input generalizing freq with
  | nil => simp [adaptiveBits]
  | cons i input ih =>
    obtain ⟨⟨hi, hpos⟩, hrest⟩ := List.forall_mem_cons.mp h
    have hnext : ∀ j ∈ input, j ∈ symbols ∧ 0 < count freq i j := fun j hj =>
      ⟨(hrest j hj).1, Nat.lt_of_lt_of_le (hrest j hj).2 (Nat.le_add_right _ _)⟩
    have hcounted : (fun j => count freq i j + input.count j) = fun j => freq j + (i :: input).count j := by
      funext j
      simp only [count, List.count_cons, beq_iff_eq, eq_comm (a := i)]
      omega
    have hsum : 0 < ∑ j ∈ symbols, freq j :=
      Nat.lt_of_lt_of_le hpos (Finset.single_le_sum (fun _ _ => Nat.zero_le _) hi)
    have hratio : ((∑ j ∈ symbols, freq j : ℕ) : ℝ) / freq i ≠ 0 :=
      div_ne_zero (by exact_mod_cast hsum.ne') (by exact_mod_cast hpos.ne')
    rw [adaptiveBits, ih hnext, hcounted, spread_count hi hpos, Real.logb_mul spread_pos.ne' hratio, symbolBits]
    ring

end

/-! ## Against fixed frequencies -/

theorem choose_le_pow (n k : ℕ) : (k + n).choose k ≤ (n + 1) ^ k := by
  induction k with
  | zero => simp
  | succ k ih =>
    have hstep := Nat.add_one_mul_choose_eq (k + n) k
    have hle : k + n + 1 ≤ (n + 1) * (k + 1) := by nlinarith
    have hmul : (k + 1 + n).choose (k + 1) * (k + 1) ≤ (n + 1) ^ (k + 1) * (k + 1) := by
      rw [show k + 1 + n = k + n + 1 by omega, ← hstep]
      calc (k + n + 1) * (k + n).choose k ≤ ((n + 1) * (k + 1)) * (n + 1) ^ k := Nat.mul_le_mul hle ih
        _ = (n + 1) ^ (k + 1) * (k + 1) := by ring
    exact Nat.le_of_mul_le_mul_right hmul k.succ_pos

/-- One term of the multinomial theorem. -/
theorem multinomial_mul_le (symbols : Finset ι) (counts freq : ι → ℕ) (hcounts : ∀ i, counts i ≠ 0 → i ∈ symbols) :
    Nat.multinomial symbols counts * ∏ i ∈ symbols, freq i ^ counts i ≤
      (∑ i ∈ symbols, freq i) ^ ∑ i ∈ symbols, counts i := by
  rw [Finset.sum_pow_eq_sum_piAntidiag]
  exact Finset.single_le_sum
    (f := fun k => Nat.multinomial symbols k * ∏ i ∈ symbols, freq i ^ k i) (fun _ _ => Nat.zero_le _)
    (Finset.mem_piAntidiag.mpr ⟨rfl, hcounts⟩)

theorem fixedBits_eq {symbols : Finset ι} {freq : ι → ℕ} {input : List ι} (h : ∀ i ∈ input, i ∈ symbols) :
    fixedBits symbols freq input = ∑ i ∈ symbols, input.count i * symbolBits symbols freq i := by
  have hsubset : input.toFinset ⊆ symbols := fun i hi => h i (List.mem_toFinset.mp hi)
  rw [fixedBits, Finset.sum_list_map_count]
  simp only [nsmul_eq_mul]
  refine Finset.sum_subset hsubset fun i _ hi => ?_
  rw [List.count_eq_zero.mpr fun hmem => hi (List.mem_toFinset.mpr hmem), Nat.cast_zero, zero_mul]

theorem sum_list_count {symbols : Finset ι} {input : List ι} (h : ∀ i ∈ input, i ∈ symbols) :
    ∑ i ∈ symbols, input.count i = input.length := by
  induction input with
  | nil => simp
  | cons i input ih =>
    obtain ⟨hi, hrest⟩ := List.forall_mem_cons.mp h
    simp only [List.count_cons, beq_iff_eq, Finset.sum_add_distrib, ih hrest, Finset.sum_ite_eq, if_pos hi,
      List.length_cons]

/-- The orderings of an input are no more than what any fixed frequencies
tell apart. -/
theorem logb_multinomial_le {symbols : Finset ι} {freq : ι → ℕ} {input : List ι}
    (h : ∀ i ∈ input, i ∈ symbols ∧ 0 < freq i) :
    Real.logb 2 (Nat.multinomial symbols input.count : ℕ) ≤ fixedBits symbols freq input := by
  have hmem : ∀ i ∈ input, i ∈ symbols := fun i hi => (h i hi).1
  have hcounts : ∀ i, input.count i ≠ 0 → i ∈ symbols := fun i hi =>
    hmem i (List.count_pos_iff.mp (Nat.pos_of_ne_zero hi))
  have hle := multinomial_mul_le symbols input.count freq hcounts
  have hpower : ∀ i ∈ symbols, freq i ^ input.count i ≠ 0 := by
    intro i _
    by_cases hi : i ∈ input
    · exact pow_ne_zero _ (h i hi).2.ne'
    · rw [List.count_eq_zero.mpr hi, pow_zero]
      exact one_ne_zero
  have hpos : 0 < Nat.multinomial symbols input.count := Nat.multinomial_pos _ _
  have hprod : (∏ i ∈ symbols, (freq i : ℝ) ^ input.count i) ≠ 0 :=
    Finset.prod_ne_zero_iff.mpr fun i hi => by exact_mod_cast hpower i hi
  have hleR : (Nat.multinomial symbols input.count : ℝ) * ∏ i ∈ symbols, (freq i : ℝ) ^ input.count i ≤
      ((∑ i ∈ symbols, freq i : ℕ) : ℝ) ^ ∑ i ∈ symbols, input.count i := by exact_mod_cast hle
  have hposR : (0 : ℝ) < Nat.multinomial symbols input.count := by exact_mod_cast hpos
  have hlog := Real.logb_le_logb_of_le one_lt_two (mul_pos hposR (lt_of_le_of_ne
    (Finset.prod_nonneg fun _ _ => by positivity) hprod.symm)) hleR
  rw [Real.logb_mul hposR.ne' hprod, Real.logb_pow, Real.logb_prod _ _ (fun i hi => by exact_mod_cast hpower i hi)] at hlog
  have hbits : fixedBits symbols freq input = (∑ i ∈ symbols, (input.count i : ℝ)) *
      Real.logb 2 (∑ i ∈ symbols, freq i : ℕ) - ∑ i ∈ symbols, Real.logb 2 ((freq i : ℝ) ^ input.count i) := by
    rw [fixedBits_eq hmem, Finset.sum_mul, ← Finset.sum_sub_distrib]
    refine Finset.sum_congr rfl fun i hi => ?_
    by_cases hin : i ∈ input
    · have hfreq : (freq i : ℝ) ≠ 0 := by exact_mod_cast (h i hin).2.ne'
      have hsum : ((∑ j ∈ symbols, freq j : ℕ) : ℝ) ≠ 0 := by
        exact_mod_cast (Nat.lt_of_lt_of_le (h i hin).2 (Finset.single_le_sum (fun _ _ => Nat.zero_le _) hi)).ne'
      rw [symbolBits, IntervalCoding.log2, Real.logb_div hsum hfreq, Real.logb_pow]
      ring
    · rw [List.count_eq_zero.mpr hin, Nat.cast_zero, pow_zero, Real.logb_one]
      ring
  rw [hbits]
  push_cast at hlog ⊢
  linarith

/-- From one of every symbol, the cost is that of an ordering and that of the
counts. -/
theorem spread_counted {symbols : Finset ι} {input : List ι} (hcard : 0 < symbols.card) (h : ∀ i ∈ input, i ∈ symbols) :
    spread symbols (fun i => 1 + input.count i) =
      (symbols.card - 1 + input.length).choose (symbols.card - 1) * Nat.multinomial symbols input.count *
        spread symbols (fun _ => 1) := by
  have hsum : ∑ i ∈ symbols, (1 + input.count i) - 1 = symbols.card - 1 + input.length := by
    rw [Finset.sum_add_distrib, sum_list_count h, Finset.sum_const, smul_eq_mul, Nat.mul_one]
    omega
  have hcounts := Nat.multinomial_spec symbols input.count
  rw [sum_list_count h] at hcounts
  have hchoose := Nat.add_choose_mul_factorial_mul_factorial (symbols.card - 1) input.length
  rw [← Nat.choose_symm_add] at hchoose
  have hprod : ((∏ i ∈ symbols, (input.count i)! : ℕ) : ℝ) ≠ 0 := by
    exact_mod_cast (Finset.prod_pos fun i _ => Nat.factorial_pos _).ne'
  simp only [spread, hsum, Nat.add_sub_cancel_left, Finset.sum_const, smul_eq_mul, Nat.mul_one, Nat.sub_self,
    Nat.factorial_zero, Finset.prod_const_one, Nat.cast_one, div_one]
  rw [div_eq_iff hprod, ← hchoose, ← hcounts]
  push_cast
  ring

/-- **Adapting costs at most a logarithm more** than any fixed frequencies
that allow the input. -/
theorem adaptiveBits_le {symbols : Finset ι} {freq : ι → ℕ} {input : List ι}
    (h : ∀ i ∈ input, i ∈ symbols ∧ 0 < freq i) :
    adaptiveBits symbols (fun _ => 1) input ≤
      fixedBits symbols freq input + (symbols.card - 1 : ℕ) * Real.logb 2 (input.length + 1) := by
  by_cases hne : input = []
  · simp [hne, adaptiveBits, fixedBits]
  have hmem : ∀ i ∈ input, i ∈ symbols := fun i hi => (h i hi).1
  have hcard : 0 < symbols.card := by
    obtain ⟨i, hi⟩ := List.exists_mem_of_ne_nil input hne
    exact Finset.card_pos.mpr ⟨i, hmem i hi⟩
  have hchoose : 0 < (symbols.card - 1 + input.length).choose (symbols.card - 1) := Nat.choose_pos (Nat.le_add_right _ _)
  have hmultinomial : 0 < Nat.multinomial symbols input.count := Nat.multinomial_pos _ _
  have hchooseR : (0 : ℝ) < (symbols.card - 1 + input.length).choose (symbols.card - 1) := by exact_mod_cast hchoose
  have hmultinomialR : (0 : ℝ) < Nat.multinomial symbols input.count := by exact_mod_cast hmultinomial
  have hleR : ((symbols.card - 1 + input.length).choose (symbols.card - 1) : ℝ) ≤
      ((input.length : ℝ) + 1) ^ (symbols.card - 1) := by exact_mod_cast choose_le_pow input.length (symbols.card - 1)
  have hlog := Real.logb_le_logb_of_le one_lt_two hchooseR hleR
  rw [Real.logb_pow] at hlog
  have horderings := logb_multinomial_le h
  rw [adaptiveBits_eq fun i hi => ⟨hmem i hi, Nat.one_pos⟩, spread_counted hcard hmem,
    Real.logb_mul (mul_pos hchooseR hmultinomialR).ne' spread_pos.ne', Real.logb_mul hchooseR.ne' hmultinomialR.ne']
  linarith

/-! ## An input's own counts -/

/-- A logarithm lies below its tangent at one. -/
theorem symbolBits_count_le {symbols : Finset ι} {freq : ι → ℕ} {input : List ι} {i : ι}
    (h : ∀ i ∈ input, i ∈ symbols ∧ 0 < freq i) (hi : i ∈ input) :
    symbolBits symbols input.count i - symbolBits symbols freq i ≤
      (input.length * freq i / ((∑ j ∈ symbols, freq j : ℕ) * input.count i) - 1) / Real.log 2 := by
  obtain ⟨hmem, hpos⟩ := h i hi
  have hcount : 0 < input.count i := List.count_pos_iff.mpr hi
  have hlength : 0 < input.length := List.length_pos_of_mem hi
  have htotal : 0 < ∑ j ∈ symbols, freq j := Nat.lt_of_lt_of_le hpos (Finset.single_le_sum (fun _ _ => Nat.zero_le _) hmem)
  have hposR : (0 : ℝ) < freq i := by exact_mod_cast hpos
  have hcountR : (0 : ℝ) < input.count i := by exact_mod_cast hcount
  have hlengthR : (0 : ℝ) < input.length := by exact_mod_cast hlength
  have htotalR : (0 : ℝ) < (∑ j ∈ symbols, freq j : ℕ) := by exact_mod_cast htotal
  have hlog : 0 < Real.log 2 := Real.log_pos one_lt_two
  rw [symbolBits, symbolBits, sum_list_count fun i hi => (h i hi).1]
  generalize ((∑ j ∈ symbols, freq j : ℕ) : ℝ) = total at *
  generalize (input.count i : ℝ) = c at *
  generalize (input.length : ℝ) = n at *
  generalize (freq i : ℝ) = f at *
  have hratio : IntervalCoding.log2 (n / c) - IntervalCoding.log2 (total / f) = Real.log (n * f / (total * c)) / Real.log 2 := by
    rw [IntervalCoding.log2, IntervalCoding.log2, Real.logb, Real.logb, ← sub_div,
      ← Real.log_div (div_pos hlengthR hcountR).ne' (div_pos htotalR hposR).ne']
    congr 2
    field_simp
  rw [hratio]
  exact div_le_div_of_nonneg_right (Real.log_le_sub_one_of_pos (by positivity)) hlog.le

/-- **No fixed frequencies cost less than the input's own counts.** -/
theorem fixedBits_count_le {symbols : Finset ι} {freq : ι → ℕ} {input : List ι}
    (h : ∀ i ∈ input, i ∈ symbols ∧ 0 < freq i) :
    fixedBits symbols input.count input ≤ fixedBits symbols freq input := by
  by_cases hne : input = []
  · simp [hne, fixedBits]
  have hmem : ∀ i ∈ input, i ∈ symbols := fun i hi => (h i hi).1
  obtain ⟨first, hfirst⟩ := List.exists_mem_of_ne_nil input hne
  have htotal : 0 < ∑ j ∈ symbols, freq j :=
    Nat.lt_of_lt_of_le (h first hfirst).2 (Finset.single_le_sum (fun _ _ => Nat.zero_le _) (hmem first hfirst))
  have htotalR : ((∑ j ∈ symbols, freq j : ℕ) : ℝ) ≠ 0 := by exact_mod_cast htotal.ne'
  have hlog : 0 < Real.log 2 := Real.log_pos one_lt_two
  -- symbol by symbol, with weights that cancel in the sum
  have hterm : ∀ i ∈ symbols, input.count i * symbolBits symbols input.count i - input.count i * symbolBits symbols freq i ≤
      (input.length * freq i / (∑ j ∈ symbols, freq j : ℕ) - input.count i) / Real.log 2 := by
    intro i _
    by_cases hi : i ∈ input
    · have hcount : (0 : ℝ) < input.count i := by exact_mod_cast List.count_pos_iff.mpr hi
      have hle := mul_le_mul_of_nonneg_left (symbolBits_count_le h hi) hcount.le
      rw [mul_sub] at hle
      refine hle.trans_eq ?_
      field_simp
    · rw [List.count_eq_zero.mpr hi, Nat.cast_zero, zero_mul, zero_mul, sub_zero, sub_zero]
      positivity
  have hsum := Finset.sum_le_sum hterm
  have hcounts : ((∑ i ∈ symbols, input.count i : ℕ) : ℝ) = input.length := by rw [sum_list_count hmem]
  have hzero : ∑ i ∈ symbols, (input.length * freq i / (∑ j ∈ symbols, freq j : ℕ) - input.count i) / Real.log 2 = 0 := by
    rw [← Finset.sum_div, Finset.sum_sub_distrib, ← Finset.sum_div, ← Finset.mul_sum, ← Nat.cast_sum, ← Nat.cast_sum,
      hcounts, mul_div_assoc, div_self htotalR, mul_one, sub_self, zero_div]
  rw [hzero, Finset.sum_sub_distrib, ← fixedBits_eq hmem, ← fixedBits_eq hmem] at hsum
  linarith

/-! ## Several codes in turn -/

section

variable {κ : Type} [DecidableEq κ]

/-- Each symbol is coded, and counted, with the frequencies of its key. -/
noncomputable def interleavedBits (symbols : κ → Finset ι) : (κ → ι → ℕ) → List (κ × ι) → ℝ
  | _, [] => 0
  | freq, (k, i) :: input =>
    symbolBits (symbols k) (freq k) i + interleavedBits symbols (Function.update freq k (count (freq k) i)) input

/-- The symbols of one key, in their order. -/
def symbolsOf (k : κ) (input : List (κ × ι)) : List ι := (input.filter fun p => p.1 = k).map Prod.snd

omit [DecidableEq ι] in
theorem symbolsOf_self (k : κ) (i : ι) (input : List (κ × ι)) : symbolsOf k ((k, i) :: input) = i :: symbolsOf k input := by
  simp [symbolsOf]

omit [DecidableEq ι] in
theorem symbolsOf_of_ne {k j : κ} (h : k ≠ j) (i : ι) (input : List (κ × ι)) :
    symbolsOf j ((k, i) :: input) = symbolsOf j input := by
  simp [symbolsOf, h]

/-- **Codes that take turns cost what they cost apart.** -/
theorem interleavedBits_eq {symbols : κ → Finset ι} {freq : κ → ι → ℕ} {input : List (κ × ι)} {keys : Finset κ}
    (h : ∀ p ∈ input, p.1 ∈ keys) :
    interleavedBits symbols freq input = ∑ k ∈ keys, adaptiveBits (symbols k) (freq k) (symbolsOf k input) := by
  induction input generalizing freq with
  | nil => simp [interleavedBits, symbolsOf, adaptiveBits]
  | cons p input ih =>
    obtain ⟨k, i⟩ := p
    obtain ⟨hk, hrest⟩ := List.forall_mem_cons.mp h
    have hothers : ∑ j ∈ keys.erase k, adaptiveBits (symbols j) (Function.update freq k (count (freq k) i) j)
        (symbolsOf j input) = ∑ j ∈ keys.erase k, adaptiveBits (symbols j) (freq j) (symbolsOf j ((k, i) :: input)) := by
      refine Finset.sum_congr rfl fun j hj => ?_
      have hne := Finset.ne_of_mem_erase hj
      rw [Function.update_of_ne hne, symbolsOf_of_ne hne.symm]
    rw [interleavedBits, ih hrest, ← Finset.add_sum_erase keys _ hk, ← Finset.add_sum_erase keys _ hk, hothers,
      Function.update_self, symbolsOf_self, adaptiveBits, add_assoc]

/-- Only the frequencies of the symbols count. -/
theorem interleavedBits_congr {symbols : κ → Finset ι} {freq freq' : κ → ι → ℕ} {input : List (κ × ι)}
    (hfreq : ∀ k, ∀ i ∈ symbols k, freq k i = freq' k i) (h : ∀ p ∈ input, p.2 ∈ symbols p.1) :
    interleavedBits symbols freq input = interleavedBits symbols freq' input := by
  have hkeys : ∀ p ∈ input, p.1 ∈ (input.map Prod.fst).toFinset := fun p hp =>
    List.mem_toFinset.mpr (List.mem_map_of_mem hp)
  rw [interleavedBits_eq hkeys, interleavedBits_eq hkeys]
  refine Finset.sum_congr rfl fun k _ => adaptiveBits_congr (hfreq k) fun i hi => ?_
  obtain ⟨p, hp, rfl⟩ := List.mem_map.mp hi
  obtain ⟨hmem, hkey⟩ := List.mem_filter.mp hp
  rw [← of_decide_eq_true hkey]
  exact h p hmem

end

end AdaptiveCode
