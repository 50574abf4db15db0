/-
Scanned tokens print back: what the detokenizer writes for a token is what
the tokenizer consumed for it.
-/
import Scomp.Json.TokenizerFacts
import Scomp.Json.Detokenizer
import Mathlib.Data.Bool.AllAny
import Mathlib.Tactic.FinCases

namespace Scomp

/-! ## Merged bytes -/

theorem merge_toNat {value : UInt64} {b : Byte} {i : Nat} (hi : i < 8) (hv : value.toNat < 2 ^ (8 * i)) :
    (value ||| (b.toUInt64 <<< UInt64.ofNat (8 * i))).toNat = b.toNat * 2 ^ (8 * i) + value.toNat := by
  have hb : b.toUInt64.toNat < 2 ^ 8 := by
    rw [UInt8.toNat_toUInt64]
    exact b.toNat_lt
  rw [Bits.or_shiftLeft_toNat hv hb (by omega) (by omega), UInt8.toNat_toUInt64]

/-- The bytes of a value are its base-256 digits. -/
theorem mergedBytes_eq (length : Nat) (chars : UInt64) :
    mergedBytes length chars = (List.range length).map fun k => UInt8.ofNat (chars.toNat / 2 ^ (8 * k)) := by
  induction length generalizing chars with
  | zero => rfl
  | succ length ih =>
    rw [mergedBytes, ih, List.range_succ_eq_map, List.map_cons, List.map_map]
    congr 1
    · apply UInt8.toNat_inj.mp
      simp
    · apply List.map_congr_left
      intro k _
      have hshift : (chars >>> 8).toNat = chars.toNat / 2 ^ 8 := by
        rw [UInt64.toNat_shiftRight, Nat.shiftRight_eq_div_pow]
        rfl
      rw [Function.comp_apply, hshift, Nat.div_div_eq_div_mul, ← Nat.pow_add]
      congr 3
      omega

/-- Merging one more byte appends it. -/
theorem mergedBytes_snoc {value : UInt64} {b : Byte} {i : Nat} (hi : i < 8) (hv : value.toNat < 2 ^ (8 * i)) :
    mergedBytes (i + 1) (value ||| (b.toUInt64 <<< UInt64.ofNat (8 * i))) = mergedBytes i value ++ [b] := by
  rw [mergedBytes_eq, mergedBytes_eq, List.range_succ, List.map_append, merge_toNat hi hv]
  congr 1
  · apply List.map_congr_left
    intro k hk
    have hki : 8 * k + 8 ≤ 8 * i := by have := List.mem_range.mp hk; omega
    obtain ⟨d, hd⟩ : ∃ d, 8 * i = 8 * k + (8 + d) := ⟨8 * i - 8 * k - 8, by omega⟩
    have hsplit : b.toNat * 2 ^ (8 * i) + value.toNat = value.toNat + 2 ^ (8 * k) * (b.toNat * 2 ^ d * 256) := by
      rw [hd, Nat.pow_add, Nat.pow_add]
      ring
    rw [hsplit, Nat.add_mul_div_left _ _ (Nat.two_pow_pos _)]
    apply UInt8.toNat_inj.mp
    rw [UInt8.toNat_ofNat', UInt8.toNat_ofNat']
    omega
  · simp only [List.map_cons, List.map_nil]
    rw [Nat.add_comm, Nat.add_mul_div_right _ _ (Nat.two_pow_pos _), Nat.div_eq_of_lt hv, Nat.zero_add,
      UInt8.ofNat_toNat]

theorem scanMerged_prints {isValid i count value bytes merged} (h : scanMerged isValid i count value bytes = some merged)
    (hv : value.toNat < 2 ^ (8 * i)) (hi : i + count ≤ 8) :
    count ≤ bytes.length ∧ mergedBytes (i + count) merged = mergedBytes i value ++ bytes.take count := by
  induction count generalizing i value bytes with
  | zero =>
    cases h
    exact ⟨Nat.zero_le _, by simp⟩
  | succ count ih =>
    match bytes with
    | [] => cases h
    | b :: bytes =>
      rw [scanMerged] at h
      split at h
      · have hlt : (value ||| (b.toUInt64 <<< UInt64.ofNat (8 * i))).toNat < 2 ^ (8 * (i + 1)) := by
          rw [merge_toNat (by omega) hv, Nat.mul_succ, Nat.pow_add]
          have hb : b.toNat < 256 := b.toNat_lt
          have hb' : (b.toNat + 1) * 2 ^ (8 * i) ≤ 256 * 2 ^ (8 * i) := Nat.mul_le_mul_right _ hb
          rw [Nat.add_mul] at hb'
          omega
        obtain ⟨hlen, hmerged⟩ := ih h hlt (by omega)
        rw [Nat.add_right_comm, mergedBytes_snoc (by omega) hv, Nat.add_assoc, List.append_assoc] at hmerged
        exact ⟨by simpa using hlen, hmerged⟩
      · cases h

/-! ## Digits -/

theorem jtokUint64WillOverflow_false {value : UInt64} {d : Byte} (hd : d.toNat < 10)
    (h : jtokUint64WillOverflow value d = false) :
    (value * 10 + d.toUInt64).toNat = value.toNat * 10 + d.toNat := by
  have hlt : value.toNat < TENTH_OF_MAX_UINT64.toNat - d.toNat := by
    have hnot : ¬ value ≥ TENTH_OF_MAX_UINT64 - d.toUInt64 := by simpa [jtokUint64WillOverflow] using h
    rw [ge_iff_le, UInt64.le_iff_toNat_le, UInt64.toNat_sub_of_le] at hnot
    · rw [UInt8.toNat_toUInt64] at hnot
      omega
    · rw [UInt64.le_iff_toNat_le, UInt8.toNat_toUInt64]
      have ht : TENTH_OF_MAX_UINT64.toNat = 1844674407370955161 := rfl
      omega
  have ht : TENTH_OF_MAX_UINT64.toNat = 1844674407370955161 := rfl
  rw [UInt64.toNat_add, UInt64.toNat_mul, UInt8.toNat_toUInt64, show UInt64.toNat 10 = 10 from rfl]
  omega

/-- A digit's value, and the digit again. -/
theorem digit_spec {b : Byte} (h : ¬ (b < 0x30 || b > 0x39) = true) :
    (b - 0x30).toNat < 10 ∧ 0x30 + UInt8.ofNat (b - 0x30).toNat = b := by
  simp only [Bool.or_eq_true, decide_eq_true_eq, not_or, UInt8.not_lt] at h
  have hlo : 48 ≤ b.toNat := UInt8.le_iff_toNat_le.mp h.1
  have hhi : b.toNat ≤ 57 := UInt8.le_iff_toNat_le.mp h.2
  have hsub : (b - 0x30).toNat = b.toNat - 48 := UInt8.toNat_sub_of_le _ _ h.1
  refine ⟨by omega, ?_⟩
  apply UInt8.toNat_inj.mp
  rw [UInt8.toNat_add, UInt8.toNat_ofNat', hsub, show UInt8.toNat 0x30 = 48 from rfl]
  omega

/-- Only the digit 0 has no value. -/
theorem digit_pos {b : Byte} (h : ¬ (b < 0x30 || b > 0x39) = true) (hne : b ≠ 0x30) : 0 < (b - 0x30).toNat := by
  by_contra hzero
  refine hne ?_
  rw [← (digit_spec h).2, show (b - 0x30).toNat = 0 by omega]
  rfl

/-- After a first non-zero digit, the digits read are appended. -/
theorem scanUint_digits {leadingZeroes value bytes} (hv : 0 < value.toNat)
    (hvalid : jtokUintIsInvalid (scanUint leadingZeroes value bytes).1 = false) :
    (scanUint leadingZeroes value bytes).2 ≤ bytes.length ∧
      (scanUint leadingZeroes value bytes).1.leadingZeroes = leadingZeroes ∧
      0 < (scanUint leadingZeroes value bytes).1.value.toNat ∧
      decimalBytes (scanUint leadingZeroes value bytes).1.value.toNat =
        decimalBytes value.toNat ++ bytes.take (scanUint leadingZeroes value bytes).2 := by
  induction bytes generalizing value with
  | nil => exact ⟨Nat.le_refl _, rfl, hv, by simp [scanUint]⟩
  | cons b bytes ih =>
    have hne : value ≠ 0 := by
      rintro rfl
      exact absurd hv (by decide)
    rw [scanUint] at hvalid ⊢
    split at hvalid
    · next hb =>
      rw [if_pos hb]
      exact ⟨Nat.zero_le _, rfl, hv, by simp⟩
    · next hb =>
      obtain ⟨hd, hdigit⟩ := digit_spec hb
      rw [if_neg hb]
      split at hvalid
      · next hz => simp [hne] at hz
      · next hz =>
        rw [if_neg hz]
        split at hvalid
        · cases hvalid
        · next ho =>
          rw [if_neg ho]
          have hnext := jtokUint64WillOverflow_false hd (Bool.eq_false_iff.mpr ho)
          obtain ⟨hlen, hlead, hpos, hdec⟩ := @ih (value * 10 + (b - 0x30).toUInt64) (by rw [hnext]; omega) hvalid
          refine ⟨by simpa using hlen, hlead, hpos, ?_⟩
          rw [hdec, hnext, decimalBytes_snoc hv hd, hdigit, List.append_assoc]
          rfl

/-- What `_jtok_read_uint` reads is the leading zeroes and then the value,
unless that is zero. -/
theorem scanUint_prints {leadingZeroes bytes} (hzeroes : leadingZeroes.toNat < 80)
    (hvalid : jtokUintIsInvalid (scanUint leadingZeroes 0 bytes).1 = false) :
    (scanUint leadingZeroes 0 bytes).2 ≤ bytes.length ∧
      leadingZeroes.toNat ≤ (scanUint leadingZeroes 0 bytes).1.leadingZeroes.toNat ∧
      List.replicate leadingZeroes.toNat 0x30 ++ bytes.take (scanUint leadingZeroes 0 bytes).2 =
        printPart (scanUint leadingZeroes 0 bytes).1.leadingZeroes (scanUint leadingZeroes 0 bytes).1.value := by
  induction bytes generalizing leadingZeroes with
  | nil => exact ⟨Nat.le_refl _, Nat.le_refl _, by simp [scanUint, printPart]⟩
  | cons b bytes ih =>
    rw [scanUint] at hvalid ⊢
    split at hvalid
    · next hb =>
      rw [if_pos hb]
      exact ⟨Nat.zero_le _, Nat.le_refl _, by simp [printPart]⟩
    · next hb =>
      obtain ⟨hd, hdigit⟩ := digit_spec hb
      rw [if_neg hb]
      split at hvalid
      · next hz =>
        rw [if_pos hz]
        have hb0 : b = 0x30 := by
          simp only [Bool.and_eq_true, decide_eq_true_eq] at hz
          exact hz.1
        split at hvalid
        · cases hvalid
        · next hmax =>
          rw [if_neg hmax]
          have hsucc : (leadingZeroes + 1).toNat = leadingZeroes.toNat + 1 := by
            rw [UInt8.toNat_add, show UInt8.toNat 1 = 1 from rfl]
            omega
          have hlt : (leadingZeroes + 1).toNat < 80 := by
            rw [ge_iff_le, UInt8.not_le] at hmax
            exact UInt8.lt_iff_toNat_lt.mp hmax
          obtain ⟨hlen, hle, hprint⟩ := ih hlt hvalid
          rw [hsucc] at hle hprint
          refine ⟨by simpa using hlen, by simp only; omega, ?_⟩
          rw [← hprint, List.replicate_succ', List.append_assoc, hb0]
          rfl
      · next hz =>
        rw [if_neg hz]
        have hpos := digit_pos hb fun hb0 => by simp [hb0] at hz
        split at hvalid
        · cases hvalid
        · next ho =>
          rw [if_neg ho]
          have hnext := jtokUint64WillOverflow_false hd (Bool.eq_false_iff.mpr ho)
          rw [show UInt64.toNat 0 = 0 from rfl, Nat.zero_mul, Nat.zero_add] at hnext
          obtain ⟨hlen, hlead, hvpos, hdec⟩ := scanUint_digits (by rw [hnext]; exact hpos) hvalid
          refine ⟨by simpa using hlen, by simp only [hlead]; exact Nat.le_refl _, ?_⟩
          have hvne : (scanUint leadingZeroes (0 * 10 + (b - 0x30).toUInt64) bytes).1.value ≠ 0 := by
            intro hzero
            rw [hzero] at hvpos
            exact absurd hvpos (by decide)
          simp only [printPart, hlead, ne_eq, hvne, not_false_eq_true, if_true]
          rw [hdec, hnext, decimalBytes_digit hd, hdigit]
          rfl

/-! ## Numbers -/

/-- The flags before and after a part of a number, as far as other parts
are printed by them. -/
theorem hasFlag_or {flags flag mask : Byte} (h : flag &&& mask = 0) : hasFlag (flags ||| flag) mask = hasFlag flags mask := by
  have hor : (flags ||| flag) &&& mask = flags &&& mask := by
    apply UInt8.toNat_inj.mp
    have hzero : flag.toNat &&& mask.toNat = 0 := by rw [← UInt8.toNat_and, h]; rfl
    rw [UInt8.toNat_and, UInt8.toNat_or, UInt8.toNat_and, Nat.and_or_distrib_right, hzero, Nat.or_zero]
  rw [hasFlag, hasFlag, hor]

theorem uintIsInvalid_false {res : JtokUintReadingResult} (h : ¬ jtokUintIsInvalid res = true) :
    jtokUintIsInvalid res = false := Bool.eq_false_iff.mpr h

/-- `-`, and the flags it leaves. -/
theorem scanNumberSign_prints {bytes number n} (h : scanNumberSign bytes = some (number, n)) :
    n ≤ bytes.length ∧ bytes.take n = printSign number ∧ number.integerPart = 0 ∧
      number.flags ∈ ([0, 2] : List Byte) := by
  match bytes with
  | [] => cases h
  | b :: bytes =>
    rw [scanNumberSign] at h
    split at h
    · next hb =>
      split at h
      · cases h
      · cases h; rw [hb]; exact ⟨by simp, rfl, rfl, by decide⟩
    · cases h; exact ⟨Nat.zero_le _, rfl, rfl, by decide⟩

/-- The digits of the integer part are its decimal ones, `0` included. -/
theorem scanNumberInteger_prints {number bytes number' n} (hzero : number.integerPart = 0)
    (hflags : number.flags ∈ ([0, 2] : List Byte)) (h : scanNumberInteger number bytes = some (number', n)) :
    n ≤ bytes.length ∧ bytes.take n = decimalBytes number'.integerPart.toNat ∧
      printSign number' = printSign number ∧ number'.flags ∈ ([0, 1, 2, 3] : List Byte) := by
  simp only [scanNumberInteger] at h
  split at h
  · cases h
  · next hvalid =>
    simp only [Bool.or_eq_true, not_or, Bool.and_eq_true, decide_eq_true_eq, not_and, gt_iff_lt, UInt8.not_lt] at hvalid
    obtain ⟨⟨hv, hone⟩, hboth⟩ := hvalid
    obtain ⟨hlen, -, hprint⟩ := scanUint_prints (by decide) (uintIsInvalid_false hv)
    rw [show UInt8.toNat 0 = 0 from rfl, List.replicate_zero, List.nil_append] at hprint
    split at h
    · next hlead =>
      cases h
      have hlead1 : (scanUint 0 0 bytes).1.leadingZeroes = 1 := by
        have h1 := UInt8.le_iff_toNat_le.mp hone
        have h2 := UInt8.lt_iff_toNat_lt.mp hlead
        apply UInt8.toNat_inj.mp
        rw [show UInt8.toNat 1 = 1 from rfl] at h1 ⊢
        rw [show UInt8.toNat 0 = 0 from rfl] at h2
        omega
      have hvalue : (scanUint 0 0 bytes).1.value = 0 := by
        have hle := hboth hlead
        rw [UInt64.not_lt, UInt64.le_iff_toNat_le] at hle
        exact UInt64.toNat_inj.mp (Nat.le_antisymm hle (Nat.zero_le _))
      refine ⟨hlen, ?_, ?_, ?_⟩
      · rw [hprint, hlead1, hvalue, hzero]; rfl
      · have hsign : ∀ flags ∈ ([0, 2] : List Byte), hasFlag (flags ||| JSON_NUMBER_INTEGER_PART_IS_ZERO)
            JSON_NUMBER_IS_NEGATIVE = hasFlag flags JSON_NUMBER_IS_NEGATIVE := List.all_iff_forall_prop.mp (by decide)
        simp only [printSign, hsign _ hflags]
      · have hnext : ∀ flags ∈ ([0, 2] : List Byte),
            flags ||| JSON_NUMBER_INTEGER_PART_IS_ZERO ∈ ([0, 1, 2, 3] : List Byte) := List.all_iff_forall_prop.mp (by decide)
        exact hnext _ hflags
    · next hlead =>
      cases h
      have hlead0 : (scanUint 0 0 bytes).1.leadingZeroes = 0 := by
        rw [UInt8.not_lt, UInt8.le_iff_toNat_le] at hlead
        exact UInt8.toNat_inj.mp (Nat.le_antisymm hlead (Nat.zero_le _))
      have hvalue : (scanUint 0 0 bytes).1.value ≠ 0 := by
        intro hz
        simp [jtokUintIsInvalid, hz, hlead0] at hv
      refine ⟨hlen, ?_, rfl, ?_⟩
      · rw [hprint, printPart, hlead0, if_pos hvalue]; rfl
      · have hnext : ∀ flags ∈ ([0, 2] : List Byte), flags ∈ ([0, 1, 2, 3] : List Byte) :=
          List.all_iff_forall_prop.mp (by decide)
        exact hnext _ hflags

theorem scanNumberFraction_prints {number bytes number' n} (hflags : number.flags ∈ ([0, 1, 2, 3] : List Byte))
    (h : scanNumberFraction number bytes = some (number', n)) :
    n ≤ bytes.length ∧ bytes.take n = printFraction number' ∧ printSign number' = printSign number ∧
      number'.integerPart = number.integerPart ∧
      number'.flags ∈ ([0, 1, 2, 3, 4, 5, 6, 7] : List Byte) := by
  have hnone : printFraction number = [] := by
    have hno : ∀ flags ∈ ([0, 1, 2, 3] : List Byte), hasFlag flags JSON_NUMBER_HAS_FRACTION = false :=
      List.all_iff_forall_prop.mp (by decide)
    simp [printFraction, hno _ hflags]
  have hsame : ∀ flags ∈ ([0, 1, 2, 3] : List Byte), flags ∈ ([0, 1, 2, 3, 4, 5, 6, 7] : List Byte) :=
    List.all_iff_forall_prop.mp (by decide)
  match bytes with
  | [] => cases h; exact ⟨Nat.le_refl _, by rw [hnone]; rfl, rfl, rfl, hsame _ hflags⟩
  | b :: bytes =>
    rw [scanNumberFraction] at h
    split at h
    · next hb =>
      split at h
      · cases h
      · obtain ⟨⟨number₁, n₁⟩, hdigits, he⟩ := Option.map_eq_some_iff.mp h
        simp only [scanFractionDigits] at hdigits
        split at hdigits
        · cases hdigits
        · next hvalid =>
          obtain ⟨hlen, -, hprint⟩ := scanUint_prints (by decide) (uintIsInvalid_false hvalid)
          rw [show UInt8.toNat 0 = 0 from rfl, List.replicate_zero, List.nil_append] at hprint
          cases hdigits
          cases he
          have hhas : ∀ flags ∈ ([0, 1, 2, 3] : List Byte),
              hasFlag (flags ||| JSON_NUMBER_HAS_FRACTION) JSON_NUMBER_HAS_FRACTION = true ∧
              flags ||| JSON_NUMBER_HAS_FRACTION ∈ ([0, 1, 2, 3, 4, 5, 6, 7] : List Byte) :=
            List.all_iff_forall_prop.mp (by decide)
          refine ⟨by rw [List.length_cons]; omega, ?_, ?_, rfl, (hhas _ hflags).2⟩
          · simp only [printFraction, (hhas _ hflags).1, if_true]
            rw [Nat.add_comm, List.take_succ_cons, hprint, hb]
          · simp only [printSign, hasFlag_or (show JSON_NUMBER_HAS_FRACTION &&& JSON_NUMBER_IS_NEGATIVE = 0 by decide)]
    · cases h; exact ⟨Nat.zero_le _, by rw [hnone]; rfl, rfl, rfl, hsame _ hflags⟩

/-- The flags of the exponent leave the other parts' flags alone. -/
theorem exponentFlags_spec : ∀ flags ∈ ([0, 1, 2, 3, 4, 5, 6, 7] : List Byte),
    ∀ upper ∈ ([0, JSON_NUMBER_EXPONENT_UPPERCASE] : List Byte),
    ∀ sign ∈ ([0, JSON_NUMBER_EXPONENT_IS_NEGATIVE, JSON_NUMBER_EXPONENT_HAS_PLUS] : List Byte),
      let flags' := flags ||| JSON_NUMBER_HAS_EXPONENT ||| upper ||| sign
      hasFlag flags' JSON_NUMBER_IS_NEGATIVE = hasFlag flags JSON_NUMBER_IS_NEGATIVE ∧
      hasFlag flags' JSON_NUMBER_HAS_FRACTION = hasFlag flags JSON_NUMBER_HAS_FRACTION ∧
      hasFlag flags' JSON_NUMBER_HAS_EXPONENT = true ∧
      hasFlag flags' JSON_NUMBER_EXPONENT_UPPERCASE = (upper ≠ 0) ∧
      hasFlag flags' (JSON_NUMBER_EXPONENT_HAS_PLUS ||| JSON_NUMBER_EXPONENT_IS_NEGATIVE) = (sign ≠ 0) ∧
      hasFlag flags' JSON_NUMBER_EXPONENT_HAS_PLUS = (sign = JSON_NUMBER_EXPONENT_HAS_PLUS) := by
  intro flags hflags upper hupper sign hsign
  fin_cases hflags <;> fin_cases hupper <;> fin_cases hsign <;> decide

theorem scanExponentSign_prints {number bytes number' n} (h : scanExponentSign number bytes = some (number', n)) :
    ∃ sign ∈ ([0, JSON_NUMBER_EXPONENT_IS_NEGATIVE, JSON_NUMBER_EXPONENT_HAS_PLUS] : List Byte),
      number' = { number with flags := number.flags ||| sign } ∧ n ≤ bytes.length ∧
      bytes.take n = if sign ≠ 0 then [if sign = JSON_NUMBER_EXPONENT_HAS_PLUS then 0x2b else 0x2d] else [] := by
  match bytes with
  | [] => cases h
  | b :: bytes =>
    rw [scanExponentSign] at h
    split at h
    · next hb =>
      split at h
      · cases h
      · cases h
        simp only [Bool.or_eq_true, decide_eq_true_eq] at hb
        obtain rfl | rfl := hb
        · exact ⟨JSON_NUMBER_EXPONENT_IS_NEGATIVE, by decide, rfl, by simp, rfl⟩
        · exact ⟨JSON_NUMBER_EXPONENT_HAS_PLUS, by decide, rfl, by simp, rfl⟩
    · cases h
      exact ⟨0, by decide, by rw [UInt8.or_zero], Nat.zero_le _, rfl⟩

theorem scanExponentDigits_prints {number bytes number' n} (h : scanExponentDigits number bytes = some (number', n)) :
    ∃ part zeroes, number' = { number with exponentPart := part, exponentLeadingZeroes := zeroes } ∧
      n ≤ bytes.length ∧ bytes.take n = printPart zeroes part.toUInt64 := by
  simp only [scanExponentDigits] at h
  split at h
  · cases h
  · next hvalid =>
    simp only [Bool.or_eq_true, not_or, decide_eq_true_eq, gt_iff_lt, UInt64.not_lt] at hvalid
    obtain ⟨hlen, -, hprint⟩ := scanUint_prints (by decide) (uintIsInvalid_false hvalid.1)
    rw [show UInt8.toNat 0 = 0 from rfl, List.replicate_zero, List.nil_append] at hprint
    have hsmall : (scanUint 0 0 bytes).1.value.toNat ≤ 65535 := UInt64.le_iff_toNat_le.mp hvalid.2
    have hpart : (scanUint 0 0 bytes).1.value.toUInt16.toUInt64 = (scanUint 0 0 bytes).1.value := by
      apply UInt64.toNat_inj.mp
      rw [UInt16.toNat_toUInt64, UInt64.toNat_toUInt16]
      omega
    cases h
    exact ⟨_, _, rfl, hlen, by rw [hpart, hprint]⟩

theorem scanNumberExponent_prints {number bytes number' n}
    (hflags : number.flags ∈ ([0, 1, 2, 3, 4, 5, 6, 7] : List Byte))
    (h : scanNumberExponent number bytes = some (number', n)) :
    n ≤ bytes.length ∧ bytes.take n = printExponent number' ∧ printSign number' = printSign number ∧
      number'.integerPart = number.integerPart ∧ printFraction number' = printFraction number := by
  have hnone : printExponent number = [] := by
    have hno : ∀ flags ∈ ([0, 1, 2, 3, 4, 5, 6, 7] : List Byte),
        hasFlag flags JSON_NUMBER_HAS_EXPONENT = false := List.all_iff_forall_prop.mp (by decide)
    simp [printExponent, hno _ hflags]
  match bytes with
  | [] => cases h; exact ⟨Nat.le_refl _, by rw [hnone]; rfl, rfl, rfl, rfl⟩
  | b :: bytes =>
    rw [scanNumberExponent] at h
    split at h
    · next hb =>
      split at h
      · cases h
      · obtain ⟨⟨number₂, n₂⟩, hboth, he⟩ := Option.map_eq_some_iff.mp h
        cases he
        obtain ⟨number₁, n₁, n₂, hsign, hdigits, rfl⟩ := Scanner.andThen_eq_some hboth
        obtain ⟨sign, hmem, rfl, hlen₁, htake₁⟩ := scanExponentSign_prints hsign
        obtain ⟨part, zeroes, rfl, hlen₂, htake₂⟩ := scanExponentDigits_prints hdigits
        have hupper : (if b = 0x45 then JSON_NUMBER_EXPONENT_UPPERCASE else 0) ∈
            ([0, JSON_NUMBER_EXPONENT_UPPERCASE] : List Byte) := by split <;> decide
        have hb' : (if (if b = 0x45 then JSON_NUMBER_EXPONENT_UPPERCASE else 0) ≠ 0 then (0x45 : Byte) else 0x65)
            = b := by
          simp only [Bool.or_eq_true, decide_eq_true_eq] at hb
          obtain rfl | rfl := hb <;> rfl
        obtain ⟨hneg, hfrac, hexp, hup, hany, hplus⟩ := exponentFlags_spec _ hflags _ hupper _ hmem
        rw [List.length_drop] at hlen₂
        refine ⟨by rw [List.length_cons]; omega, ?_, ?_, rfl, ?_⟩
        · simp only [withExponent, printExponent, printExponentSign, hexp, hup, hany, hplus, if_true]
          rw [hb', ← htake₁, ← htake₂, ← List.take_add, Nat.add_comm 1, List.take_succ_cons]
        · simp only [printSign, withExponent, hneg]
        · simp only [printFraction, withExponent, hfrac]
    · cases h; exact ⟨Nat.zero_le _, by rw [hnone]; rfl, rfl, rfl, rfl⟩

theorem decimalBytes_ne_nil (n : Nat) : decimalBytes n ≠ [] := by
  unfold decimalBytes
  split
  · simp
  · next hn => simpa [Nat.digits_eq_nil_iff_eq_zero] using hn

/-- The four parts of a number print back one after another. -/
theorem scanNumber_prints {bytes token n} (h : scanNumber bytes = some (token, n)) :
    token.kind = .number ∧ 0 < n ∧ n ≤ bytes.length ∧ bytes.take n = printNumber token.number := by
  obtain ⟨⟨number₄, n⟩, hall, he⟩ := Option.map_eq_some_iff.mp h
  cases he
  obtain ⟨number₃, m₃, n₄, hall₃, hexp, rfl⟩ := Scanner.andThen_eq_some hall
  obtain ⟨number₂, m₂, n₃, hall₂, hfrac, rfl⟩ := Scanner.andThen_eq_some hall₃
  obtain ⟨number₁, n₁, n₂, hsign, hint, rfl⟩ := Scanner.andThen_eq_some hall₂
  obtain ⟨hlen₁, htake₁, hzero, hflags₁⟩ := scanNumberSign_prints hsign
  obtain ⟨hlen₂, htake₂, hsign₂, hflags₂⟩ := scanNumberInteger_prints hzero hflags₁ hint
  obtain ⟨hlen₃, htake₃, hsign₃, hint₃, hflags₃⟩ := scanNumberFraction_prints hflags₂ hfrac
  obtain ⟨hlen₄, htake₄, hsign₄, hint₄, hfrac₄⟩ := scanNumberExponent_prints hflags₃ hexp
  rw [List.length_drop] at hlen₂ hlen₃ hlen₄
  have hn₂ : 0 < n₂ := by
    have hne := decimalBytes_ne_nil number₂.integerPart.toNat
    rw [← htake₂] at hne
    by_contra hzero
    rw [show n₂ = 0 by omega] at hne
    exact hne rfl
  refine ⟨rfl, by omega, by omega, ?_⟩
  show bytes.take (n₁ + n₂ + n₃ + n₄) = printNumber number₄
  rw [printNumber, hsign₄, hsign₃, hsign₂, hint₄, hint₃, hfrac₄, ← htake₁, ← htake₂, ← htake₃, ← htake₄,
    ← List.take_add, ← List.take_add, ← List.take_add]

/-! ## Tokens -/

/-- What scanning owes the printer: a valid token whose printed bytes are the
scanned ones. -/
structure Reprints (bytes : List Byte) (token : JsonToken) (n : Nat) : Prop where
  valid : token.kind ≠ .invalid
  pos : 0 < n
  le : n ≤ bytes.length
  printed : printToken token = bytes.take n

theorem scanEscape_reprints {bytes token n} (h : scanEscape (0x5c :: bytes) = some (token, n)) :
    Reprints (0x5c :: bytes) token n := by
  match bytes with
  | [] => cases h
  | nextChar :: bytes =>
    rw [scanEscape] at h
    split at h
    · cases h
      exact ⟨JsonTokenKind.noConfusion, by decide, by simp, rfl⟩
    · split at h
      · next hu =>
        split at h
        · cases h
        · obtain ⟨value, hmerged, he⟩ := Option.map_eq_some_iff.mp h
          cases he
          obtain ⟨hlen, hprint⟩ := scanMerged_prints hmerged (by decide) (by decide)
          refine ⟨JsonTokenKind.noConfusion, by decide, by simp only [List.length_cons]; omega, ?_⟩
          show [0x5c, 0x75] ++ mergedBytes 4 value = _
          rw [hprint, hu]
          rfl
      · cases h

theorem utf8GetSequenceLengthByFirstByte_le (b : Byte) : utf8GetSequenceLengthByFirstByte b ≤ 4 := by
  unfold utf8GetSequenceLengthByFirstByte
  split_ifs <;> decide

theorem scanUnicodeCharacter_reprints {b bytes utf8Length token n} (hpos : 0 < utf8Length) (hle : utf8Length ≤ 4)
    (h : scanUnicodeCharacter b utf8Length (b :: bytes) = some (token, n)) : Reprints (b :: bytes) token n := by
  obtain ⟨value, hmerged, he⟩ := Option.map_eq_some_iff.mp h
  cases he
  have hfirst : b.toUInt64.toNat < 2 ^ (8 * 1) := by
    rw [UInt8.toNat_toUInt64]
    exact b.toNat_lt
  obtain ⟨hlen, hprint⟩ := scanMerged_prints hmerged hfirst (by omega)
  have hlength : (UInt8.ofNat utf8Length).toNat = utf8Length := by
    rw [UInt8.toNat_ofNat']
    omega
  have hsucc : 1 + (utf8Length - 1) = utf8Length := by omega
  refine ⟨JsonTokenKind.noConfusion, hpos, by simp only [List.length_cons, List.tail_cons] at hlen ⊢; omega, ?_⟩
  show mergedBytes (UInt8.ofNat utf8Length).toNat value = _
  rw [hlength, ← hsucc, hprint, Nat.add_comm 1, List.take_succ_cons]
  have hone : mergedBytes 1 b.toUInt64 = [b] := by
    rw [mergedBytes, mergedBytes, UInt8.toUInt8_toUInt64]
  rw [hone]
  rfl

theorem scanStringToken_reprints {bytes token n} (h : scanStringToken bytes = some (token, n)) :
    Reprints bytes token n := by
  match bytes with
  | [] => cases h
  | b :: bytes =>
    simp only [scanStringToken] at h
    split at h
    · next hb =>
      cases h
      exact ⟨by decide, by decide, by simp, by rw [hb]; rfl⟩
    · split at h
      · next hb =>
        subst hb
        split at h
        · cases h
        · exact scanEscape_reprints h
      · split at h
        · cases h
        · next hlen =>
          simp only [Bool.or_eq_true, decide_eq_true_eq, not_or] at hlen
          split at h
          · cases h
          · exact scanUnicodeCharacter_reprints (Nat.pos_of_ne_zero hlen.1)
              (utf8GetSequenceLengthByFirstByte_le b) h

theorem scanFixed_reprints {kind expectedBytes b bytes token n} (hkind : kind ≠ .invalid)
    (hprint : printToken { kind := kind } = b :: expectedBytes) (hlen : expectedBytes.length ≤ bytes.length)
    (h : scanFixed kind (b :: expectedBytes) (b :: bytes) = some (token, n)) : Reprints (b :: bytes) token n := by
  rw [scanFixed] at h
  split at h
  · next htake =>
    cases h
    refine ⟨hkind, by simp, by simpa using hlen, ?_⟩
    simp only [List.tail_cons, List.length_cons, Nat.add_sub_cancel] at htake
    rw [hprint, List.length_cons, List.take_succ_cons, htake]
  · cases h

/-- The first byte gives the kind away; tokens of one byte are that byte. -/
def StartsToken (b : Byte) : JsonTokenKind → Prop
  | .true => b = 0x74
  | .false => b = 0x66
  | .null => b = 0x6e
  | .bom => b = 0xef
  | .number | .invalid => True
  | kind => printToken { kind := kind, payload := .character b } = [b]

theorem jtokDetectNonstringTokenStart_starts (b : Byte) : StartsToken b (jtokDetectNonstringTokenStart b) := by
  unfold jtokDetectNonstringTokenStart
  repeat' refine iteInduction (fun hb => ?_) (fun _ => ?_)
  all_goals first | trivial | assumption | (subst b; rfl)

theorem scanNonstringToken_reprints {bytes token n} (h : scanNonstringToken bytes = some (token, n)) :
    Reprints bytes token n := by
  match bytes with
  | [] => cases h
  | b :: bytes =>
    have hstart := jtokDetectNonstringTokenStart_starts b
    simp only [scanNonstringToken] at h
    cases hk : jtokDetectNonstringTokenStart b with
    | invalid => rw [hk] at h; cases h
    | number =>
      rw [hk] at h
      obtain ⟨hkind, hpos, hle, hprint⟩ := scanNumber_prints h
      refine ⟨by rw [hkind]; exact JsonTokenKind.noConfusion, hpos, hle, ?_⟩
      rw [printToken, hkind, hprint]
    | true | false | null | bom =>
      rw [hk] at hstart
      simp only [hk] at h
      rw [show b = _ from hstart] at h ⊢
      split at h
      · cases h
      · next hlen =>
        rw [Nat.not_lt] at hlen
        exact scanFixed_reprints JsonTokenKind.noConfusion rfl (Nat.le_of_succ_le_succ hlen) h
    | _ =>
      rw [hk] at hstart
      simp only [hk] at h
      cases h
      exact ⟨JsonTokenKind.noConfusion, by decide, by simp, hstart⟩

/-- **A scanned token prints back** the bytes it was scanned from. -/
theorem scanToken_reprints {isStringState bytes token n} (h : scanToken isStringState bytes = some (token, n)) :
    Reprints bytes token n := by
  rw [scanToken] at h
  split at h
  · exact scanStringToken_reprints h
  · exact scanNonstringToken_reprints h

/-! ## The reprinting loop -/

/-- One turn of the loop: a valid token and what was written for it. -/
structure ReprintStep where
  token : JsonToken
  before : JsonTokenizer
  after : JsonTokenizer
  writerBefore : Writer
  writerAfter : Writer
  /-- What `json_detokenizer_write` returned. -/
  written : Nat

/-- Parses while bytes are available, prints each token, stops at an invalid
one. `none` also when the turns run out. -/
def reprintLoop : Nat → JsonTokenizer → Writer → Option (List ReprintStep × JsonTokenizer × Writer)
  | 0, _, _ => none
  | fuel + 1, t, w => do
    if (← readerGetBytesAvailable t.reader) > 0 then
      let (token, t') ← jsonTokenizerParseNext t
      if token.kind = .invalid then return ([], t', w)
      else
        let (written, w') ← jsonDetokenizerWrite w token
        let step := { token := token, before := t, after := t', writerBefore := w, writerAfter := w', written := written }
        let (steps, last) ← reprintLoop fuel t' w'
        return (step :: steps, last)
    else return ([], t, w)

/-- The token took at least one byte, its bytes are the ones written, and
their number was returned. -/
structure ReprintStep.Faithful (step : ReprintStep) : Prop where
  valid : step.token.kind ≠ .invalid
  consumes : 0 < step.written
  read : step.before.reader.unreadBytes.drop step.written = step.after.reader.unreadBytes
  printed : step.writerAfter.bytes = step.writerBefore.bytes ++ step.before.reader.unreadBytes.take step.written
  le : step.written ≤ step.before.reader.unreadBytes.length

/-- Giving up leaves the unread bytes of a reader with one buffer alone. -/
theorem GivenUp.unread {r r' : Reader} {b} (h : GivenUp r r') (hb : r.buffers = [b]) :
    r.Ahead r' 0 := by
  obtain ha | ⟨r₀, r₁, n, h₀, h₁, hrestore⟩ := h
  · exact ha
  · obtain ⟨r₂, hr₂, ha₂⟩ := h₁.restore h₀.atByte (h₀.buffers.trans hb)
    rw [hr₂] at hrestore
    cases hrestore
    exact h₀.trans ha₂

/-- A parse of a reader with one buffer: a faithful valid token or nothing. -/
theorem jsonTokenizerParseNext_single {t : JsonTokenizer} {b} (hjsm : JsmOK t.jsm) (h : t.reader.AtByte)
    (hb : t.reader.buffers = [b]) (hne : t.reader.unreadBytes ≠ []) :
    ∃ token t' n, jsonTokenizerParseNext t = some (token, t') ∧ JsmOK t'.jsm ∧ t.reader.Ahead t'.reader n ∧
      (token.kind = .invalid → n = 0) ∧ (token.kind ≠ .invalid → Reprints t.reader.unreadBytes token n) := by
  obtain ⟨state, hs⟩ := hjsm.currentState
  have hparsed := jsonTokenizerParseNext_parsed hjsm h hs hne
  unfold Parsed at hparsed
  split at hparsed
  · obtain ⟨r', hr, hg⟩ := hparsed
    exact ⟨_, _, 0, hr, hjsm, hg.unread hb, fun _ => rfl, fun hk => absurd rfl hk⟩
  · next token n hscan =>
    obtain ⟨isAccepted, jsm', hp, hresult⟩ := hparsed
    obtain ⟨_, _, hp', hjsm'⟩ := hjsm.process token.kind
    rw [hp] at hp'
    cases hp'
    cases isAccepted with
    | true =>
      obtain ⟨r', hr, ha⟩ := hresult
      have hreprints := scanToken_reprints hscan
      exact ⟨token, _, n, hr, hjsm', ha, fun hk => absurd hk hreprints.valid, fun _ => hreprints⟩
    | false =>
      obtain ⟨r', hr, hg⟩ := hresult
      exact ⟨_, _, 0, hr, hjsm', hg.unread hb, fun _ => rfl, fun hk => absurd rfl hk⟩

theorem reprintLoop_spec {fuel t w b} (hjsm : JsmOK t.jsm) (h : t.reader.AtByte) (hb : t.reader.buffers = [b])
    (hw : WriterAtByte w) (hfuel : t.reader.unreadBytes.length < fuel) :
    ∃ steps t' w', reprintLoop fuel t w = some (steps, t', w') ∧ (∀ step ∈ steps, step.Faithful) ∧
      WriterAtByte w' ∧ w'.bytes ++ t'.reader.unreadBytes = w.bytes ++ t.reader.unreadBytes := by
  induction fuel generalizing t w with
  | zero => omega
  | succ fuel ih =>
    simp only [reprintLoop, h.bytesAvailable, Option.bind_eq_bind, Option.bind_some]
    by_cases hne : t.reader.unreadBytes = []
    · rw [if_neg (by simp [hne])]
      exact ⟨[], t, w, rfl, by simp, hw, rfl⟩
    · have hpos := List.length_pos_iff.mpr hne
      rw [if_pos (by omega)]
      obtain ⟨token, t', n, hparse, hjsm', ha, hinvalid, hvalid⟩ := jsonTokenizerParseNext_single hjsm h hb hne
      simp only [hparse, Option.bind_some]
      by_cases hk : token.kind = .invalid
      · rw [if_pos hk]
        have hsame : t'.reader.unreadBytes = t.reader.unreadBytes := by
          rw [ha.unread, hinvalid hk, List.drop_zero]
        exact ⟨[], t', w, rfl, by simp, hw, by rw [hsame]⟩
      · rw [if_neg hk]
        have hr := hvalid hk
        obtain ⟨w₁, hw₁, hok₁, hbytes₁⟩ := jsonDetokenizerWrite_prints hk w hw
        dsimp only at hw₁
        have hlen : (printToken token).length = n := by
          rw [hr.printed, List.length_take, Nat.min_eq_left hr.le]
        rw [hlen] at hw₁
        rw [hr.printed] at hbytes₁
        have hn := hr.pos
        obtain ⟨steps, t₂, w₂, hloop, hfaithful, hok₂, hall⟩ := ih hjsm' ha.atByte (ha.buffers.trans hb) hok₁ (by
          rw [ha.unread, List.length_drop]
          omega)
        simp only [hw₁, hloop, Option.bind_some]
        refine ⟨_, t₂, w₂, rfl, ?_, hok₂, ?_⟩
        · intro step hstep
          rw [List.mem_cons] at hstep
          obtain rfl | hstep := hstep
          · exact ⟨hk, hr.pos, ha.unread.symm, hbytes₁, hr.le⟩
          · exact hfaithful step hstep
        · rw [hall, hbytes₁, ha.unread, List.append_assoc, List.take_append_drop]

/-- **Reprinting loses no byte.** The loop ends after at most one turn for
each byte, each token is printed as the bytes it took, and what the writer
hands out followed by what the reader still holds is the input. -/
theorem json_reprint_lossless (context : Context) (he : contextIsErrored context = false)
    (staleBytes : List Byte) (hsize : 0 < staleBytes.length) (src : List Byte) (hsrc : src ≠ []) :
    ∃ r steps t w printed, readerPushBuffer (readerInit context) (bufferMake src) = some r ∧
      reprintLoop (src.length + 1) (jsonTokenizerInit r) (writerInit staleBytes) = some (steps, t, w) ∧
      (∀ step ∈ steps, step.Faithful) ∧
      (writerConsumeAllBuffers context w).1 = { isError := false, buffer := bufferMake printed } ∧
      printed ++ t.reader.unreadBytes = src := by
  have hpos : 0 < (bufferMake src).length := List.length_pos_iff.mpr hsrc
  obtain ⟨r, hpush, hat, hbytes, hbuffers⟩ := (Reader.AtByte.init context).push hpos
  rw [readerInit_unreadBytes, bufferMake_bytes, List.nil_append] at hbytes
  obtain ⟨steps, t, w, hloop, hfaithful, hw, hall⟩ := @reprintLoop_spec (src.length + 1) (jsonTokenizerInit r)
    (writerInit staleBytes) _ .init hat hbuffers (.init hsize) (by
      show r.unreadBytes.length < src.length + 1
      rw [hbytes]
      exact Nat.lt_succ_self _)
  refine ⟨r, steps, t, w, w.bytes, hpush, hloop, hfaithful, hw.consume he, ?_⟩
  rw [hall, writerInit_bytes, List.nil_append]
  exact hbytes

/-- The input `[1]`, tokens of one byte each. -/
theorem json_reprint_lossless_array :
    ∃ r steps t w printed, readerPushBuffer (readerInit contextInit) (bufferMake [0x5b, 0x31, 0x5d]) = some r ∧
      reprintLoop 4 (jsonTokenizerInit r) (writerInit [0xaa, 0xaa]) = some (steps, t, w) ∧
      (∀ step ∈ steps, step.Faithful) ∧
      (writerConsumeAllBuffers contextInit w).1 = { isError := false, buffer := bufferMake printed } ∧
      printed ++ t.reader.unreadBytes = [0x5b, 0x31, 0x5d] :=
  json_reprint_lossless contextInit rfl [0xaa, 0xaa] (by decide) [0x5b, 0x31, 0x5d] (by decide)

end Scomp
