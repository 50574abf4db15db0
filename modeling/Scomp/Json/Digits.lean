/-
Runs of decimal digits, as `_jtok_read_uint` reads them.

The value is checked before each `value * 10 + digit`: the check never lets
one wrap, and passes for every digit of the run exactly when a tenth of the
number and its last digit stay below `UINT64_MAX / 10` together
(`UintFits`). That leaves out some numbers of 64 bits.
-/
import Scomp.Json.Reprint
import Mathlib.Data.List.TakeWhile

namespace Scomp

def isDigit (b : Byte) : Bool := !(b < 0x30 || b > 0x39)

/-- The number that digits appended to those of `value` denote. -/
def decimalFrom (value : Nat) (digits : List Byte) : Nat :=
  digits.foldl (fun value b => value * 10 + (b - 0x30).toNat) value

/-- The number that the digits denote. -/
def decimalValue (digits : List Byte) : Nat := decimalFrom 0 digits

def leadingZeroCount (digits : List Byte) : Nat := (digits.takeWhile fun b => b = 0x30).length

/-- Digits, and the bytes after them do not start with another one. -/
structure DigitRun (digits rest : List Byte) : Prop where
  nonempty : digits ≠ []
  digit : ∀ b ∈ digits, isDigit b = true
  ends : ∀ b ∈ rest.head?, isDigit b = false

/-- The numbers that pass the overflow check. -/
def UintFits (n : Nat) : Prop := n / 10 + n % 10 < 1844674407370955161

instance (n : Nat) : Decidable (UintFits n) := inferInstanceAs (Decidable (_ < _))

/-! ## The overflow check -/

theorem jtokUint64WillOverflow_eq {value : UInt64} {d : Byte} (hd : d.toNat < 10) :
    jtokUint64WillOverflow value d = false ↔ UintFits (value.toNat * 10 + d.toNat) := by
  have ht : TENTH_OF_MAX_UINT64.toNat = 1844674407370955161 := rfl
  have hle : d.toUInt64 ≤ TENTH_OF_MAX_UINT64 := by
    rw [UInt64.le_iff_toNat_le, UInt8.toNat_toUInt64]
    omega
  rw [jtokUint64WillOverflow, decide_eq_false_iff_not, ge_iff_le, UInt64.le_iff_toNat_le, UInt64.toNat_sub_of_le _ _ hle,
    UInt8.toNat_toUInt64, UintFits]
  omega

theorem UintFits.lt {n : Nat} (h : UintFits n) : n < 2 ^ 64 := by
  unfold UintFits at h
  omega

theorem UintFits.of_append {n d : Nat} (hd : d < 10) (h : UintFits (n * 10 + d)) : UintFits n := by
  unfold UintFits at h ⊢
  omega

theorem isDigit_spec {b : Byte} (h : isDigit b = true) :
    (b < 0x30 || b > 0x39) = false ∧ (b - 0x30).toNat < 10 := by
  have hb : (b < 0x30 || b > 0x39) = false := by simpa [isDigit] using h
  exact ⟨hb, (digit_spec (by rw [hb]; decide)).1⟩

@[simp] theorem decimalFrom_nil (value : Nat) : decimalFrom value [] = value := rfl

theorem decimalFrom_cons (value : Nat) (b : Byte) (digits : List Byte) :
    decimalFrom value (b :: digits) = decimalFrom (value * 10 + (b - 0x30).toNat) digits := rfl

/-- A number that fits has a value before each of its digits that does. -/
theorem UintFits.of_decimalFrom {value : Nat} {digits : List Byte} (hdigits : ∀ b ∈ digits, isDigit b = true)
    (h : UintFits (decimalFrom value digits)) : UintFits value := by
  induction digits generalizing value with
  | nil => exact h
  | cons b digits ih =>
    have hd := (isDigit_spec (hdigits b (by simp))).2
    rw [decimalFrom_cons] at h
    exact (ih (fun b hb => hdigits b (by simp [hb])) h).of_append hd

/-! ## Scanning a run -/

/-- What a run is read as. -/
def uintResult (digits : List Byte) : JtokUintReadingResult :=
  { value := UInt64.ofNat (decimalValue digits), leadingZeroes := UInt8.ofNat (leadingZeroCount digits) }

theorem scanUint_end {leadingZeroes : Byte} {value : UInt64} {rest : List Byte}
    (ends : ∀ b ∈ rest.head?, isDigit b = false) :
    scanUint leadingZeroes value rest = ({ value := value, leadingZeroes := leadingZeroes }, 0) := by
  cases rest with
  | nil => rfl
  | cons b rest =>
    have hb : (b < 0x30 || b > 0x39) = true := by simpa only [isDigit, Bool.not_eq_false'] using ends b rfl
    rw [scanUint, if_pos hb]

/-- One more digit, which is not a leading zero. -/
theorem scanUint_digit {leadingZeroes : Byte} {value : UInt64} {b : Byte} (bytes : List Byte) (hb : isDigit b = true)
    (hlead : ¬ (b = 0x30 ∧ value = 0)) :
    scanUint leadingZeroes value (b :: bytes) =
      if UintFits (value.toNat * 10 + (b - 0x30).toNat) then
        ((scanUint leadingZeroes (value * 10 + (b - 0x30).toUInt64) bytes).1,
          (scanUint leadingZeroes (value * 10 + (b - 0x30).toUInt64) bytes).2 + 1)
      else ({ value := 0, leadingZeroes := 0 }, 0) := by
  obtain ⟨hrange, hd⟩ := isDigit_spec hb
  have hlead' : (decide (b = 0x30) && decide (value = 0)) = false := by
    rw [Bool.and_eq_false_iff, decide_eq_false_iff_not, decide_eq_false_iff_not]
    tauto
  rw [scanUint, hrange, hlead']
  have hover := @jtokUint64WillOverflow_eq value _ hd
  by_cases hfits : UintFits (value.toNat * 10 + (b - 0x30).toNat)
  · rw [hover.2 hfits, if_pos hfits]
    rfl
  · rw [if_neg hfits, Bool.eq_true_of_not_eq_false fun he => hfits (hover.1 he)]
    rfl

/-- One more leading zero. -/
theorem scanUint_zero {leadingZeroes : Byte} (bytes : List Byte) (hlt : leadingZeroes.toNat < 80) :
    (leadingZeroes + 1).toNat = leadingZeroes.toNat + 1 ∧
      scanUint leadingZeroes 0 (0x30 :: bytes) =
        if leadingZeroes.toNat + 1 < 80 then
          ((scanUint (leadingZeroes + 1) 0 bytes).1, (scanUint (leadingZeroes + 1) 0 bytes).2 + 1)
        else ({ value := 0, leadingZeroes := 0 }, 0) := by
  have hsucc : (leadingZeroes + 1).toNat = leadingZeroes.toNat + 1 := by
    rw [UInt8.toNat_add, show UInt8.toNat 1 = 1 from rfl]
    omega
  have hmax : leadingZeroes + 1 ≥ JSON_MAX_NUMBER_LEADING_ZEROES ↔ 80 ≤ leadingZeroes.toNat + 1 := by
    rw [ge_iff_le, UInt8.le_iff_toNat_le, hsucc]
    rfl
  have hscan : scanUint leadingZeroes 0 (0x30 :: bytes) =
      if leadingZeroes + 1 ≥ JSON_MAX_NUMBER_LEADING_ZEROES then ({ value := 0, leadingZeroes := 0 }, 0)
      else ((scanUint (leadingZeroes + 1) 0 bytes).1, (scanUint (leadingZeroes + 1) 0 bytes).2 + 1) := rfl
  refine ⟨hsucc, ?_⟩
  by_cases hlt' : leadingZeroes.toNat + 1 < 80
  · rw [hscan, if_neg (fun hge => Nat.not_le.2 hlt' (hmax.1 hge)), if_pos hlt']
  · rw [hscan, if_pos (hmax.2 (Nat.not_lt.1 hlt')), if_neg hlt']

/-- The first digit that is not zero. -/
theorem scanUint_first {leadingZeroes b : Byte} (bytes : List Byte) (hb : isDigit b = true) (hzero : b ≠ 0x30) :
    0 < (b - 0x30).toNat ∧ (0 * 10 + (b - 0x30).toUInt64 : UInt64).toNat = (b - 0x30).toNat ∧ UintFits (b - 0x30).toNat ∧
      scanUint leadingZeroes 0 (b :: bytes) =
        ((scanUint leadingZeroes (0 * 10 + (b - 0x30).toUInt64) bytes).1,
          (scanUint leadingZeroes (0 * 10 + (b - 0x30).toUInt64) bytes).2 + 1) := by
  obtain ⟨hrange, hd⟩ := isDigit_spec hb
  have hpos := @digit_pos b (by rw [hrange]; decide) hzero
  have hzeroNat : UInt64.toNat 0 * 10 + (b - 0x30).toNat = (b - 0x30).toNat := by
    rw [show UInt64.toNat 0 = 0 from rfl]
    omega
  have hfits : UintFits (b - 0x30).toNat := by
    rw [UintFits]
    omega
  have hfits' : UintFits (UInt64.toNat 0 * 10 + (b - 0x30).toNat) := by
    rw [hzeroNat]
    exact hfits
  have hnext := jtokUint64WillOverflow_false hd ((jtokUint64WillOverflow_eq hd).2 hfits')
  rw [hzeroNat] at hnext
  refine ⟨hpos, hnext, hfits, ?_⟩
  rw [scanUint_digit _ hb (fun hz => hzero hz.1), if_pos hfits']

theorem scanUint_digits_run {leadingZeroes : Byte} {value : UInt64} {digits rest : List Byte} (hv : 0 < value.toNat)
    (hdigits : ∀ b ∈ digits, isDigit b = true) (ends : ∀ b ∈ rest.head?, isDigit b = false)
    (hvalue : UintFits value.toNat) :
    scanUint leadingZeroes value (digits ++ rest) =
        ({ value := UInt64.ofNat (decimalFrom value.toNat digits), leadingZeroes := leadingZeroes }, digits.length) ∧
        UintFits (decimalFrom value.toNat digits) ∨
      (scanUint leadingZeroes value (digits ++ rest)).1 = { value := 0, leadingZeroes := 0 } ∧
        ¬ UintFits (decimalFrom value.toNat digits) := by
  induction digits generalizing value with
  | nil =>
    refine .inl ⟨?_, hvalue⟩
    rw [List.nil_append, scanUint_end ends, decimalFrom_nil, UInt64.ofNat_toNat]
    rfl
  | cons b digits ih =>
    have hb := hdigits b (by simp)
    have hdigits' : ∀ b ∈ digits, isDigit b = true := fun b hb => hdigits b (by simp [hb])
    have hd := (isDigit_spec hb).2
    have hne : value ≠ 0 := by
      rintro rfl
      exact absurd hv (by decide)
    rw [List.cons_append, scanUint_digit _ hb (fun hz => hne hz.2), decimalFrom_cons]
    by_cases hfits : UintFits (value.toNat * 10 + (b - 0x30).toNat)
    · have hnext := jtokUint64WillOverflow_false hd ((jtokUint64WillOverflow_eq hd).2 hfits)
      rw [if_pos hfits, ← hnext]
      rcases @ih (value * 10 + (b - 0x30).toUInt64) (by rw [hnext]; omega) hdigits' (by rw [hnext]; exact hfits)
        with ⟨hscan, hall⟩ | ⟨hscan, hall⟩
      · exact .inl ⟨by rw [hscan]; rfl, hall⟩
      · exact .inr ⟨hscan, hall⟩
    · rw [if_neg hfits]
      exact .inr ⟨rfl, fun hall => hfits (hall.of_decimalFrom hdigits')⟩

/-- With `leadingZeroes` zeroes before them. -/
theorem scanUint_zeroes_run {leadingZeroes : Byte} {digits rest : List Byte}
    (hdigits : ∀ b ∈ digits, isDigit b = true) (ends : ∀ b ∈ rest.head?, isDigit b = false)
    (hlt : leadingZeroes.toNat < 80) :
    scanUint leadingZeroes 0 (digits ++ rest) =
        ({ value := UInt64.ofNat (decimalValue digits)
           leadingZeroes := UInt8.ofNat (leadingZeroes.toNat + leadingZeroCount digits) }, digits.length) ∧
        UintFits (decimalValue digits) ∧ leadingZeroes.toNat + leadingZeroCount digits < 80 ∨
      (scanUint leadingZeroes 0 (digits ++ rest)).1 = { value := 0, leadingZeroes := 0 } ∧
        ¬ (UintFits (decimalValue digits) ∧ leadingZeroes.toNat + leadingZeroCount digits < 80) := by
  induction digits generalizing leadingZeroes with
  | nil =>
    refine .inl ⟨?_, by decide, hlt⟩
    rw [List.nil_append, scanUint_end ends]
    simp [decimalValue, leadingZeroCount]
  | cons b digits ih =>
    have hb := hdigits b (by simp)
    have hdigits' : ∀ b ∈ digits, isDigit b = true := fun b hb => hdigits b (by simp [hb])
    by_cases hzero : b = 0x30
    · subst hzero
      have hcount : leadingZeroCount (0x30 :: digits) = leadingZeroCount digits + 1 := by simp [leadingZeroCount]
      have hvalue : decimalValue (0x30 :: digits) = decimalValue digits := rfl
      obtain ⟨hsucc, hzeroScan⟩ := scanUint_zero (digits ++ rest) hlt
      rw [List.cons_append, hzeroScan, hcount, hvalue]
      by_cases hlt' : leadingZeroes.toNat + 1 < 80
      · have hrun := @ih (leadingZeroes + 1) hdigits' (by rw [hsucc]; exact hlt')
        rw [hsucc, Nat.add_right_comm, Nat.add_assoc] at hrun
        rw [if_pos hlt']
        rcases hrun with ⟨hscan, hall⟩ | ⟨hscan, hall⟩
        · exact .inl ⟨by rw [hscan]; rfl, hall⟩
        · exact .inr ⟨hscan, hall⟩
      · rw [if_neg hlt']
        exact .inr ⟨rfl, by omega⟩
    · have hcount : leadingZeroCount (b :: digits) = 0 := by simp [leadingZeroCount, hzero]
      obtain ⟨hpos, hnext, hfits, hfirst⟩ := @scanUint_first leadingZeroes b (digits ++ rest) hb hzero
      have hvalue : decimalValue (b :: digits) = decimalFrom (0 * 10 + (b - 0x30).toUInt64 : UInt64).toNat digits := by
        rw [hnext, decimalValue, decimalFrom_cons, Nat.zero_mul, Nat.zero_add]
      rw [List.cons_append, hfirst, hcount, Nat.add_zero leadingZeroes.toNat, UInt8.ofNat_toNat, hvalue]
      rcases @scanUint_digits_run leadingZeroes (0 * 10 + (b - 0x30).toUInt64) digits rest (by rw [hnext]; exact hpos)
        hdigits' ends (by rw [hnext]; exact hfits) with ⟨hscan, hall⟩ | ⟨hscan, hall⟩
      · exact .inl ⟨by rw [hscan]; rfl, hall, hlt⟩
      · exact .inr ⟨hscan, fun h => hall h.1⟩

/-- The digits and what follows them are read, and found valid. -/
structure ReadableRun (digits rest : List Byte) : Prop extends DigitRun digits rest where
  zeroes : leadingZeroCount digits < 80
  fits : UintFits (decimalValue digits)

theorem leadingZeroCount_of_decimalValue {digits : List Byte} (hdigits : ∀ b ∈ digits, isDigit b = true)
    (h : decimalValue digits = 0) : leadingZeroCount digits = digits.length := by
  have hle : ∀ (digits : List Byte) value, 0 < value → 0 < decimalFrom value digits := by
    intro digits
    induction digits with
    | nil => exact fun value hv => hv
    | cons b digits ih =>
      intro value hv
      rw [decimalFrom_cons]
      exact ih _ (by omega)
  induction digits with
  | nil => rfl
  | cons b digits ih =>
    have hrange := (isDigit_spec (hdigits b (by simp))).1
    by_cases hzero : b = 0x30
    · subst hzero
      have hrest := ih (fun b hb => hdigits b (by simp [hb])) h
      simp only [leadingZeroCount, List.takeWhile_cons, decide_true, if_true, List.length_cons] at hrest ⊢
      rw [hrest]
    · have hpos := @digit_pos b (by rw [hrange]; decide) hzero
      have hvalue := hle digits (0 * 10 + (b - 0x30).toNat) (by omega)
      rw [decimalValue, decimalFrom_cons] at h
      omega

section

variable {digits rest : List Byte}

theorem ReadableRun.value (h : ReadableRun digits rest) : (uintResult digits).value.toNat = decimalValue digits := by
  have hlt := h.fits.lt
  rw [uintResult, UInt64.toNat_ofNat']
  exact Nat.mod_eq_of_lt hlt

theorem ReadableRun.leadingZeroes (h : ReadableRun digits rest) :
    (uintResult digits).leadingZeroes.toNat = leadingZeroCount digits := by
  have hlt := h.zeroes
  rw [uintResult, UInt8.toNat_ofNat']
  exact Nat.mod_eq_of_lt (by omega)

theorem ReadableRun.valid (h : ReadableRun digits rest) : jtokUintIsInvalid (uintResult digits) = false := by
  have hne : ¬ ((uintResult digits).value = 0 ∧ (uintResult digits).leadingZeroes = 0) := by
    rintro ⟨hvalue, hzeroes⟩
    have hv := h.value
    have hz := h.leadingZeroes
    rw [hvalue] at hv
    rw [hzeroes, leadingZeroCount_of_decimalValue h.digit hv.symm] at hz
    exact h.nonempty (List.length_eq_zero_iff.1 hz.symm)
  rw [jtokUintIsInvalid, Bool.and_eq_false_iff, decide_eq_false_iff_not, decide_eq_false_iff_not]
  tauto

/-- A run is read whole, or found invalid. -/
theorem DigitRun.scanUint (h : DigitRun digits rest) :
    scanUint 0 0 (digits ++ rest) = (uintResult digits, digits.length) ∧ ReadableRun digits rest ∨
      jtokUintIsInvalid (Scomp.scanUint 0 0 (digits ++ rest)).1 = true ∧ ¬ ReadableRun digits rest := by
  have hrun := @scanUint_zeroes_run 0 digits rest h.digit h.ends (by decide)
  rw [show UInt8.toNat 0 = 0 from rfl, Nat.zero_add] at hrun
  rcases hrun with ⟨hscan, hfits, hzeroes⟩ | ⟨hscan, hnot⟩
  · exact .inl ⟨hscan, h, hzeroes, hfits⟩
  · exact .inr ⟨by rw [hscan]; rfl, fun hread => hnot ⟨hread.fits, hread.zeroes⟩⟩

theorem ReadableRun.scanUint (h : ReadableRun digits rest) :
    scanUint 0 0 (digits ++ rest) = (uintResult digits, digits.length) := by
  rcases h.toDigitRun.scanUint with ⟨hscan, -⟩ | ⟨-, hnot⟩
  · exact hscan
  · exact absurd h hnot

end

/-- What is found valid is a run. -/
theorem scanUint_readableRun {bytes : List Byte} (hvalid : jtokUintIsInvalid (scanUint 0 0 bytes).1 = false) :
    ∃ digits rest, bytes = digits ++ rest ∧ ReadableRun digits rest := by
  have hsplit : bytes.takeWhile isDigit ++ bytes.dropWhile isDigit = bytes := List.takeWhile_append_dropWhile
  have hdigit : ∀ b ∈ bytes.takeWhile isDigit, isDigit b = true := fun b hb => List.mem_takeWhile_imp hb
  have hends : ∀ b ∈ (bytes.dropWhile isDigit).head?, isDigit b = false := by
    intro b hb
    have hnot := List.head?_dropWhile_not isDigit bytes
    rw [Option.mem_def.1 hb] at hnot
    exact hnot
  by_cases hempty : bytes.takeWhile isDigit = []
  · rw [hempty, List.nil_append] at hsplit
    rw [hsplit] at hends
    rw [scanUint_end hends] at hvalid
    cases hvalid
  · have hrun : DigitRun (bytes.takeWhile isDigit) (bytes.dropWhile isDigit) := ⟨hempty, hdigit, hends⟩
    rcases hrun.scanUint with ⟨-, hread⟩ | ⟨hinvalid, -⟩
    · exact ⟨_, _, hsplit.symm, hread⟩
    · rw [hsplit, hvalid] at hinvalid
      cases hinvalid

/-! ## Reading exactly what fits -/

/-- The values and digits that `_jtok_read_uint` puts together as
`value * 10 + digit`. -/
def uintSums (leadingZeroes : Byte) (value : UInt64) : List Byte → List (UInt64 × Byte)
  | [] => []
  | b :: bytes =>
    if b < 0x30 || b > 0x39 then []
    else if b = 0x30 && value = 0 then
      if leadingZeroes + 1 ≥ JSON_MAX_NUMBER_LEADING_ZEROES then [] else uintSums (leadingZeroes + 1) value bytes
    else if jtokUint64WillOverflow value (b - 0x30) then []
    else (value, b - 0x30) :: uintSums leadingZeroes (value * 10 + (b - 0x30).toUInt64) bytes

/-- No sum wraps, whatever the bytes. -/
theorem uintSums_lt {leadingZeroes : Byte} {value : UInt64} {bytes : List Byte} :
    ∀ sum ∈ uintSums leadingZeroes value bytes, sum.1.toNat * 10 + sum.2.toNat < 2 ^ 64 := by
  induction bytes generalizing leadingZeroes value with
  | nil => simp [uintSums]
  | cons b bytes ih =>
    rw [uintSums]
    split
    · simp
    · next hb =>
      have hd := (digit_spec hb).1
      split
      · split
        · simp
        · exact ih
      · split
        · simp
        · next hover =>
          have hfits := (jtokUint64WillOverflow_eq hd).1 (Bool.eq_false_iff.2 hover)
          exact List.forall_mem_cons.2 ⟨hfits.lt, ih⟩

/-- The value that the loop goes on with. -/
def uintNext (sum : UInt64 × Byte) : UInt64 := sum.1 * 10 + sum.2.toUInt64

/-- **The loop's values are those sums**: each one starts where the one
before has led, and the last one leads to what is read, unless the digits are
found invalid. -/
theorem scanUint_sums (leadingZeroes : Byte) (value : UInt64) (bytes : List Byte) :
    (uintSums leadingZeroes value bytes).map Prod.fst =
        (value :: (uintSums leadingZeroes value bytes).map uintNext).dropLast ∧
      ((scanUint leadingZeroes value bytes).1 = { value := 0, leadingZeroes := 0 } ∨
        (scanUint leadingZeroes value bytes).1.value =
          (uintSums leadingZeroes value bytes).foldl (fun _ sum => uintNext sum) value) := by
  induction bytes generalizing leadingZeroes value with
  | nil => exact ⟨rfl, .inr rfl⟩
  | cons b bytes ih =>
    rw [scanUint, uintSums]
    split
    · exact ⟨rfl, .inr rfl⟩
    · split
      · split
        · exact ⟨rfl, .inl rfl⟩
        · exact ih _ _
      · split
        · exact ⟨rfl, .inl rfl⟩
        · obtain ⟨hstart, hend⟩ := ih leadingZeroes (value * 10 + (b - 0x30).toUInt64)
          refine ⟨?_, hend⟩
          rw [List.map_cons, hstart]
          rfl

theorem jtokReadUint_sums {r : Reader} (h : r.AtByte) : ∃ res r', jtokReadUint r = some (res, r') ∧
    (uintSums 0 0 r.unreadBytes).map Prod.fst = (0 :: (uintSums 0 0 r.unreadBytes).map uintNext).dropLast ∧
    (res = { value := 0, leadingZeroes := 0 } ∨
      res.value = (uintSums 0 0 r.unreadBytes).foldl (fun _ sum => uintNext sum) 0) := by
  obtain ⟨r', hread, -⟩ := jtokReadUint_scans h
  exact ⟨_, r', hread, scanUint_sums 0 0 r.unreadBytes⟩

/-- The run is accepted exactly when its number has 64 bits, and then the
value and the leading zeroes are the run's; no sum on the way wraps. -/
def ReadsExactly (r : Reader) (digits : List Byte) : Prop :=
  ∃ res r', jtokReadUint r = some (res, r') ∧
    (jtokUintIsInvalid res = false ↔ decimalValue digits < 2 ^ 64) ∧
    (jtokUintIsInvalid res = false →
      res.value.toNat = decimalValue digits ∧ res.leadingZeroes.toNat = leadingZeroCount digits) ∧
    ∀ sum ∈ uintSums 0 0 r.unreadBytes, sum.1.toNat * 10 + sum.2.toNat < 2 ^ 64

theorem readsExactly_of_run {r : Reader} (h : r.AtByte) {digits rest : List Byte} (hu : r.unreadBytes = digits ++ rest)
    (hrun : DigitRun digits rest) (hzeroes : leadingZeroCount digits < 80) :
    ReadsExactly r digits ↔ (UintFits (decimalValue digits) ↔ decimalValue digits < 2 ^ 64) := by
  obtain ⟨r', hread, -⟩ := jtokReadUint_scans h
  rw [hu] at hread
  have hvalid : jtokUintIsInvalid (scanUint 0 0 (digits ++ rest)).1 = false ↔ UintFits (decimalValue digits) := by
    rcases hrun.scanUint with ⟨hscan, hreadable⟩ | ⟨hinvalid, hnot⟩
    · rw [hscan]
      exact ⟨fun _ => hreadable.fits, fun _ => hreadable.valid⟩
    · rw [hinvalid]
      exact ⟨fun hf => absurd hf (by decide), fun hfits => absurd ⟨hrun, hzeroes, hfits⟩ hnot⟩
  constructor
  · rintro ⟨res, r'', hread', hiff, -⟩
    rw [hread] at hread'
    cases hread'
    rw [← hvalid, hiff]
  · intro hiff
    refine ⟨_, r', hread, hvalid.trans hiff, fun hfits => ?_, uintSums_lt⟩
    have hreadable : ReadableRun digits rest := ⟨hrun, hzeroes, hvalid.1 hfits⟩
    rw [hreadable.scanUint]
    exact ⟨hreadable.value, hreadable.leadingZeroes⟩

/-- **When a run of digits is read exactly**: its number passes the overflow
check, or does not fit 64 bits. -/
theorem jtokReadUint_readsExactly_iff {r : Reader} (h : r.AtByte) {digits rest : List Byte}
    (hu : r.unreadBytes = digits ++ rest) (hrun : DigitRun digits rest) (hzeroes : leadingZeroCount digits < 80) :
    ReadsExactly r digits ↔
      decimalValue digits / 10 + decimalValue digits % 10 < 1844674407370955161 ∨ 2 ^ 64 ≤ decimalValue digits := by
  have hlt := @UintFits.lt (decimalValue digits)
  rw [readsExactly_of_run h hu hrun hzeroes]
  unfold UintFits at hlt ⊢
  omega

/-- A reader whose one buffer has the digits and what follows them. -/
theorem exists_reader_digits (digits rest : List Byte) (hne : digits ≠ []) :
    ∃ r, readerPushBuffer (readerInit contextInit) (bufferMake (digits ++ rest)) = some r ∧ r.AtByte ∧
      r.unreadBytes = digits ++ rest := by
  have hpos : 0 < (bufferMake (digits ++ rest)).length :=
    List.length_pos_iff.2 fun he => hne (List.append_eq_nil_iff.1 he).1
  obtain ⟨r, hpush, hat, hbytes, -⟩ := (Reader.AtByte.init contextInit).push hpos
  rw [readerInit_unreadBytes, bufferMake_bytes, List.nil_append] at hbytes
  exact ⟨r, hpush, hat, hbytes⟩

/-- `42,` -/
theorem jtokReadUint_readsExactly_iff_within : ∃ r,
    readerPushBuffer (readerInit contextInit) (bufferMake [0x34, 0x32, 0x2c]) = some r ∧
      ReadsExactly r [0x34, 0x32] := by
  obtain ⟨r, hpush, hat, hu⟩ := exists_reader_digits [0x34, 0x32] [0x2c] (by decide)
  have hrun : DigitRun [0x34, 0x32] [0x2c] :=
    ⟨by decide, List.all_iff_forall_prop.mp (by decide), by intro b hb; cases hb; rfl⟩
  exact ⟨r, hpush, (jtokReadUint_readsExactly_iff hat hu hrun (by decide)).2 (.inl (by decide))⟩

/-- `18446744073709551615`, the greatest number of 64 bits, is not accepted. -/
theorem jtokReadUint_readsExactly_fails : ∃ r,
    readerPushBuffer (readerInit contextInit) (bufferMake [0x31, 0x38, 0x34, 0x34, 0x36, 0x37, 0x34, 0x34, 0x30, 0x37,
        0x33, 0x37, 0x30, 0x39, 0x35, 0x35, 0x31, 0x36, 0x31, 0x35]) = some r ∧
      ¬ ReadsExactly r [0x31, 0x38, 0x34, 0x34, 0x36, 0x37, 0x34, 0x34, 0x30, 0x37,
        0x33, 0x37, 0x30, 0x39, 0x35, 0x35, 0x31, 0x36, 0x31, 0x35] := by
  let digits : List Byte := [0x31, 0x38, 0x34, 0x34, 0x36, 0x37, 0x34, 0x34, 0x30, 0x37,
    0x33, 0x37, 0x30, 0x39, 0x35, 0x35, 0x31, 0x36, 0x31, 0x35]
  obtain ⟨r, hpush, hat, hu⟩ := exists_reader_digits digits [] (by decide)
  have hrun : DigitRun digits [] := ⟨by decide, List.all_iff_forall_prop.mp (by decide), by simp⟩
  have hvalue : decimalValue digits = 18446744073709551615 := by decide
  refine ⟨r, hpush, fun h => ?_⟩
  have hiff := (readsExactly_of_run hat hu hrun (by decide)).1 h
  rw [hvalue, UintFits] at hiff
  omega

end Scomp
