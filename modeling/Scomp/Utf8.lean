/-
UTF-8 (`utf8.c`): what its functions tell of the bytes of a character. The
two that the tokenizer uses are defined beside it.
-/
import Scomp.Json.Lexemes

namespace Scomp

def utf8CanBytesBeBomStart (bytes : List Byte) : Bool :=
  (bytes.length < 1 || bytes[0]? == UTF8_BOM[0]?) && (bytes.length < 2 || bytes[1]? == UTF8_BOM[1]?) &&
    (bytes.length < 3 || bytes[2]? == UTF8_BOM[2]?)

/-- All bytes but the first. -/
def utf8AreContinuationBytesValid : List Byte → Bool
  | [] => true
  | _ :: rest => rest.all utf8IsValidContinuationByte

def utf8GetMeaningfulBitsOfFirstByte (b : Byte) : Byte :=
  let len := utf8GetSequenceLengthByFirstByte b
  if len = 1 then b &&& 0x7f else b &&& (0x7f >>> UInt8.ofNat len)

def utf8GetMeaningfulBitsOfContinuationByte (b : Byte) : Byte := b &&& 0x3f

/-- The number that the meaningful bits of a sequence make up. -/
def utf8MeaningfulBits : List Byte → Nat
  | [] => 0
  | b :: rest => rest.foldl (fun bits b => bits * 64 + (utf8GetMeaningfulBitsOfContinuationByte b).toNat)
      (utf8GetMeaningfulBitsOfFirstByte b).toNat

/-! ## The byte-order mark -/

/-- The bytes that can start with a mark start one, or start with one. -/
theorem utf8CanBytesBeBomStart_iff (bytes : List Byte) :
    utf8CanBytesBeBomStart bytes = true ↔ bytes <+: UTF8_BOM ∨ UTF8_BOM <+: bytes := by
  rcases bytes with _ | ⟨a, _ | ⟨b, _ | ⟨c, rest⟩⟩⟩
  · simp [utf8CanBytesBeBomStart]
  · simp [utf8CanBytesBeBomStart, UTF8_BOM, List.cons_prefix_cons]
  · simp [utf8CanBytesBeBomStart, UTF8_BOM, List.cons_prefix_cons]
  · have hlong : ¬rest.length + 1 + 1 + 1 < 3 := by omega
    simp only [utf8CanBytesBeBomStart, UTF8_BOM, List.cons_prefix_cons, List.length_cons, hlong]
    grind

/-! ## The bytes of a character -/

/-- The six bits of a continuation byte. -/
theorem continuationByte_spec (n : Nat) :
    utf8IsValidContinuationByte (UInt8.ofNat (n % 0x40 + 0x80)) = true ∧
      (utf8GetMeaningfulBitsOfContinuationByte (UInt8.ofNat (n % 0x40 + 0x80))).toNat = n % 64 := by
  constructor
  · rw [utf8IsValidContinuationByte_iff, IsContinuation, UInt8.le_iff_toNat_le, UInt8.le_iff_toNat_le, UInt8.toNat_ofNat']
    show 128 ≤ (n % 64 + 128) % 256 ∧ (n % 64 + 128) % 256 ≤ 191
    omega
  · rw [utf8GetMeaningfulBitsOfContinuationByte, UInt8.toNat_and, UInt8.toNat_ofNat']
    show (n % 64 + 128) % 256 &&& (2 ^ 6 - 1) = n % 64
    rw [Nat.and_two_pow_sub_one_eq_mod]
    omega

/-- The first byte of a longer sequence: the prefix gives the length, the bits
below it are part of the character. -/
theorem firstByte_spec {b : Byte} {length : Nat} (h : StartsSequence b length) (hlong : 2 ≤ length) :
    utf8GetSequenceLengthByFirstByte b = length ∧
      (utf8GetMeaningfulBitsOfFirstByte b).toNat = b.toNat % 2 ^ (7 - length) := by
  have hlength := (utf8GetSequenceLengthByFirstByte_iff (by omega)).2 h
  refine ⟨hlength, ?_⟩
  match length, h, hlong with
  | 2, _, _ | 3, _, _ | 4, _, _ =>
    rw [utf8GetMeaningfulBitsOfFirstByte, hlength, if_neg (by decide), UInt8.toNat_and,
      ← Nat.and_two_pow_sub_one_eq_mod]
    rfl

theorem startsSequence_ofNat {n length : Nat} (hn : n < 256)
    (h : n / 32 = 6 ∧ 0xc2 ≤ n ∧ length = 2 ∨ n / 16 = 14 ∧ length = 3 ∨ n / 8 = 30 ∧ n ≤ 0xf4 ∧ length = 4) :
    StartsSequence (UInt8.ofNat n) length := by
  rcases h with ⟨h, hlow, rfl⟩ | ⟨h, rfl⟩ | ⟨h, hhigh, rfl⟩
  all_goals
    simp only [StartsSequence, UInt8.le_iff_toNat_le, UInt8.toNat_ofNat', UInt8.reduceToNat]
    omega

/-- **UTF-8 comes apart**: of the bytes of any character, the first one tells
how many there are, the others are valid, and the meaningful bits of all make
up the character. -/
theorem utf8_character (c : Char) :
    ∃ b rest, String.utf8EncodeChar c = b :: rest ∧ utf8GetSequenceLengthByFirstByte b = rest.length + 1 ∧
      utf8AreContinuationBytesValid (b :: rest) = true ∧ utf8MeaningfulBits (b :: rest) = c.toNat := by
  have hvalid : c.toNat < 0x110000 := by
    rcases c.valid with h | ⟨-, h⟩
    · exact Nat.lt_trans h (by decide)
    · exact h
  have hval : c.val.toNat = c.toNat := rfl
  unfold String.utf8EncodeChar
  simp only [hval]
  generalize c.toNat = v at *
  split_ifs with hone htwo hthree
  · have hstart : StartsSequence (UInt8.ofNat v) 1 := by
      simp only [StartsSequence, UInt8.le_iff_toNat_le, UInt8.toNat_ofNat', UInt8.reduceToNat]
      omega
    have hlength := (utf8GetSequenceLengthByFirstByte_iff Nat.one_ne_zero).2 hstart
    refine ⟨_, _, rfl, hlength, rfl, ?_⟩
    rw [utf8MeaningfulBits, List.foldl_nil, utf8GetMeaningfulBitsOfFirstByte, hlength, if_pos rfl, UInt8.toNat_and,
      UInt8.toNat_ofNat']
    show v % 256 &&& (2 ^ 7 - 1) = v
    rw [Nat.and_two_pow_sub_one_eq_mod]
    omega
  · have hstart : StartsSequence (UInt8.ofNat (v / 64 % 0x20 + 0xc0)) 2 := startsSequence_ofNat (by omega) (by omega)
    obtain ⟨hlength, hfirst⟩ := firstByte_spec hstart (by decide)
    refine ⟨_, _, rfl, hlength, by
      simp only [utf8AreContinuationBytesValid, List.all_cons, List.all_nil, continuationByte_spec, Bool.and_self], ?_⟩
    simp only [utf8MeaningfulBits, List.foldl_cons, List.foldl_nil, hfirst, continuationByte_spec, UInt8.toNat_ofNat']
    omega
  · have hstart : StartsSequence (UInt8.ofNat (v / 4096 % 0x10 + 0xe0)) 3 := startsSequence_ofNat (by omega) (by omega)
    obtain ⟨hlength, hfirst⟩ := firstByte_spec hstart (by decide)
    refine ⟨_, _, rfl, hlength, by
      simp only [utf8AreContinuationBytesValid, List.all_cons, List.all_nil, continuationByte_spec, Bool.and_self], ?_⟩
    simp only [utf8MeaningfulBits, List.foldl_cons, List.foldl_nil, hfirst, continuationByte_spec, UInt8.toNat_ofNat']
    omega
  · have hstart : StartsSequence (UInt8.ofNat (v / 262144 % 0x08 + 0xf0)) 4 := startsSequence_ofNat (by omega) (by omega)
    obtain ⟨hlength, hfirst⟩ := firstByte_spec hstart (by decide)
    refine ⟨_, _, rfl, hlength, by
      simp only [utf8AreContinuationBytesValid, List.all_cons, List.all_nil, continuationByte_spec, Bool.and_self], ?_⟩
    simp only [utf8MeaningfulBits, List.foldl_cons, List.foldl_nil, hfirst, continuationByte_spec, UInt8.toNat_ofNat']
    omega

end Scomp
