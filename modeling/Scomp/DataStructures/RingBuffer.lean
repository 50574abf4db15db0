/-
The ring buffer (`ring_buffer.c`), and the history it is a window over.
-/
import Scomp.Commons
import Scomp.Lib.Window

namespace Scomp

structure RingBuffer where
  content : Nat → Byte
  contentPosition : Nat
  lengthMask : Nat

def ringBufferGetLength (rb : RingBuffer) : Nat := rb.lengthMask + 1

/-- The content is zero-initialised. -/
def ringBufferInit (lengthShift : Nat) : RingBuffer :=
  { content := fun _ => 0, contentPosition := 0, lengthMask := 2 ^ lengthShift - 1 }

/-- Index of the next free byte. -/
def ringBufferGetIndex (rb : RingBuffer) : Nat := rb.contentPosition

def ringBufferPush (rb : RingBuffer) (b : Byte) : RingBuffer :=
  { rb with
    content := Function.update rb.content rb.contentPosition b
    contentPosition := (rb.contentPosition + 1) &&& rb.lengthMask }

/-- The source masks the index, which may be beyond the end and, with
malicious input, negative: the length is a power of two, so this is a
remainder. -/
def ringBufferGet (rb : RingBuffer) (index : Int) : Byte := rb.content (index % ringBufferGetLength rb).toNat

/-- `index & length_mask` on 64-bit integers, of whatever sign. -/
def ringBufferPosition (rb : RingBuffer) (index : Int) : Nat :=
  (BitVec.ofInt 64 index &&& BitVec.ofNat 64 rb.lengthMask).toNat

/-- The mask takes the remainder by a power of two, so any index is in
range. -/
theorem ringBufferPosition_eq {rb : RingBuffer} {lengthShift : Nat} (hmask : rb.lengthMask = 2 ^ lengthShift - 1)
    (hshift : lengthShift < 64) (index : Int) :
    ringBufferPosition rb index = (index % ringBufferGetLength rb).toNat ∧
      ringBufferPosition rb index < ringBufferGetLength rb := by
  have hpos := Nat.two_pow_pos lengthShift
  have hlt : 2 ^ lengthShift < 2 ^ 64 := Nat.pow_lt_pow_right (by decide) hshift
  have hlength : ringBufferGetLength rb = 2 ^ lengthShift := by
    rw [ringBufferGetLength, hmask]
    omega
  have hdvd : ((2 ^ lengthShift : Nat) : Int) ∣ ((2 ^ 64 : Nat) : Int) :=
    Int.natCast_dvd_natCast.mpr (Nat.pow_dvd_pow 2 (Nat.le_of_lt hshift))
  have heq : ringBufferPosition rb index = (index % ((2 ^ lengthShift : Nat) : Int)).toNat := by
    rw [ringBufferPosition, hmask, BitVec.toNat_and, BitVec.toNat_ofInt, BitVec.toNat_ofNat,
      Nat.mod_eq_of_lt (show 2 ^ lengthShift - 1 < 2 ^ 64 by omega), Nat.and_two_pow_sub_one_eq_mod,
      ← Int.emod_emod_of_dvd index hdvd,
      Int.toNat_emod (Int.emod_nonneg _ (by decide)) (Int.natCast_nonneg _), Int.toNat_natCast]
  rw [hlength, heq]
  exact ⟨rfl, by omega⟩

/-- Everything ever pushed to a ring buffer of `2 ^ lengthShift` bytes. -/
structure RingBuffer.Holds (rb : RingBuffer) (lengthShift : Nat) (history : List Byte) : Prop where
  mask : rb.lengthMask = 2 ^ lengthShift - 1
  position : rb.contentPosition = history.length % 2 ^ lengthShift
  window : Window.Holds rb.content (2 ^ lengthShift) history

theorem RingBuffer.Holds.length {rb : RingBuffer} {lengthShift : Nat} {history : List Byte}
    (h : rb.Holds lengthShift history) : ringBufferGetLength rb = 2 ^ lengthShift := by
  have hpos := Nat.two_pow_pos lengthShift
  rw [ringBufferGetLength, h.mask]
  omega

theorem RingBuffer.Holds.init (lengthShift : Nat) : (ringBufferInit lengthShift).Holds lengthShift [] :=
  ⟨rfl, (Nat.zero_mod _).symm, Window.Holds.init _⟩

theorem RingBuffer.Holds.push {rb : RingBuffer} {lengthShift : Nat} {history : List Byte}
    (h : rb.Holds lengthShift history) (b : Byte) : (ringBufferPush rb b).Holds lengthShift (history ++ [b]) := by
  refine ⟨h.mask, ?_, ?_⟩
  · rw [ringBufferPush, h.mask, Nat.and_two_pow_sub_one_eq_mod, h.position, Nat.mod_add_mod, List.length_append]
    rfl
  · rw [ringBufferPush, h.position]
    exact h.window.push (Nat.two_pow_pos _) b

/-- The buffer gives the last bytes of the history back, by any index that is
their position up to whole turns. -/
theorem RingBuffer.Holds.get {rb : RingBuffer} {lengthShift : Nat} {history : List Byte}
    (h : rb.Holds lengthShift history) {index position : Int}
    (hindex : index % (2 ^ lengthShift : Nat) = position % (2 ^ lengthShift : Nat))
    (hlow : history.length - (2 ^ lengthShift : Nat) ≤ position) (hhigh : position < history.length) :
    ringBufferGet rb index = Window.entry history position := by
  rw [ringBufferGet, h.length, hindex]
  exact h.window position hlow hhigh

end Scomp
