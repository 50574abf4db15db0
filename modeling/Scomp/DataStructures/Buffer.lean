/-
Byte arrays with a meaningful length (`buffer.c`). `data` is the whole
allocation, so `allocated_length` is its length.
-/
import Scomp.Commons
import Scomp.Lib.Bits

namespace Scomp

structure Buffer where
  data : List Byte
  length : Nat
  length_le : length ≤ data.length
deriving DecidableEq, Repr

def EMPTY_BUFFER : Buffer := { data := [], length := 0, length_le := Nat.le_refl 0 }

/-- A buffer all of whose bytes are meaningful. -/
def bufferMake (bytes : List Byte) : Buffer :=
  { data := bytes, length := bytes.length, length_le := Nat.le_refl _ }

def Buffer.allocatedLength (b : Buffer) : Nat := b.data.length

/-- The meaningful bytes. -/
def Buffer.bytes (b : Buffer) : List Byte := b.data.take b.length

def Buffer.bits (b : Buffer) : List Bool := Bits.ofBytes b.bytes

@[simp] theorem Buffer.bytes_length (b : Buffer) : b.bytes.length = b.length := by
  simp [Buffer.bytes, b.length_le]

@[simp] theorem Buffer.bits_length (b : Buffer) : b.bits.length = 8 * b.length := by simp [Buffer.bits]

@[simp] theorem bufferMake_bytes (bytes : List Byte) : (bufferMake bytes).bytes = bytes := by
  simp [bufferMake, Buffer.bytes]

@[simp] theorem emptyBuffer_bytes : EMPTY_BUFFER.bytes = [] := rfl
@[simp] theorem emptyBuffer_bits : EMPTY_BUFFER.bits = [] := rfl
@[simp] theorem emptyBuffer_length : EMPTY_BUFFER.length = 0 := rfl

end Scomp
