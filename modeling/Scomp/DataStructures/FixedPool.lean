/-
A region of memory that holds a fixed amount of values (`fixed_pool.c`). A
value's address is its offset, as `fpool_get_offset` counts them.
-/
import Scomp.DataStructures.FixedStack

namespace Scomp

structure FixedPool (α : Type) where
  data : Nat → α
  freeSlots : FixedStack Nat

variable {α : Type}

/-- `zero` is what zeroed memory reads as; slot 0 is pushed last. -/
def fpoolInit (zero : α) (itemCount : Nat) : FixedPool α :=
  { data := fun _ => zero
    freeSlots := { values := List.range itemCount, itemCapacity := itemCount } }

def fpoolHasSpace (pool : FixedPool α) : Bool := 0 < fstackGetCount pool.freeSlots

/-- "Must have space to acquire anything from the pool". -/
def fpoolAcquire (pool : FixedPool α) : Option (Nat × FixedPool α) :=
  if fpoolHasSpace pool then do
    let (slot, freeSlots) ← fstackPop pool.freeSlots
    return (slot, { pool with freeSlots := freeSlots })
  else none

/-- "you have released more than you have acquired". -/
def fpoolRelease (pool : FixedPool α) (slot : Nat) : Option (FixedPool α) :=
  if fstackGetCount pool.freeSlots < fstackGetCapacity pool.freeSlots then do
    return { pool with freeSlots := ← fstackPush pool.freeSlots slot }
  else none

/-- "Offset is expected to stay inside the pool". -/
def fpoolGetOffset (pool : FixedPool α) (slot : Nat) : Option Nat :=
  if slot < fstackGetCapacity pool.freeSlots then some slot else none

/-- Nothing outside the pool can be read. -/
def fpoolOffsetToValue (pool : FixedPool α) (offset : Nat) : Option Nat :=
  if offset < fstackGetCapacity pool.freeSlots then some offset else none

/-- A write to the value at `slot`. -/
def FixedPool.set (pool : FixedPool α) (slot : Nat) (value : α) : FixedPool α :=
  { pool with data := Function.update pool.data slot value }

@[simp] theorem FixedPool.set_freeSlots (pool : FixedPool α) (slot : Nat) (value : α) :
    (pool.set slot value).freeSlots = pool.freeSlots := rfl

theorem fpoolAcquire_of_cons {pool : FixedPool α} {slot : Nat} {rest : List Nat}
    (h : pool.freeSlots.values = slot :: rest) :
    fpoolAcquire pool = some (slot, { pool with freeSlots := { pool.freeSlots with values := rest } }) := by
  simp [fpoolAcquire, fpoolHasSpace, fstackGetCount, fstackPop, h]

theorem fpoolRelease_of_lt {pool : FixedPool α} (slot : Nat)
    (h : pool.freeSlots.values.length < pool.freeSlots.itemCapacity) :
    fpoolRelease pool slot = some
      { pool with freeSlots := { pool.freeSlots with values := slot :: pool.freeSlots.values } } := by
  simp [fpoolRelease, fstackGetCount, fstackGetCapacity, fstackPush, h]

end Scomp
