/-
The queue of a fixed size (`fixed_queue.c`): a cyclic array in which one slot
stays free. Nothing is checked but by assertions, and it is the caller who
fills the slot that a push hands out.
-/
import Scomp.DataStructures.QueueArray
import Scomp.Lib.Simulation

open Simulation

namespace Scomp

structure FixedQueue (α : Type) where
  values : Nat → α
  lengthMask : Nat
  head : Nat
  tail : Nat

variable {α : Type}

/-- `values` is what the memory of the arena holds. It is an `int` that is
shifted, which C defines for shifts below 31. -/
def fqueueInit (values : Nat → α) (lengthShift : Nat) : FixedQueue α :=
  let length := ((1 : Int32) <<< Int32.ofNat lengthShift).toInt
  { values := values, lengthMask := (length - 1).toNat, head := 0, tail := 0 }

def fqueueReset (q : FixedQueue α) : FixedQueue α := { q with head := 0, tail := 0 }

/-- The slot for the value; `none`: "Fixed-size queue overflow". -/
def fqueuePush (q : FixedQueue α) : Option (Nat × FixedQueue α) :=
  let result := q.tail
  let tail := (q.tail + 1) &&& q.lengthMask
  if tail ≠ q.head then some (result, { q with tail := tail }) else none

/-- `none`: "cannot fqueue_pop() on empty queue". -/
def fqueuePop (q : FixedQueue α) : Option (α × FixedQueue α) :=
  if q.tail ≠ q.head then some (q.values q.head, { q with head := (q.head + 1) &&& q.lengthMask }) else none

def fqueuePeek (q : FixedQueue α) : Option α := if q.tail ≠ q.head then some (q.values q.head) else none

def fqueuePeekTail (q : FixedQueue α) : Option α :=
  if q.tail ≠ q.head then
    let lastMeaningfulValueIndex := (q.tail + q.lengthMask) &&& q.lengthMask
    some (q.values lastMeaningfulValueIndex)
  else none

def fqueueGetCapacity (q : FixedQueue α) : Nat := q.lengthMask

def fqueueGetCount (q : FixedQueue α) : Nat := (q.tail + q.lengthMask + 1 - q.head) &&& q.lengthMask

/-! ## What the array holds -/

/-- The growable queue with the same slots. -/
def FixedQueue.toArray (q : FixedQueue α) : QueueArray α :=
  { values := q.values, length := q.lengthMask + 1, lengthMask := q.lengthMask, head := q.head, tail := q.tail }

structure FixedQueue.Holds (capacity : Nat) (q : FixedQueue α) (contents : Queue α) : Prop where
  mask : q.lengthMask = capacity
  array : q.toArray.Holds contents

section

variable {q : FixedQueue α} {capacity : Nat} {contents : Queue α} (h : q.Holds capacity contents)
include h

theorem FixedQueue.Holds.and_mask (i : Nat) : i &&& q.lengthMask = i % (q.lengthMask + 1) := h.array.and_mask i

theorem FixedQueue.Holds.head_lt : q.head < q.lengthMask + 1 := h.array.head

theorem FixedQueue.Holds.tail_eq : q.tail = (q.head + contents.length) % (q.lengthMask + 1) := h.array.tail

/-- Head and tail meet in an empty queue only. -/
theorem FixedQueue.Holds.tail_ne_iff : q.tail ≠ q.head ↔ queueArrayGetCount q.toArray > 0 := by
  have hfits : contents.length < q.lengthMask + 1 := h.array.fits
  rw [h.array.count, queueGetCount, h.tail_eq, queueArray_slot_ne_head h.head_lt (Nat.le_of_lt hfits)]
  exact and_iff_left hfits

/-- After a push they meet where the queue was full. -/
theorem FixedQueue.Holds.next_ne_iff :
    (q.tail + 1) &&& q.lengthMask ≠ q.head ↔ contents.length < capacity := by
  have hfits : contents.length < q.lengthMask + 1 := h.array.fits
  rw [h.and_mask, h.tail_eq, Nat.mod_add_mod, Nat.add_assoc, queueArray_slot_ne_head h.head_lt hfits,
    ← h.mask]
  omega

theorem FixedQueue.Holds.count : fqueueGetCount q = queueGetCount contents := by
  have hfits : contents.length < q.lengthMask + 1 := h.array.fits
  have hhead := h.head_lt
  rw [fqueueGetCount, queueGetCount, h.and_mask, h.tail_eq]
  have hsum : (q.head + contents.length) % (q.lengthMask + 1) + q.lengthMask + 1 - q.head =
      (q.head + contents.length) % (q.lengthMask + 1) + (q.lengthMask + 1 - q.head) := by omega
  rw [hsum, Nat.mod_add_mod, show q.head + contents.length + (q.lengthMask + 1 - q.head) =
    contents.length + (q.lengthMask + 1) by omega, Nat.add_mod_right, Nat.mod_eq_of_lt hfits]

theorem FixedQueue.Holds.peek : fqueuePeek q = queuePeekAt contents 0 := by
  rw [← h.array.peekAt, queueArrayPeekAt, fqueuePeek]
  simp only [h.tail_ne_iff]
  rw [Nat.add_zero, h.array.and_mask, Nat.mod_eq_of_lt h.array.head]
  rfl

theorem FixedQueue.Holds.peekTail : fqueuePeekTail q = queuePeekTail contents := by
  rw [queuePeekTail, ← h.array.peekTailAt, queueArrayPeekTailAt, fqueuePeekTail]
  simp only [h.tail_ne_iff]
  rfl

theorem FixedQueue.Holds.pop :
    (∃ value q' rest, queuePop contents = some (value, rest) ∧ fqueuePop q = some (value, q') ∧
        q'.Holds capacity rest) ∨
      queuePop contents = none ∧ fqueuePop q = none := by
  rw [fqueuePop]
  simp only [h.tail_ne_iff]
  rcases h.array.pop with ⟨value, array, rest, hspec, hpop, harray⟩ | ⟨rfl, hpop⟩
  · rw [queueArrayPop] at hpop
    split at hpop
    · next hsome =>
      cases hpop
      exact .inl ⟨_, { q with head := (q.head + 1) &&& q.lengthMask }, rest, hspec, if_pos hsome, h.mask, harray⟩
    · cases hpop
  · rw [queueArrayPop] at hpop
    split at hpop
    · cases hpop
    · next hnone => exact .inr ⟨rfl, if_neg hnone⟩

theorem FixedQueue.Holds.reset : (fqueueReset q).Holds capacity [] := ⟨h.mask, h.array.reset⟩

end

theorem int_shift_of_lt : ∀ lengthShift < 31, ((1 : Int32) <<< Int32.ofNat lengthShift).toInt = 2 ^ lengthShift := by decide

theorem FixedQueue.Holds.init (values : Nat → α) {lengthShift : Nat} (hshift : lengthShift < 31) :
    (fqueueInit values lengthShift).Holds (2 ^ lengthShift - 1) [] := by
  obtain ⟨_, hinit, h⟩ := QueueArray.Holds.init values lengthShift
  cases hinit
  have hlength : 1 <<< lengthShift = 2 ^ lengthShift := Nat.one_shiftLeft _
  have hpos := Nat.two_pow_pos lengthShift
  have hmask : (fqueueInit values lengthShift).lengthMask = 2 ^ lengthShift - 1 := by
    have hcast : (2 : Int) ^ lengthShift = (2 ^ lengthShift : Nat) := by norm_cast
    rw [fqueueInit, int_shift_of_lt lengthShift hshift, hcast]
    show ((2 ^ lengthShift : Nat) - 1 : Int).toNat = 2 ^ lengthShift - 1
    omega
  refine ⟨hmask, ?_⟩
  have harray : (fqueueInit values lengthShift).toArray =
      { values := values, length := 1 <<< lengthShift, lengthMask := 1 <<< lengthShift - 1, head := 0, tail := 0 } := by
    rw [FixedQueue.toArray, hmask, hlength, Nat.sub_add_cancel hpos]
    rfl
  rw [harray]
  exact h

/-! ## Operations -/

inductive FixedQueueOp (α : Type)
  | push (value : α)
  | pop
  | peek
  | peekTail
  | getCount
  | getCapacity
  | reset

inductive FixedQueueOutput (α : Type)
  | done
  | value (value : α)
  | amount (amount : Nat)
deriving DecidableEq

/-- A push fills its slot. -/
def fqueueApply (q : FixedQueue α) : FixedQueueOp α → Option (FixedQueueOutput α × FixedQueue α)
  | .push value => (fqueuePush q).map fun (slot, q) => (.done, { q with values := Function.update q.values slot value })
  | .pop => (fqueuePop q).map fun (value, q) => (.value value, q)
  | .peek => (fqueuePeek q).map fun value => (.value value, q)
  | .peekTail => (fqueuePeekTail q).map fun value => (.value value, q)
  | .getCount => some (.amount (fqueueGetCount q), q)
  | .getCapacity => some (.amount (fqueueGetCapacity q), q)
  | .reset => some (.done, fqueueReset q)

/-- A list of values, as many as the capacity allows. -/
def boundedFifo (capacity : Nat) (contents : Queue α) : FixedQueueOp α → Option (FixedQueueOutput α × Queue α)
  | .push value => if contents.length < capacity then some (.done, queuePush contents value) else none
  | .pop => (queuePop contents).map fun (value, contents) => (.value value, contents)
  | .peek => (queuePeekAt contents 0).map fun value => (.value value, contents)
  | .peekTail => (queuePeekTail contents).map fun value => (.value value, contents)
  | .getCount => some (.amount (queueGetCount contents), contents)
  | .getCapacity => some (.amount capacity, contents)
  | .reset => some (.done, [])

/-- **The fixed queue stands for the list of its values.** -/
theorem fqueue_simulates (capacity : Nat) :
    Simulates (FixedQueue.Holds capacity) (@fqueueApply α) (boundedFifo capacity) := by
  intro q contents h op
  cases op with
  | push value =>
    by_cases hroom : contents.length < capacity
    · have hpush : fqueuePush q = some (q.tail, { q with tail := (q.tail + 1) &&& q.lengthMask }) :=
        if_pos (h.next_ne_iff.2 hroom)
      simp only [fqueueApply, boundedFifo, hpush, Option.map_some, if_pos hroom]
      exact .returns ⟨h.mask, h.array.fill (by have := h.mask; show _ < q.lengthMask + 1; omega) value⟩
    · have hpush : fqueuePush q = none := if_neg (mt h.next_ne_iff.1 hroom)
      simp only [fqueueApply, boundedFifo, hpush, Option.map_none, if_neg hroom]
      exact .fails
  | pop =>
    rcases h.pop with ⟨value, q', rest, hspec, hpop, h'⟩ | ⟨hspec, hpop⟩
    · simp only [fqueueApply, boundedFifo, hspec, hpop, Option.map_some]
      exact .returns h'
    · simp only [fqueueApply, boundedFifo, hspec, hpop, Option.map_none]
      exact .fails
  | peek =>
    simp only [fqueueApply, boundedFifo, h.peek]
    exact .look h _ _
  | peekTail =>
    simp only [fqueueApply, boundedFifo, h.peekTail]
    exact .look h _ _
  | getCount =>
    simp only [fqueueApply, boundedFifo, h.count]
    exact .returns h
  | getCapacity =>
    simp only [fqueueApply, boundedFifo, fqueueGetCapacity, h.mask]
    exact .returns h
  | reset => exact .returns h.reset

/-- **The fixed queue is a FIFO of `2^length_shift - 1` values**: any run of
its operations answers as that of a list, and goes against an assertion
exactly where the list overflows or has no value to give. -/
theorem fixed_queue_bounded_fifo (values : Nat → α) {lengthShift : Nat} (hshift : lengthShift < 31)
    (ops : List (FixedQueueOp α)) :
    (run fqueueApply (fqueueInit values lengthShift) ops).map Prod.fst =
      (run (boundedFifo (2 ^ lengthShift - 1)) [] ops).map Prod.fst :=
  ((fqueue_simulates _).runs (.init values hshift) ops).outputs

/-- Three values fill a queue of four slots, and a fourth one does not fit. -/
theorem fixed_queue_bounded_fifo_two :
    (run fqueueApply (fqueueInit (fun _ => 0) 2)
        [.push 5, .push 6, .pop, .push 7, .push 8, .peekTail, .getCount]).map Prod.fst =
      some [.done, .done, .value 5, .done, .done, .value 8, .amount 3] ∧
    (run fqueueApply (fqueueInit (fun _ => 0) 2) [.push 5, .push 6, .push 7, .push 8]).map Prod.fst = none :=
  ⟨(fixed_queue_bounded_fifo (fun _ => 0) (show 2 < 31 by decide) _).trans (by decide),
    (fixed_queue_bounded_fifo (fun _ => 0) (show 2 < 31 by decide) _).trans (by decide)⟩

end Scomp
