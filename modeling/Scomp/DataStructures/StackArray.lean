/-
The stacks as the arrays they are kept in: the one of a fixed size
(`fixed_stack.c`), which refines `FixedStack`, and the one that grows
(`stack.c`). Both hand out slots, and it is the caller who reads or fills
them.
-/
import Scomp.DataStructures.FixedStack
import Scomp.Lib.Simulation
import Mathlib.Logic.Function.Basic

open Simulation

namespace Scomp

variable {α : Type}

/-- The values in the slots below `index`, top first. -/
def slotsBelow (values : Nat → α) : Nat → List α
  | 0 => []
  | index + 1 => values index :: slotsBelow values index

@[simp] theorem slotsBelow_length (values : Nat → α) (index : Nat) : (slotsBelow values index).length = index := by
  induction index with
  | zero => rfl
  | succ index ih => rw [slotsBelow, List.length_cons, ih]

theorem slotsBelow_congr {values values' : Nat → α} {index : Nat} (h : ∀ i < index, values i = values' i) :
    slotsBelow values index = slotsBelow values' index := by
  induction index with
  | zero => rfl
  | succ index ih =>
    rw [slotsBelow, slotsBelow, h index (Nat.lt_succ_self _), ih fun i hi => h i (Nat.lt_succ_of_lt hi)]

/-- A write above them changes none of the values. -/
theorem slotsBelow_update {values : Nat → α} {index slot : Nat} (h : index ≤ slot) (value : α) :
    slotsBelow (Function.update values slot value) index = slotsBelow values index :=
  slotsBelow_congr fun _ hi => Function.update_of_ne (Nat.ne_of_lt (Nat.lt_of_lt_of_le hi h)) _ _

/-- A write to the last of them is the new top. -/
theorem slotsBelow_update_top (values : Nat → α) (index : Nat) (value : α) :
    slotsBelow (Function.update values index value) (index + 1) = value :: slotsBelow values index := by
  rw [slotsBelow, Function.update_self, slotsBelow_update (Nat.le_refl _)]

/-! ## The stack of a fixed size -/

structure FixedStackArray (α : Type) where
  values : Nat → α
  /-- The first unoccupied slot. -/
  index : Nat
  itemCapacity : Nat

/-- `values` is what the memory of the arena holds. -/
def fstackArrayInit (values : Nat → α) (itemCapacity : Nat) : FixedStackArray α :=
  { values := values, index := 0, itemCapacity := itemCapacity }

def fstackArrayReset (stack : FixedStackArray α) : FixedStackArray α := { stack with index := 0 }

/-- The slot for the value; `none`: "Fixed stack overflow on push()". -/
def fstackArrayPush (stack : FixedStackArray α) : Option (Nat × FixedStackArray α) :=
  if stack.index < stack.itemCapacity then some (stack.index, { stack with index := stack.index + 1 }) else none

/-- The slot on top; `none`: underflow on `peek()`. -/
def fstackArrayPeek (stack : FixedStackArray α) : Option Nat :=
  if stack.index > 0 then some (stack.index - 1) else none

/-- The slot that was on top; `none`: underflow on `pop()`. -/
def fstackArrayPop (stack : FixedStackArray α) : Option (Nat × FixedStackArray α) :=
  if stack.index > 0 then some (stack.index - 1, { stack with index := stack.index - 1 }) else none

def fstackArrayGetCount (stack : FixedStackArray α) : Nat := stack.index
def fstackArrayGetCapacity (stack : FixedStackArray α) : Nat := stack.itemCapacity

def FixedStackArray.store (stack : FixedStackArray α) (slot : Nat) (value : α) : FixedStackArray α :=
  { stack with values := Function.update stack.values slot value }

def FixedStackArray.toStack (stack : FixedStackArray α) : FixedStack α :=
  { values := slotsBelow stack.values stack.index, itemCapacity := stack.itemCapacity }

inductive FixedStackOp (α : Type)
  | push (value : α)
  | peek
  /-- A write through the pointer that a peek returned. -/
  | setTop (value : α)
  | pop
  | getCount
  | getCapacity
  | reset

inductive StackOutput (α : Type)
  | done
  /-- A push that returned NULL. -/
  | null
  | value (value : α)
  | amount (amount : Nat)
deriving DecidableEq

def fstackArrayApply (stack : FixedStackArray α) : FixedStackOp α → Option (StackOutput α × FixedStackArray α)
  | .push value => (fstackArrayPush stack).map fun (slot, stack) => (.done, stack.store slot value)
  | .peek => (fstackArrayPeek stack).map fun slot => (.value (stack.values slot), stack)
  | .setTop value => (fstackArrayPeek stack).map fun slot => (.done, stack.store slot value)
  | .pop => (fstackArrayPop stack).map fun (slot, stack) => (.value (stack.values slot), stack)
  | .getCount => some (.amount (fstackArrayGetCount stack), stack)
  | .getCapacity => some (.amount (fstackArrayGetCapacity stack), stack)
  | .reset => some (.done, fstackArrayReset stack)

def fstackApply (stack : FixedStack α) : FixedStackOp α → Option (StackOutput α × FixedStack α)
  | .push value => (fstackPush stack value).map fun stack => (.done, stack)
  | .peek => (fstackPeek stack).map fun value => (.value value, stack)
  | .setTop value => (fstackSetTop stack value).map fun stack => (.done, stack)
  | .pop => (fstackPop stack).map fun (value, stack) => (.value value, stack)
  | .getCount => some (.amount (fstackGetCount stack), stack)
  | .getCapacity => some (.amount (fstackGetCapacity stack), stack)
  | .reset => some (.done, fstackReset stack)

/-- **The array stands for the list of its values.** -/
theorem fstackArray_simulates :
    Simulates (fun array stack => FixedStackArray.toStack array = stack) (@fstackArrayApply α) fstackApply := by
  rintro ⟨values, index, capacity⟩ _ rfl op
  cases op with
  | push value =>
    by_cases hroom : index < capacity
    · simp only [fstackArrayApply, fstackApply, fstackArrayPush, fstackPush, FixedStackArray.toStack,
        slotsBelow_length, if_pos hroom, Option.map_some]
      refine .returns ?_
      simp only [FixedStackArray.store, slotsBelow_update_top]
    · simp only [fstackArrayApply, fstackApply, fstackArrayPush, fstackPush, FixedStackArray.toStack,
        slotsBelow_length, if_neg hroom, Option.map_none]
      exact .fails
  | peek =>
    cases index with
    | zero => exact .fails
    | succ index => exact .returns rfl
  | setTop value =>
    cases index with
    | zero => exact .fails
    | succ index =>
      refine .returns ?_
      simp only [FixedStackArray.toStack, FixedStackArray.store, Nat.add_sub_cancel, slotsBelow_update_top]
  | pop =>
    cases index with
    | zero => exact .fails
    | succ index => exact .returns rfl
  | getCount =>
    simp only [fstackArrayApply, fstackApply, fstackArrayGetCount, fstackGetCount, FixedStackArray.toStack,
      slotsBelow_length]
    exact .returns rfl
  | getCapacity => exact .returns rfl
  | reset => exact .returns rfl

/-- The stack of a fixed size, through any run from its initialisation. -/
theorem fstackArray_runs (values : Nat → α) (itemCapacity : Nat) (ops : List (FixedStackOp α)) :
    (run fstackArrayApply (fstackArrayInit values itemCapacity) ops).map Prod.fst =
      (run fstackApply { values := [], itemCapacity := itemCapacity } ops).map Prod.fst :=
  (fstackArray_simulates.runs rfl ops).outputs

/-! ## The stack that grows -/

structure Stack (α : Type) where
  values : Nat → α
  /-- Length of `values`. -/
  length : Nat
  count : Nat

/-- `none`: the allocation failed. -/
def stackInit (allocation : Option (Nat → α)) : Option (Stack α) := do
  return { values := ← allocation, length := 16, count := 0 }

/-- Whether there is room; `allocation` is what the new array holds beyond
the old one. -/
def stackMaybeGrow (stack : Stack α) (allocation : Option (Nat → α)) : Bool × Stack α :=
  if stack.count < stack.length then (true, stack)
  else
    let newLength := stack.length * 2
    match allocation with
    | none => (false, stack)
    | some newValues =>
      let values := fun i => if i < stack.length then stack.values i else newValues i
      (true, { stack with values := values, length := newLength })

/-- The slot on top. Nothing checks that there is one: `none` is the slot
before the first. -/
def stackPeek (stack : Stack α) : Option Nat := if stack.count = 0 then none else some (stack.count - 1)

/-- The slot that is now occupied, or NULL. -/
def stackPush (stack : Stack α) (allocation : Option (Nat → α)) : Option Nat × Stack α :=
  let (hasRoom, stack) := stackMaybeGrow { stack with count := stack.count + 1 } allocation
  if hasRoom then (stackPeek stack, stack)
  else (none, { stack with count := stack.count - 1 })

/-- The slot that was on top, unchecked as for `stackPeek`. -/
def stackPop (stack : Stack α) : Option (Nat × Stack α) :=
  if stack.count = 0 then none else some (stack.count - 1, { stack with count := stack.count - 1 })

def stackGetCount (stack : Stack α) : Nat := stack.count

theorem stackPush_room {stack : Stack α} (hroom : stack.count + 1 < stack.length) (allocation : Option (Nat → α)) :
    stackPush stack allocation = (some stack.count, { stack with count := stack.count + 1 }) := by
  simp [stackPush, stackMaybeGrow, hroom, stackPeek]

theorem stackPush_null {stack : Stack α} (hfull : ¬stack.count + 1 < stack.length) :
    stackPush stack none = (none, stack) := by
  simp [stackPush, stackMaybeGrow, hfull]

theorem stackPush_grown {stack : Stack α} (hfull : ¬stack.count + 1 < stack.length) (newValues : Nat → α) :
    stackPush stack (some newValues) =
      (some stack.count,
        { values := fun i => if i < stack.length then stack.values i else newValues i
          length := stack.length * 2
          count := stack.count + 1 }) := by
  simp [stackPush, stackMaybeGrow, hfull, stackPeek]

def Stack.store (stack : Stack α) (slot : Nat) (value : α) : Stack α :=
  { stack with values := Function.update stack.values slot value }

/-- A push fills its slot; `allocation` is what `realloc` answers if the stack
asks. -/
inductive StackOp (α : Type)
  | push (value : α) (allocation : Option (Nat → α))
  | peek
  | pop
  | getCount

def stackApply (stack : Stack α) : StackOp α → Option (StackOutput α × Stack α)
  | .push value allocation =>
    match stackPush stack allocation with
    | (some slot, stack) => some (.done, stack.store slot value)
    | (none, stack) => some (.null, stack)
  | .peek => (stackPeek stack).map fun slot => (.value (stack.values slot), stack)
  | .pop => (stackPop stack).map fun (slot, stack) => (.value (stack.values slot), stack)
  | .getCount => some (.amount (stackGetCount stack), stack)

/-- A list of values and the length of the memory it has: the value that
would fill the memory needs twice as much. -/
structure GrowingList (α : Type) where
  values : List α
  length : Nat

def growingListApply (stack : GrowingList α) : StackOp α → Option (StackOutput α × GrowingList α)
  | .push value allocation =>
    if stack.values.length + 1 < stack.length then some (.done, { stack with values := value :: stack.values })
    else if allocation.isSome then
      some (.done, { values := value :: stack.values, length := stack.length * 2 })
    else some (.null, stack)
  | .peek => stack.values.head?.map fun value => (.value value, stack)
  | .pop =>
    match stack.values with
    | [] => none
    | value :: rest => some (.value value, { stack with values := rest })
  | .getCount => some (.amount stack.values.length, stack)

/-- There is always a free slot: the stack grows one value early. -/
structure Stack.Holds (stack : Stack α) (contents : GrowingList α) : Prop where
  values : contents.values = slotsBelow stack.values stack.count
  length : contents.length = stack.length
  free : stack.count < stack.length

section

variable {stack : Stack α} {contents : GrowingList α} (h : stack.Holds contents)
include h

theorem Stack.Holds.count : contents.values.length = stack.count := by rw [h.values, slotsBelow_length]

theorem Stack.Holds.push (value : α) (allocation : Option (Nat → α)) :
    Answers Stack.Holds (stackApply stack (.push value allocation))
      (growingListApply contents (.push value allocation)) := by
  have hfree := h.free
  simp only [growingListApply, h.count, h.length]
  by_cases hroom : stack.count + 1 < stack.length
  · simp only [stackApply, stackPush_room hroom, if_pos hroom]
    refine .returns ⟨?_, rfl, hroom⟩
    simp only [Stack.store, slotsBelow_update_top, h.values]
  rcases allocation with _ | newValues
  · simp only [stackApply, stackPush_null hroom, if_neg hroom]
    exact .returns h
  · simp only [stackApply, stackPush_grown hroom, if_neg hroom, Option.isSome_some, if_true]
    refine .returns ⟨?_, rfl, by simp only [Stack.store]; omega⟩
    simp only [Stack.store, slotsBelow_update_top, h.values]
    -- the values of the old array are all below its length
    rw [slotsBelow_congr fun i hi => (if_pos (Nat.lt_trans hi hfree)).symm]

end

theorem stack_simulates : Simulates Stack.Holds (@stackApply α) growingListApply := by
  rintro stack ⟨contents, length⟩ h op
  cases op with
  | push value allocation => exact h.push value allocation
  | peek =>
    obtain ⟨values, length, count⟩ := stack
    have hvalues := h.values
    cases count with
    | zero =>
      cases hvalues
      exact .fails
    | succ count =>
      cases hvalues
      exact .returns h
  | pop =>
    obtain ⟨values, length, count⟩ := stack
    have hvalues := h.values
    cases count with
    | zero =>
      cases hvalues
      exact .fails
    | succ count =>
      cases hvalues
      exact .returns ⟨rfl, h.length, Nat.lt_of_succ_lt h.free⟩
  | getCount =>
    simp only [stackApply, growingListApply, stackGetCount, h.count]
    exact .returns h

/-- **The growing stack is a LIFO**, with reallocations that fail at any time:
any run answers as the list of its values does, which refuses a push only
where the memory is all but full and there is no more. -/
theorem stack_lifo (newValues : Nat → α) :
    ∃ stack, stackInit (some newValues) = some stack ∧
      ∀ ops, (run stackApply stack ops).map Prod.fst =
        (run growingListApply { values := [], length := 16 } ops).map Prod.fst :=
  ⟨_, rfl, fun ops => (stack_simulates.runs ⟨rfl, rfl, Nat.succ_pos 15⟩ ops).outputs⟩

end Scomp
