/-
The double-linked list backed by an array of fixed size
(`fixed_array_list.c`). An entry is its index in the array, NULL is `none`;
`none` as a result says that an assertion failed or a NULL was followed.
-/
import Scomp.DataStructures.FixedStack
import Mathlib.Data.List.Basic

namespace Scomp

structure FalEntry (α : Type) where
  prev : Option Nat
  next : Option Nat
  value : Option α
deriving DecidableEq, Repr

structure FixedArrayList (α : Type) where
  entries : Nat → FalEntry α
  freeSlots : FixedStack Nat
  head : Option Nat
  tail : Option Nat

variable {α : Type}

/-- `entries[index]->next = next`, and nothing for a NULL entry. -/
def falSetNext (entries : Nat → FalEntry α) (index next : Option Nat) : Nat → FalEntry α :=
  match index with
  | some i => Function.update entries i { entries i with next := next }
  | none => entries

/-- `entries[index]->prev = prev`, and nothing for a NULL entry. -/
def falSetPrev (entries : Nat → FalEntry α) (index prev : Option Nat) : Nat → FalEntry α :=
  match index with
  | some i => Function.update entries i { entries i with prev := prev }
  | none => entries

/-- The loop pushes the slots from the last down to 0, which ends on top. -/
def falReset (fal : FixedArrayList α) : FixedArrayList α :=
  { fal with
    head := none
    tail := none
    freeSlots := { fal.freeSlots with values := List.range (fstackGetCapacity fal.freeSlots) } }

/-- `stale` is what the arena's memory holds. -/
def falInit (stale : Nat → FalEntry α) (length : Nat) : FixedArrayList α :=
  falReset { entries := stale, freeSlots := { values := [], itemCapacity := length }, head := none, tail := none }

def falHasFreeSpace (fal : FixedArrayList α) : Bool := 0 < fstackGetCount fal.freeSlots

def falIsEmpty (fal : FixedArrayList α) : Bool := fstackGetCount fal.freeSlots = fstackGetCapacity fal.freeSlots

/-- Returns the new entry. "Must have free space on push". -/
def falPushHead (fal : FixedArrayList α) (value : Option α) : Option (Nat × FixedArrayList α) :=
  if falHasFreeSpace fal then do
    let (newEntry, freeSlots) ← fstackPop fal.freeSlots
    let entries := Function.update fal.entries newEntry { next := none, prev := fal.head, value := value }
    let entries := falSetNext entries fal.head (some newEntry)
    let tail := if fal.head.isSome then fal.tail else some newEntry
    return (newEntry, { entries := entries, freeSlots := freeSlots, head := some newEntry, tail := tail })
  else none

/-- "Cannot remove entry from an empty list". -/
def falRemoveEntry (fal : FixedArrayList α) (entry : Nat) : Option (FixedArrayList α) :=
  if falIsEmpty fal then none
  else do
    let freeSlots ← fstackPush fal.freeSlots entry
    let entries := falSetNext fal.entries (fal.entries entry).prev (fal.entries entry).next
    let entries := falSetPrev entries (entries entry).next (entries entry).prev
    let head := if fal.head = some entry then (entries entry).prev else fal.head
    let tail := if fal.tail = some entry then (entries entry).next else fal.tail
    return { entries := entries, freeSlots := freeSlots, head := head, tail := tail }

def falPopTail (fal : FixedArrayList α) : Option (Option α × FixedArrayList α) :=
  if falIsEmpty fal then none
  else do
    let tail ← fal.tail
    let fal ← falRemoveEntry fal tail
    return ((fal.entries tail).value, fal)

/-- The entries that were handed out and not removed. -/
def falLiveEntries (fal : FixedArrayList α) : List Nat :=
  (List.range (fstackGetCapacity fal.freeSlots)).filter fun entry => entry ∉ fal.freeSlots.values

theorem mem_falLiveEntries {fal : FixedArrayList α} {entry : Nat} :
    entry ∈ falLiveEntries fal ↔ entry < fal.freeSlots.itemCapacity ∧ entry ∉ fal.freeSlots.values := by
  simp [falLiveEntries, fstackGetCapacity]

@[simp] theorem falInit_freeSlots (stale : Nat → FalEntry α) (length : Nat) :
    (falInit stale length).freeSlots = { values := List.range length, itemCapacity := length } := rfl

@[simp] theorem falInit_live (stale : Nat → FalEntry α) (length : Nat) :
    falLiveEntries (falInit stale length) = [] := by
  simp [falLiveEntries, fstackGetCapacity]

theorem falSetNext_value (entries : Nat → FalEntry α) (index next : Option Nat) (entry : Nat) :
    (falSetNext entries index next entry).value = (entries entry).value := by
  rcases index with _ | i
  · rfl
  · by_cases he : entry = i
    · subst he; simp [falSetNext]
    · simp [falSetNext, he]

/-- A push takes the top free slot for the value and keeps the values of the
other entries. -/
theorem falPushHead_spec {fal : FixedArrayList α} {slot : Nat} {rest : List Nat} (value : Option α)
    (hf : fal.freeSlots.values = slot :: rest) :
    ∃ fal', falPushHead fal value = some (slot, fal') ∧
      fal'.freeSlots = { fal.freeSlots with values := rest } ∧
      ∀ entry, (fal'.entries entry).value = if entry = slot then value else (fal.entries entry).value := by
  have hspace : falHasFreeSpace fal = true := by simp [falHasFreeSpace, fstackGetCount, hf]
  have hpop : fstackPop fal.freeSlots = some (slot, { fal.freeSlots with values := rest }) := by
    simp only [fstackPop, hf]
  refine ⟨_, by simp only [falPushHead, hspace, if_true, hpop, Option.bind_eq_bind, Option.bind_some]; rfl, rfl,
    fun entry => ?_⟩
  simp only [falSetNext_value]
  by_cases he : entry = slot
  · subst he; simp
  · simp [he]

end Scomp
