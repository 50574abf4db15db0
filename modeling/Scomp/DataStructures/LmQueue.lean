/-
The LRU queue (`lru_queue.c`) and the LRU queue with maturity
(`lm_queue.c`), whose values start in its fresh part and move to its mature
part when they are bumped. Entries are handles: a bump returns a new one.
-/
import Scomp.DataStructures.FixedArrayList

namespace Scomp

variable {α : Type}

structure LruQueue (α : Type) where
  queue : FixedArrayList α

def lruQueueInit (stale : Nat → FalEntry α) (size : Nat) : LruQueue α := { queue := falInit stale size }

def lruQueueIsOverflowing (q : LruQueue α) : Bool := !falHasFreeSpace q.queue

def lruQueuePop (q : LruQueue α) : Option (Option α × LruQueue α) := do
  let (value, queue) ← falPopTail q.queue
  return (value, { queue := queue })

def lruQueuePush (q : LruQueue α) : Option (Nat × LruQueue α) := do
  let (entry, queue) ← falPushHead q.queue none
  return (entry, { queue := queue })

def lruQueueBump (q : LruQueue α) (entry : Nat) : Option (Nat × LruQueue α) := do
  let value := (q.queue.entries entry).value
  let queue ← falRemoveEntry q.queue entry
  let (entry, queue) ← falPushHead queue value
  return (entry, { queue := queue })

/-- A pointer to an entry of one of the two arrays, which
`fal_is_own_entry` tells apart by address. -/
inductive LmEntry
  | fresh (index : Nat)
  | mature (index : Nat)
deriving DecidableEq, Repr

structure LmQueue (α : Type) where
  freshQueue : FixedArrayList α
  matureQueue : LruQueue α

def lmQueueInit (freshStale matureStale : Nat → FalEntry α) (freshSize matureSize : Nat) : LmQueue α :=
  { freshQueue := falInit freshStale freshSize, matureQueue := lruQueueInit matureStale matureSize }

def lmQueueIsOverflowing (q : LmQueue α) : Bool :=
  lruQueueIsOverflowing q.matureQueue || !falHasFreeSpace q.freshQueue

/-- The new entry's value is NULL: the caller stores one through the handle. -/
def lmQueuePush (q : LmQueue α) : Option (LmEntry × LmQueue α) :=
  if lmQueueIsOverflowing q then none
  else do
    let (entry, queue) ← falPushHead q.freshQueue none
    return (.fresh entry, { q with freshQueue := queue })

def lmQueueBump (q : LmQueue α) (entry : LmEntry) : Option (LmEntry × LmQueue α) :=
  if lmQueueIsOverflowing q then none
  else
    match entry with
    | .fresh index => do
      let value := (q.freshQueue.entries index).value
      let freshQueue ← falRemoveEntry q.freshQueue index
      let (result, mature) ← lruQueuePush q.matureQueue
      let slot := mature.queue.entries result
      let entries := Function.update mature.queue.entries result { slot with value := value }
      return (.mature result,
        { freshQueue := freshQueue, matureQueue := { queue := { mature.queue with entries := entries } } })
    | .mature index => do
      let (result, mature) ← lruQueueBump q.matureQueue index
      return (.mature result, { q with matureQueue := mature })

def lmQueuePop (q : LmQueue α) : Option (Option α × LmQueue α) :=
  if lmQueueIsOverflowing q then
    if lruQueueIsOverflowing q.matureQueue then do
      let (value, mature) ← lruQueuePop q.matureQueue
      return (value, { q with matureQueue := mature })
    else do
      let (value, queue) ← falPopTail q.freshQueue
      return (value, { q with freshQueue := queue })
  else none

/-- `entry->value` -/
def lmQueueValue (q : LmQueue α) : LmEntry → Option α
  | .fresh index => (q.freshQueue.entries index).value
  | .mature index => (q.matureQueue.queue.entries index).value

def lmQueueLiveEntries (q : LmQueue α) : List LmEntry :=
  (falLiveEntries q.freshQueue).map .fresh ++ (falLiveEntries q.matureQueue.queue).map .mature

section

variable (freshStale matureStale : Nat → FalEntry α) (freshSize matureSize : Nat)

@[simp] theorem lmQueueInit_live :
    lmQueueLiveEntries (lmQueueInit freshStale matureStale freshSize matureSize) = [] := by
  simp [lmQueueLiveEntries, lmQueueInit, lruQueueInit]

/-- An empty queue of positive size does not overflow. -/
theorem lmQueueInit_isOverflowing :
    lmQueueIsOverflowing (lmQueueInit freshStale matureStale (freshSize + 1) (matureSize + 1)) = false := by
  simp [lmQueueIsOverflowing, lruQueueIsOverflowing, lmQueueInit, lruQueueInit, falHasFreeSpace, fstackGetCount]

/-- The first push onto an empty queue makes one live entry, whose value is NULL. -/
theorem lmQueuePush_init : ∃ q,
    lmQueuePush (lmQueueInit freshStale matureStale (freshSize + 2) (matureSize + 1)) = some (.fresh 0, q) ∧
      lmQueueIsOverflowing q = false ∧ ∀ entry ∈ lmQueueLiveEntries q, lmQueueValue q entry = none := by
  have hrange : List.range (freshSize + 2) = 0 :: (List.range (freshSize + 1)).map Nat.succ :=
    List.range_succ_eq_map
  obtain ⟨fresh, hpush, hfree, hvalue⟩ :=
    @falPushHead_spec α (falInit freshStale (freshSize + 2)) _ _ none hrange
  have hover := lmQueueInit_isOverflowing freshStale matureStale (freshSize + 1) matureSize
  refine ⟨⟨fresh, lruQueueInit matureStale (matureSize + 1)⟩, ?_, ?_, ?_⟩
  · rw [lmQueuePush, hover]
    simp only [lmQueueInit, hpush, Bool.false_eq_true, if_false, Option.bind_eq_bind, Option.bind_some]
    rfl
  · simp [lmQueueIsOverflowing, lruQueueIsOverflowing, lruQueueInit, falHasFreeSpace, fstackGetCount, hfree]
  · intro entry hentry
    rcases entry with index | index
    · have hlive : index ∈ falLiveEntries fresh := by
        simpa [lmQueueLiveEntries] using hentry
      rw [mem_falLiveEntries, hfree] at hlive
      have hzero : index = 0 := by
        rcases index with _ | index
        · rfl
        · exact absurd hlive (by simp)
      simp [lmQueueValue, hvalue, hzero]
    · exact absurd hentry (by simp [lmQueueLiveEntries, lruQueueInit])

end

end Scomp
