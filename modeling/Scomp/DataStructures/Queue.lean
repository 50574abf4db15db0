/-
The queue (`queue.c`) as its users see it: the stored values, head first.
-/
import Scomp.Commons

namespace Scomp

/-- The values of a queue, oldest first. -/
abbrev Queue (α : Type) := List α

variable {α : Type}

def queueGetCount (queue : Queue α) : Nat := queue.length

/-- The caller fills the pushed slot at once; here the value is an argument. -/
def queuePush (queue : Queue α) (value : α) : Queue α := queue ++ [value]

/-- `none`: "Queue underflow on pop()". -/
def queuePop : Queue α → Option (α × Queue α)
  | [] => none
  | value :: rest => some (value, rest)

/-- The element `offset` positions from the head. -/
def queuePeekAt (queue : Queue α) (offset : Nat) : Option α := queue[offset]?

/-- The element `offset` positions from the tail. -/
def queuePeekTailAt (queue : Queue α) (offset : Nat) : Option α :=
  if offset < queue.length then queue[queue.length - 1 - offset]? else none

def queuePeekTail (queue : Queue α) : Option α := queuePeekTailAt queue 0

theorem queuePeekTailAt_eq (queue : Queue α) (offset : Nat) :
    queuePeekTailAt queue offset = queue.reverse[offset]? := by
  unfold queuePeekTailAt
  split
  · next h => rw [List.getElem?_reverse h]
  · next h => rw [List.getElem?_eq_none (by simpa using h)]

end Scomp
