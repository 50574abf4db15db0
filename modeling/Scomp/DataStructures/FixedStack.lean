/-
A stack of fixed size (`fixed_stack.c`). The values are kept top first, so
`index`, the first unoccupied slot, is the length of the list. A slot the
source hands out is filled by its caller at once; here the value is an
argument.
-/
import Scomp.Commons

namespace Scomp

structure FixedStack (α : Type) where
  values : List α
  itemCapacity : Nat
deriving DecidableEq, Repr

variable {α : Type}

def fstackReset (stack : FixedStack α) : FixedStack α := { stack with values := [] }

/-- `none`: "Fixed stack overflow on push()". -/
def fstackPush (stack : FixedStack α) (value : α) : Option (FixedStack α) :=
  if stack.values.length < stack.itemCapacity then some { stack with values := value :: stack.values }
  else none

/-- `none`: underflow on `peek()`. -/
def fstackPeek (stack : FixedStack α) : Option α := stack.values.head?

/-- `none`: underflow on `pop()`. -/
def fstackPop (stack : FixedStack α) : Option (α × FixedStack α) :=
  match stack.values with
  | [] => none
  | value :: rest => some (value, { stack with values := rest })

/-- Writes through the pointer `fstack_peek` returned. -/
def fstackSetTop (stack : FixedStack α) (value : α) : Option (FixedStack α) :=
  match stack.values with
  | [] => none
  | _ :: rest => some { stack with values := value :: rest }

def fstackGetCount (stack : FixedStack α) : Nat := stack.values.length
def fstackGetCapacity (stack : FixedStack α) : Nat := stack.itemCapacity

end Scomp
