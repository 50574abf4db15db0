/-
The fixed-width types of the library and the context its parts share.

A function of the source is translated to a Lean function that returns the
new state next to its result. `Option` stands for the source's assertions
and for reads outside a buffer's meaningful bytes: `none` is a run that
leaves the defined behaviour of the code. The assertions of the arithmetic
coder are the exception (they are statements of their own, and the coder is
compiled without them in the release build).
-/
import Mathlib.Data.UInt
import Mathlib.Logic.Function.Basic

namespace Scomp

abbrev Byte := UInt8

/-- `size_t`. -/
abbrev Memsize := UInt64

/-- A minimal writeable unit of the entropy-compressed stream. It is an
`int16_t`, but one that names a symbol of a table is not negative. -/
abbrev Symbol := Nat

/-- What a conversion to `symbol` leaves of a number. -/
def symbolOf (n : Int) : Int := (Int16.ofInt n).toInt

theorem symbolOf_of_fits {n : Int} (hlow : 0 ≤ n) (hhigh : n < 2 ^ 15) : symbolOf n = n := by
  rw [symbolOf, Int16.toInt_ofInt, show Int16.size = 2 ^ 16 from rfl]
  refine Int.bmod_eq_of_le ?_ ?_ <;> omega

/-- A relative frequency of a symbol. -/
abbrev SymbolFrequency := UInt64

/-- The part of the context the modelled functions touch: the message of
the first error, if there is one. -/
structure Context where
  error : Option String
deriving DecidableEq, Repr

def contextIsErrored (context : Context) : Bool := context.error.isSome

/-- Never overwrites the first error: it is usually the most meaningful. -/
def contextSetError (context : Context) (message : String) : Context :=
  if contextIsErrored context then context else { error := some message }

/-- A context right after `context_init`. -/
def contextInit : Context := { error := none }

end Scomp
