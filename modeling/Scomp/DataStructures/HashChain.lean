/-
The hash chain (`hash_chain.c`): positions with the same hash, newest first.
-/
import Scomp.Commons

namespace Scomp

/-- `heads` has an entry for each hash, `prevs` one for each position. -/
structure HashChain where
  heads : UInt16 → Nat
  prevs : Nat → Nat

def hashChainInit : HashChain := { heads := fun _ => 0, prevs := fun _ => 0 }

def hashChainPush (chain : HashChain) (hash : UInt16) (position : Nat) : HashChain :=
  let prevPosition := chain.heads hash
  { heads := Function.update chain.heads hash position
    prevs := Function.update chain.prevs position prevPosition }

def hashChainGetFirstPositionByHash (chain : HashChain) (hash : UInt16) : Nat := chain.heads hash

def hashChainGetPreviousPositionByPosition (chain : HashChain) (position : Nat) : Nat := chain.prevs position

/-- Whatever a chain leads to is a position: stale entries and entries of
other strings included. -/
structure HashChainOK (chain : HashChain) (length : Nat) : Prop where
  heads : ∀ hash, chain.heads hash < length
  prevs : ∀ position, chain.prevs position < length

theorem HashChainOK.init {length : Nat} (h : 0 < length) : HashChainOK hashChainInit length :=
  ⟨fun _ => h, fun _ => h⟩

theorem HashChainOK.push {chain : HashChain} {length : Nat} (h : HashChainOK chain length) (hash : UInt16)
    {position : Nat} (hp : position < length) : HashChainOK (hashChainPush chain hash position) length := by
  refine ⟨fun other => ?_, fun other => ?_⟩
  · show Function.update chain.heads hash position other < length
    rw [Function.update_apply]
    split
    · exact hp
    · exact h.heads other
  · show Function.update chain.prevs position (chain.heads hash) other < length
    rw [Function.update_apply]
    split
    · exact h.heads hash
    · exact h.prevs other

end Scomp
