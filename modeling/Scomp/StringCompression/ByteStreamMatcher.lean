/-
The byte stream matcher (`byte_stream_matcher.c`).

Hashes collide and chains lead to stale positions, so a hypothesis promises
nothing: what makes a match right is that its bytes are compared, and that
the comparison stops at the end of the content and of the source.
-/
import Scomp.DataStructures.RingBuffer
import Scomp.DataStructures.HashChain

namespace Scomp

/-- 16 bits, 64kb of addressable lookback. -/
def BSM_LENGTH_SHIFT : Nat := 16
def BSM_LENGTH : Nat := 1 <<< BSM_LENGTH_SHIFT
def BSM_MAX_HYPOTHESIS : Nat := 20
def BSM_MATCH_LENGTH_SHIFT : Nat := 12
def BSM_MATCH_LENGTH_LIMIT : Nat := 1 <<< BSM_MATCH_LENGTH_SHIFT
def BSM_GOOD_ENOUGH_MATCH_LENGTH : Nat := BSM_MATCH_LENGTH_LIMIT / 2
def BSM_HASH_LENGTH_BYTES : Nat := 4

structure ByteStreamMatcher where
  content : RingBuffer
  chain : HashChain
  rollingHash : UInt16

structure BsmMatch where
  offset : Int
  length : Int

def BSM_MATCH_EMPTY : BsmMatch := { offset := 0, length := 0 }

def bsmInit : ByteStreamMatcher :=
  { content := ringBufferInit BSM_LENGTH_SHIFT, chain := hashChainInit, rollingHash := 0 }

def bsmUpdateRollingHash (bsm : ByteStreamMatcher) (newByte : Byte) : UInt16 :=
  (bsm.rollingHash <<< 4) ^^^ newByte.toUInt16

def bsmCalcHashAt (rb : RingBuffer) (position : Int) : UInt16 :=
  (List.range BSM_HASH_LENGTH_BYTES).foldl
    (fun hash i => (hash <<< 4) ^^^ (ringBufferGet rb (position + i)).toUInt16) 0

def bsmUpdateHashChain (bsm : ByteStreamMatcher) (index : Nat) (newByte : Byte) : ByteStreamMatcher :=
  let hash := bsmUpdateRollingHash bsm newByte
  -- the hash is about the bytes that start this far back
  let targetIndex : Int := index - BSM_HASH_LENGTH_BYTES + 1
  let targetIndex := if targetIndex < 0 then targetIndex + BSM_LENGTH else targetIndex
  { bsm with rollingHash := hash, chain := hashChainPush bsm.chain hash (targetIndex % 2 ^ 16).toNat }

def bsmPush (bsm : ByteStreamMatcher) (b : Byte) : ByteStreamMatcher :=
  let position := ringBufferGetIndex bsm.content % 2 ^ 16
  bsmUpdateHashChain { bsm with content := ringBufferPush bsm.content b } position b

/-- The loop that compares from `length` on; `turns` bytes are left to
compare before the limit. -/
def bsmCompareLoop (bsm : ByteStreamMatcher) (position : Int) (source : RingBuffer) (sourcePosition : Int)
    (lengthLimit : Int) : Nat → Int → Int
  | 0, _ => lengthLimit
  | turns + 1, length =>
    let bufferByte := ringBufferGet bsm.content (position + length)
    let srcByte := ringBufferGet source (sourcePosition + length)
    if bufferByte ≠ srcByte then length
    else bsmCompareLoop bsm position source sourcePosition lengthLimit turns (length + 1)

/-- How far a position is from the end of a ring buffer: `src_end` and
`search_end`, less the position. -/
def bsmDistanceToEnd (rb : RingBuffer) (position : Int) : Int :=
  let stop : Int := ringBufferGetIndex rb
  let stop := if stop < position then stop + ringBufferGetLength rb else stop
  stop - position

def bsmCheckMatchStartingAt (bsm : ByteStreamMatcher) (position : Int) (source : RingBuffer)
    (sourcePosition : Int) : Int :=
  let distToSrcEnd := bsmDistanceToEnd source sourcePosition
  let distToSearchEnd := bsmDistanceToEnd bsm.content position
  let lengthLimit := if distToSearchEnd < distToSrcEnd then distToSearchEnd else distToSrcEnd
  bsmCompareLoop bsm position source sourcePosition lengthLimit lengthLimit.toNat 0

/-- The loop over the hypotheses, the longest match so far in `result`. -/
def bsmFindMatchLoop (bsm : ByteStreamMatcher) (source : RingBuffer) (sourcePosition bufferEndPosition : Int) :
    Nat → Nat → BsmMatch → BsmMatch
  | 0, _, result => result
  | hypotheses + 1, position, result =>
    let length := bsmCheckMatchStartingAt bsm position source sourcePosition
    let matchPosition : Int := position
    let position := hashChainGetPreviousPositionByPosition bsm.chain position
    if length > result.length then
      let offset := bufferEndPosition - matchPosition
      let offset := if offset < 0 then offset + BSM_LENGTH else offset
      let result : BsmMatch := { offset := offset, length := length }
      if result.length ≥ BSM_GOOD_ENOUGH_MATCH_LENGTH then result
      else bsmFindMatchLoop bsm source sourcePosition bufferEndPosition hypotheses position result
    else bsmFindMatchLoop bsm source sourcePosition bufferEndPosition hypotheses position result

def bsmFindMatch (bsm : ByteStreamMatcher) (source : RingBuffer) (sourcePosition : Int) : BsmMatch :=
  let hash := bsmCalcHashAt source sourcePosition
  let position := hashChainGetFirstPositionByHash bsm.chain hash
  bsmFindMatchLoop bsm source sourcePosition (ringBufferGetIndex bsm.content) BSM_MAX_HYPOTHESIS position BSM_MATCH_EMPTY

/-! ## What the matcher has seen -/

structure BsmHolds (bsm : ByteStreamMatcher) (history : List Byte) : Prop where
  content : bsm.content.Holds BSM_LENGTH_SHIFT history
  chain : HashChainOK bsm.chain BSM_LENGTH

theorem BsmHolds.init : BsmHolds bsmInit [] := ⟨.init _, .init (by decide)⟩

theorem BsmHolds.push {bsm : ByteStreamMatcher} {history : List Byte} (h : BsmHolds bsm history) (b : Byte) :
    BsmHolds (bsmPush bsm b) (history ++ [b]) := by
  refine ⟨h.content.push b, h.chain.push _ ?_⟩
  show _ < 65536
  omega

/-! ## A match -/

/-- The first bytes of `pending` are those `offset` back in the history, and
the copy ends where the history does or before. -/
structure BsmMatch.Fits (found : BsmMatch) (history pending : List Byte) : Prop where
  nonneg : 0 ≤ found.length
  le_offset : found.length ≤ found.offset
  offset_lt : found.offset < BSM_LENGTH
  le_pending : found.length ≤ pending.length
  repeats : Window.Repeats history found.offset.toNat (pending.take found.length.toNat)

theorem BsmMatch.Fits.empty (history pending : List Byte) : BSM_MATCH_EMPTY.Fits history pending :=
  ⟨Int.le_refl _, Int.le_refl _, by decide, Int.natCast_nonneg _, fun i hi => by
    rw [show BSM_MATCH_EMPTY.length.toNat = 0 from rfl, List.take_zero] at hi
    cases hi⟩

theorem bsmCompareLoop_spec {bsm : ByteStreamMatcher} {position : Int} {source : RingBuffer}
    {sourcePosition lengthLimit length : Int} {turns : Nat} (hlimit : length + turns = lengthLimit) :
    length ≤ bsmCompareLoop bsm position source sourcePosition lengthLimit turns length ∧
      bsmCompareLoop bsm position source sourcePosition lengthLimit turns length ≤ lengthLimit ∧
      ∀ i, length ≤ i → i < bsmCompareLoop bsm position source sourcePosition lengthLimit turns length →
        ringBufferGet bsm.content (position + i) = ringBufferGet source (sourcePosition + i) := by
  induction turns generalizing length with
  | zero =>
    rw [bsmCompareLoop]
    exact ⟨by omega, by omega, fun i hle hlt => by omega⟩
  | succ turns ih =>
    rw [bsmCompareLoop]
    split
    · exact ⟨by omega, by omega, fun i hle hlt => by omega⟩
    · next hsame =>
      obtain ⟨hle, hle', hrest⟩ := @ih (length + 1) (by omega)
      refine ⟨by omega, hle', fun i hi hlt => ?_⟩
      by_cases hfirst : i = length
      · rw [hfirst]
        exact Decidable.not_not.mp hsame
      · exact hrest i (by omega) hlt

theorem bsmDistanceToEnd_eq {rb : RingBuffer} {lengthShift : Nat} {history : List Byte}
    (h : rb.Holds lengthShift history) {position : Int} (hp : 0 ≤ position) (hlt : position < (2 ^ lengthShift : Nat)) :
    bsmDistanceToEnd rb position = (history.length - position) % (2 ^ lengthShift : Nat) := by
  have hlength := h.length
  have hindex : ringBufferGetIndex rb = history.length % 2 ^ lengthShift := h.position
  generalize 2 ^ lengthShift = length at hlength hindex hlt ⊢
  have hpos : (length : Int) ≠ 0 := by omega
  have hend : ((history.length % length : Nat) : Int) = history.length % length := rfl
  have hrange := Int.emod_lt_of_pos (history.length : Int) (show 0 < (length : Int) by omega)
  have hnonneg := Int.emod_nonneg (history.length : Int) hpos
  rw [bsmDistanceToEnd, hindex, hlength, hend, ← Int.emod_sub_emod]
  generalize (history.length : Int) % length = stop at hrange hnonneg ⊢
  split
  · rw [← Int.add_emod_right, Int.emod_eq_of_lt (by omega) (by omega)]
    omega
  · rw [Int.emod_eq_of_lt (by omega) (by omega)]

/-- **A checked hypothesis is a match**, whatever position it came from: into
bytes never written, across the end of the ring, or into other strings. -/
theorem bsmCheckMatchStartingAt_fits {bsm : ByteStreamMatcher} {source : RingBuffer} {history pending : List Byte}
    {position : Nat} (h : BsmHolds bsm history) (hs : source.Holds BSM_MATCH_LENGTH_SHIFT (history ++ pending))
    (hpending : pending.length < BSM_MATCH_LENGTH_LIMIT) (hp : position < BSM_LENGTH) {sourcePosition : Int}
    (hsource : sourcePosition = (history.length % BSM_MATCH_LENGTH_LIMIT : Nat)) :
    BsmMatch.Fits { offset := bsmDistanceToEnd bsm.content position,
                    length := bsmCheckMatchStartingAt bsm position source sourcePosition } history pending := by
  rw [show BSM_MATCH_LENGTH_LIMIT = 4096 from rfl] at hpending hsource
  have hoffset := bsmDistanceToEnd_eq h.content (Int.natCast_nonneg position) (Int.ofNat_lt.mpr hp)
  have hdist := bsmDistanceToEnd_eq hs (show 0 ≤ sourcePosition by omega) (show sourcePosition < (4096 : Int) by omega)
  rw [show ((2 ^ BSM_LENGTH_SHIFT : Nat) : Int) = 65536 from rfl] at hoffset
  rw [show ((2 ^ BSM_MATCH_LENGTH_SHIFT : Nat) : Int) = 4096 from rfl, List.length_append] at hdist
  have hdist' : bsmDistanceToEnd source sourcePosition = pending.length := by omega
  rw [bsmCheckMatchStartingAt, hdist']
  generalize bsmDistanceToEnd bsm.content position = offset at hoffset ⊢
  obtain ⟨hnonneg, hle, hsame⟩ := @bsmCompareLoop_spec bsm position source sourcePosition
    (if offset < pending.length then offset else pending.length) 0
    (if offset < pending.length then offset else pending.length).toNat (by split <;> omega)
  generalize bsmCompareLoop bsm position source sourcePosition _ _ 0 = length at hnonneg hle hsame ⊢
  refine ⟨hnonneg, ?_, ?_, ?_, ?_⟩
  · dsimp only
    split at hle <;> omega
  · show offset < 65536
    omega
  · dsimp only
    split at hle <;> omega
  · intro i hi
    rw [List.length_take] at hi
    dsimp only at hi ⊢
    have hlt : (i : Int) < length := by omega
    have hltOffset : (i : Int) < offset := by split at hle <;> omega
    have hback := @RingBuffer.Holds.get _ _ _ h.content (position + i) (history.length - offset.toNat + i)
      (by show _ % (65536 : Int) = _ % (65536 : Int); omega) (by show _ - (65536 : Int) ≤ _; omega) (by omega)
    have hnext := @RingBuffer.Holds.get _ _ _ hs (sourcePosition + i) (history.length + i)
      (by show _ % (4096 : Int) = _ % (4096 : Int); omega)
      (by rw [List.length_append]; show _ - (4096 : Int) ≤ _; omega) (by rw [List.length_append]; omega)
    rw [← hback, hsame i (by omega) hlt, hnext, Window.entry_append_right, List.getD_eq_getElem?_getD,
      List.getD_eq_getElem?_getD, List.getElem?_take_of_lt (by omega)]

theorem bsmFindMatchLoop_fits {bsm : ByteStreamMatcher} {source : RingBuffer} {history pending : List Byte}
    (h : BsmHolds bsm history) (hs : source.Holds BSM_MATCH_LENGTH_SHIFT (history ++ pending))
    (hpending : pending.length < BSM_MATCH_LENGTH_LIMIT) {sourcePosition : Int}
    (hsource : sourcePosition = (history.length % BSM_MATCH_LENGTH_LIMIT : Nat)) {hypotheses position : Nat}
    {result : BsmMatch} (hp : position < BSM_LENGTH) (hr : result.Fits history pending) :
    (bsmFindMatchLoop bsm source sourcePosition (ringBufferGetIndex bsm.content) hypotheses position result).Fits
      history pending := by
  induction hypotheses generalizing position result with
  | zero => exact hr
  | succ hypotheses ih =>
    have hfits := bsmCheckMatchStartingAt_fits h hs hpending hp hsource
    have hoffset : bsmDistanceToEnd bsm.content position =
        if (ringBufferGetIndex bsm.content : Int) - position < 0 then
          (ringBufferGetIndex bsm.content : Int) - position + BSM_LENGTH
        else (ringBufferGetIndex bsm.content : Int) - position := by
      have hlength : ringBufferGetLength bsm.content = BSM_LENGTH := h.content.length
      rw [bsmDistanceToEnd, hlength]
      split <;> split <;> omega
    rw [hoffset] at hfits
    have hprev := h.chain.prevs position
    rw [bsmFindMatchLoop]
    dsimp only
    split
    · split
      · exact hfits
      · exact ih hprev hfits
    · exact ih hprev hr

theorem bsmFindMatch_fits {bsm : ByteStreamMatcher} {source : RingBuffer} {history pending : List Byte}
    (h : BsmHolds bsm history) (hs : source.Holds BSM_MATCH_LENGTH_SHIFT (history ++ pending))
    (hpending : pending.length < BSM_MATCH_LENGTH_LIMIT) {sourcePosition : Int}
    (hsource : sourcePosition = (history.length % BSM_MATCH_LENGTH_LIMIT : Nat)) :
    (bsmFindMatch bsm source sourcePosition).Fits history pending :=
  bsmFindMatchLoop_fits h hs hpending hsource (h.chain.heads _) (.empty history pending)

end Scomp
