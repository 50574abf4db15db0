/-
What `bsm_find_match` finds is there: for any ring it is asked about, and
whatever the chains lead to.
-/
import Scomp.StringCompression.ByteStreamMatcher

namespace Scomp

/-- Pushes into a fresh matcher. -/
def bsmPushes (history : List Byte) : ByteStreamMatcher := history.foldl bsmPush bsmInit

/-- Pushes into a fresh ring. -/
def ringBufferPushes (lengthShift : Nat) (history : List Byte) : RingBuffer :=
  history.foldl ringBufferPush (ringBufferInit lengthShift)

theorem bsmPushes_append (history : List Byte) (b : Byte) :
    bsmPushes (history ++ [b]) = bsmPush (bsmPushes history) b := by
  rw [bsmPushes, List.foldl_append]
  rfl

theorem bsmPushes_holds (history : List Byte) : BsmHolds (bsmPushes history) history := by
  induction history using List.reverseRecOn with
  | nil => exact .init
  | append_singleton history b ih =>
    rw [bsmPushes_append]
    exact ih.push b

theorem ringBufferPushes_holds (lengthShift : Nat) (history : List Byte) :
    (ringBufferPushes lengthShift history).Holds lengthShift history := by
  induction history using List.reverseRecOn with
  | nil => exact .init lengthShift
  | append_singleton history b ih =>
    rw [ringBufferPushes, List.foldl_append]
    exact ih.push b

/-- Whole turns make no difference. -/
theorem ringBufferGet_congr (rb : RingBuffer) {index index' : Int}
    (h : index % ringBufferGetLength rb = index' % ringBufferGetLength rb) :
    ringBufferGet rb index = ringBufferGet rb index' := by
  rw [ringBufferGet, ringBufferGet, h]

/-- The bytes from a position inside a ring up to its index. -/
theorem bsmDistanceToEnd_unread {rb : RingBuffer} {position unread : Nat} (hposition : position < ringBufferGetLength rb)
    (hunread : (position + unread) % ringBufferGetLength rb = ringBufferGetIndex rb)
    (hlt : unread < ringBufferGetLength rb) : bsmDistanceToEnd rb position = unread := by
  have hturn : position + unread = ringBufferGetIndex rb ∨
      position + unread = ringBufferGetIndex rb + ringBufferGetLength rb := by
    rcases Nat.lt_or_ge (position + unread) (ringBufferGetLength rb) with hinside | haround
    · rw [Nat.mod_eq_of_lt hinside] at hunread
      exact .inl hunread
    · rw [Nat.mod_eq_sub_mod haround, Nat.mod_eq_of_lt (by omega)] at hunread
      omega
  rw [bsmDistanceToEnd]
  split <;> omega

/-- No match, or one that a decoder can copy: its bytes are in the content,
all of them pushed before, and the next unread ones of the source. -/
structure BsmMatch.Decodable (found : BsmMatch) (content source : RingBuffer) (sourcePosition unread : Int) : Prop where
  nonneg : 0 ≤ found.length
  le_offset : found.length ≤ found.offset
  offset_le : found.offset ≤ 65535
  le_unread : found.length ≤ unread
  same : ∀ i, 0 ≤ i → i < found.length →
    ringBufferGet content (ringBufferGetIndex content - found.offset + i) = ringBufferGet source (sourcePosition + i)

theorem BsmMatch.Decodable.empty (content source : RingBuffer) (sourcePosition : Int) {unread : Int} (h : 0 ≤ unread) :
    BSM_MATCH_EMPTY.Decodable content source sourcePosition unread :=
  ⟨Int.le_refl _, Int.le_refl _, by decide, h, fun i hi hlt => by
    rw [show BSM_MATCH_EMPTY.length = 0 from rfl] at hlt
    omega⟩

section

variable {bsm : ByteStreamMatcher} {history : List Byte} {source : RingBuffer} {sourcePosition : Int}

/-- The offset of the loop is the distance to the end. -/
theorem bsmFindMatchLoop_offset (h : BsmHolds bsm history) (position : Nat) :
    (if (ringBufferGetIndex bsm.content : Int) - position < 0 then
        (ringBufferGetIndex bsm.content : Int) - position + BSM_LENGTH
      else (ringBufferGetIndex bsm.content : Int) - position) = bsmDistanceToEnd bsm.content position := by
  have hlength : ringBufferGetLength bsm.content = BSM_LENGTH := h.content.length
  rw [bsmDistanceToEnd, hlength]
  split <;> split <;> omega

/-- A hypothesis that was checked, whatever the position. -/
theorem bsmCheckMatchStartingAt_decodable (h : BsmHolds bsm history) {position : Nat} (hp : position < BSM_LENGTH)
    (hunread : 0 ≤ bsmDistanceToEnd source sourcePosition) :
    BsmMatch.Decodable { offset := bsmDistanceToEnd bsm.content position,
                         length := bsmCheckMatchStartingAt bsm position source sourcePosition }
      bsm.content source sourcePosition (bsmDistanceToEnd source sourcePosition) := by
  have hoffset := bsmDistanceToEnd_eq h.content (Int.natCast_nonneg position) (Int.ofNat_lt.mpr hp)
  have hindex : ringBufferGetIndex bsm.content = history.length % 65536 := h.content.position
  rw [show ((2 ^ BSM_LENGTH_SHIFT : Nat) : Int) = 65536 from rfl] at hoffset
  rw [bsmCheckMatchStartingAt]
  generalize bsmDistanceToEnd source sourcePosition = unread at hunread ⊢
  generalize bsmDistanceToEnd bsm.content position = offset at hoffset ⊢
  obtain ⟨hnonneg, hle, hsame⟩ := @bsmCompareLoop_spec bsm position source sourcePosition
    (if offset < unread then offset else unread) 0 (if offset < unread then offset else unread).toNat
    (by split <;> omega)
  generalize bsmCompareLoop bsm position source sourcePosition _ _ 0 = length at hnonneg hle hsame ⊢
  refine ⟨hnonneg, ?_, ?_, ?_, fun i hi hlt => ?_⟩
  · dsimp only
    split at hle <;> omega
  · dsimp only
    omega
  · dsimp only
    split at hle <;> omega
  · rw [← hsame i hi hlt]
    refine ringBufferGet_congr _ ?_
    rw [h.content.length, hindex]
    show _ % (65536 : Int) = _ % (65536 : Int)
    dsimp only
    omega

theorem bsmFindMatchLoop_decodable (h : BsmHolds bsm history) (hunread : 0 ≤ bsmDistanceToEnd source sourcePosition)
    {hypotheses position : Nat} {result : BsmMatch} (hp : position < BSM_LENGTH)
    (hr : result.Decodable bsm.content source sourcePosition (bsmDistanceToEnd source sourcePosition)) :
    (bsmFindMatchLoop bsm source sourcePosition (ringBufferGetIndex bsm.content) hypotheses position result).Decodable
      bsm.content source sourcePosition (bsmDistanceToEnd source sourcePosition) := by
  induction hypotheses generalizing position result with
  | zero => exact hr
  | succ hypotheses ih =>
    have hchecked := @bsmCheckMatchStartingAt_decodable bsm history source sourcePosition h position hp hunread
    have hprev := h.chain.prevs position
    rw [bsmFindMatchLoop]
    dsimp only
    rw [bsmFindMatchLoop_offset h]
    split
    · split
      · exact hchecked
      · exact ih hprev hchecked
    · exact ih hprev hr

end

/-- **What is found can be decoded.** After any pushes, for any source ring
filled by any pushes and any position inside it with fewer unread bytes than
the ring is long. -/
theorem bsmFindMatch_decodable (history : List Byte) (lengthShift : Nat) (sourceHistory : List Byte)
    {sourcePosition unread : Nat} (hposition : sourcePosition < 2 ^ lengthShift)
    (hunread : (sourcePosition + unread) % 2 ^ lengthShift =
      ringBufferGetIndex (ringBufferPushes lengthShift sourceHistory))
    (hlt : unread < 2 ^ lengthShift) :
    (bsmFindMatch (bsmPushes history) (ringBufferPushes lengthShift sourceHistory) sourcePosition).length = 0 ∨
      0 < (bsmFindMatch (bsmPushes history) (ringBufferPushes lengthShift sourceHistory) sourcePosition).length ∧
      (bsmFindMatch (bsmPushes history) (ringBufferPushes lengthShift sourceHistory) sourcePosition).Decodable
        (bsmPushes history).content (ringBufferPushes lengthShift sourceHistory) sourcePosition unread := by
  have h := bsmPushes_holds history
  have hlength := (ringBufferPushes_holds lengthShift sourceHistory).length
  have hdistance : bsmDistanceToEnd (ringBufferPushes lengthShift sourceHistory) sourcePosition = unread :=
    bsmDistanceToEnd_unread (by rw [hlength]; exact hposition) (by rw [hlength]; exact hunread) (by rw [hlength]; exact hlt)
  have hnonneg : 0 ≤ bsmDistanceToEnd (ringBufferPushes lengthShift sourceHistory) sourcePosition := by
    rw [hdistance]
    exact Int.natCast_nonneg unread
  have hdecodable := @bsmFindMatchLoop_decodable _ _ _ _ h hnonneg BSM_MAX_HYPOTHESIS _ _
    (h.chain.heads (bsmCalcHashAt (ringBufferPushes lengthShift sourceHistory) sourcePosition))
    (.empty _ _ _ hnonneg)
  rw [hdistance] at hdecodable
  rcases Int.lt_or_eq_of_le hdecodable.nonneg with hpos | hzero
  · exact .inr ⟨hpos, hdecodable⟩
  · exact .inl hzero.symm

/-- `abcde` was pushed and `abcd` is looked for, in a ring of 16 bytes. -/
theorem bsmFindMatch_decodable_four :
    (bsmFindMatch (bsmPushes [0x61, 0x62, 0x63, 0x64, 0x65]) (ringBufferPushes 4 [0x61, 0x62, 0x63, 0x64]) 0).length = 4 ∧
      (bsmFindMatch (bsmPushes [0x61, 0x62, 0x63, 0x64, 0x65])
        (ringBufferPushes 4 [0x61, 0x62, 0x63, 0x64]) 0).Decodable
        (bsmPushes [0x61, 0x62, 0x63, 0x64, 0x65]).content (ringBufferPushes 4 [0x61, 0x62, 0x63, 0x64]) 0 4 := by
  have hlength : (bsmFindMatch (bsmPushes [0x61, 0x62, 0x63, 0x64, 0x65])
      (ringBufferPushes 4 [0x61, 0x62, 0x63, 0x64]) 0).length = 4 := by decide +kernel
  refine ⟨hlength, ?_⟩
  rcases @bsmFindMatch_decodable [0x61, 0x62, 0x63, 0x64, 0x65] 4 [0x61, 0x62, 0x63, 0x64] 0 4 (by decide) (by decide)
    (by decide) with hzero | ⟨-, hdecodable⟩
  · rw [show ((0 : Nat) : Int) = 0 from rfl, hlength] at hzero
    cases hzero
  · exact hdecodable

end Scomp
