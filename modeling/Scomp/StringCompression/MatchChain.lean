/-
The chains of the matcher enumerate its window: from the head of a hash they
lead through the positions of the stream with that hash, newest first, as
far back as their cells were not used again. So the best of the first few
is found.

A position has four bytes, of which at least the last was pushed; the bytes
before the start of the stream are zero. The first position is -3.
-/
import Scomp.StringCompression.FoundMatch
import Scomp.Lib.WindowChain

namespace Scomp

/-- The hash of the four bytes at a position of the stream. -/
def streamHash (history : List Byte) (position : Int) : UInt16 :=
  (List.range BSM_HASH_LENGTH_BYTES).foldl
    (fun hash (i : Nat) => (hash <<< 4) ^^^ (Window.entry history (position + (i : Int))).toUInt16) 0

/-- The hashes of the positions -3, -2, .. in the order they were pushed in. -/
def streamHashes (history : List Byte) : List UInt16 :=
  (List.range history.length).map fun number : Nat => streamHash history ((number : Int) - 3)

/-- The cell of the position that was pushed as the `number`th one. -/
def bsmCell (number : Nat) : Nat := (((number : Int) - 3) % 65536).toNat

/-- The position that is visited after following `prevs` so many times. -/
def hashChainWalk (chain : HashChain) (hash : UInt16) : Nat → Nat
  | 0 => hashChainGetFirstPositionByHash chain hash
  | steps + 1 => hashChainGetPreviousPositionByPosition chain (hashChainWalk chain hash steps)

/-! ## Hashes -/

theorem streamHash_eq (history : List Byte) (position : Int) :
    streamHash history position =
      ((((Window.entry history position).toUInt16 <<< 4 ^^^ (Window.entry history (position + 1)).toUInt16) <<< 4 ^^^
        (Window.entry history (position + 2)).toUInt16) <<< 4) ^^^ (Window.entry history (position + 3)).toUInt16 := by
  simp [streamHash, BSM_HASH_LENGTH_BYTES, List.range_succ]

theorem streamHash_append {history : List Byte} {position : Int} (b : Byte) (h : position + 3 < history.length) :
    streamHash (history ++ [b]) position = streamHash history position := by
  rw [streamHash_eq, streamHash_eq, Window.entry_append_left (by omega), Window.entry_append_left (by omega),
    Window.entry_append_left (by omega), Window.entry_append_left h]

theorem UInt16.shiftLeft_four_four (a : UInt16) : a <<< 4 <<< 4 <<< 4 <<< 4 = 0 := by
  simp [← UInt16.toBitVec_inj, ← BitVec.shiftLeft_add]

/-- **The hash rolls**: 16 bits forget the byte before the last four. -/
theorem streamHash_push (history : List Byte) (b : Byte) :
    streamHash (history ++ [b]) (history.length - 3) =
      (streamHash history (history.length - 4) <<< 4) ^^^ b.toUInt16 := by
  have hlast : Window.entry (history ++ [b]) ((history.length : Int) - 3 + 3) = b := by
    have hentry := Window.entry_append_right history [b] 0
    rw [show (history.length : Int) - 3 + 3 = history.length + (0 : Nat) by omega, hentry]
    rfl
  rw [streamHash_eq, streamHash_eq, hlast, Window.entry_append_left (by omega), Window.entry_append_left (by omega),
    Window.entry_append_left (by omega), show (history.length : Int) - 4 + 1 = history.length - 3 by omega,
    show (history.length : Int) - 4 + 2 = history.length - 3 + 1 by omega,
    show (history.length : Int) - 4 + 3 = history.length - 3 + 2 by omega]
  simp only [UInt16.shiftLeft_xor, Scomp.UInt16.shiftLeft_four_four, UInt16.zero_xor]

theorem streamHashes_length (history : List Byte) : (streamHashes history).length = history.length := by
  simp [streamHashes]

theorem streamHashes_append (history : List Byte) (b : Byte) :
    streamHashes (history ++ [b]) = streamHashes history ++ [streamHash (history ++ [b]) (history.length - 3)] := by
  rw [streamHashes, List.length_append, List.length_singleton, List.range_succ, List.map_append]
  congr 1
  refine List.map_congr_left fun number hnumber => streamHash_append b ?_
  rw [List.mem_range] at hnumber
  omega

theorem bsmCalcHashAt_four (rb : RingBuffer) (position : Int) :
    bsmCalcHashAt rb position =
      ((((ringBufferGet rb position).toUInt16 <<< 4 ^^^ (ringBufferGet rb (position + 1)).toUInt16) <<< 4 ^^^
        (ringBufferGet rb (position + 2)).toUInt16) <<< 4) ^^^ (ringBufferGet rb (position + 3)).toUInt16 := by
  simp [bsmCalcHashAt, BSM_HASH_LENGTH_BYTES, List.range_succ]

/-- The hash of what is in the content, at an index that is the position up
to whole turns. -/
theorem bsmCalcHashAt_eq {bsm : ByteStreamMatcher} {history : List Byte} (h : BsmHolds bsm history)
    {index position : Int} (hindex : index % 65536 = position % 65536) (hlow : history.length - 65536 ≤ position)
    (hhigh : position + 3 < history.length) :
    bsmCalcHashAt bsm.content index = streamHash history position := by
  have hget : ∀ i : Int, 0 ≤ i → i ≤ 3 →
      ringBufferGet bsm.content (index + i) = Window.entry history (position + i) := by
    intro i hnonneg hle
    refine h.content.get ?_ ?_ (by omega)
    · show _ % (65536 : Int) = _ % (65536 : Int)
      omega
    · show _ - (65536 : Int) ≤ _
      omega
  have hfirst := hget 0 (by decide) (by decide)
  rw [Int.add_zero, Int.add_zero] at hfirst
  rw [bsmCalcHashAt_four, streamHash_eq, hfirst, hget 1 (by decide) (by decide), hget 2 (by decide) (by decide),
    hget 3 (by decide) (by decide)]

/-! ## The chains -/

structure BsmChained (bsm : ByteStreamMatcher) (history : List Byte) : Prop extends BsmHolds bsm history where
  rolling : bsm.rollingHash = streamHash history (history.length - 4)
  window : WindowChain.Holds bsm.chain.heads bsm.chain.prevs bsmCell BSM_LENGTH (streamHashes history)

theorem BsmChained.init : BsmChained bsmInit [] :=
  ⟨.init, by decide, .init _ _ _ _⟩

/-- Positions less than the window apart have cells of their own. -/
theorem bsmCell_ne {number later : Nat} (hlt : number < later) (hnear : later < number + BSM_LENGTH) :
    bsmCell number ≠ bsmCell later := by
  rw [show BSM_LENGTH = 65536 from rfl] at hnear
  unfold bsmCell
  omega

theorem BsmChained.push {bsm : ByteStreamMatcher} {history : List Byte} (h : BsmChained bsm history) (b : Byte) :
    BsmChained (bsmPush bsm b) (history ++ [b]) := by
  have hposition : ringBufferGetIndex bsm.content = history.length % 65536 := h.content.position
  have hhash : bsmUpdateRollingHash { bsm with content := ringBufferPush bsm.content b } b =
      streamHash (history ++ [b]) (history.length - 3) := by
    rw [streamHash_push, ← h.rolling]
    rfl
  have hchain : (bsmPush bsm b).chain =
      hashChainPush bsm.chain (streamHash (history ++ [b]) (history.length - 3)) (bsmCell history.length) := by
    rw [← hhash, bsmPush, bsmUpdateHashChain, hposition, show BSM_HASH_LENGTH_BYTES = 4 from rfl,
      show BSM_LENGTH = 65536 from rfl]
    dsimp only
    congr 1
    unfold bsmCell
    omega
  refine ⟨h.toBsmHolds.push b, ?_, ?_⟩
  · rw [List.length_append, List.length_singleton, show ((history.length + 1 : Nat) : Int) - 4 = history.length - 3 by omega,
      ← hhash]
    rfl
  · rw [hchain, streamHashes_append]
    have hpush := h.window.push (by decide) (fun number hlt hnear => ?_)
      (streamHash (history ++ [b]) (history.length - 3))
    · rw [streamHashes_length] at hpush
      exact hpush
    · rw [streamHashes_length] at hlt hnear ⊢
      exact bsmCell_ne hlt hnear

theorem bsmPushes_chained (history : List Byte) : BsmChained (bsmPushes history) history := by
  induction history using List.reverseRecOn with
  | nil => exact .init
  | append_singleton history b ih =>
    rw [bsmPushes_append]
    exact ih.push b

/-! ## Enumeration -/

/-- All positions with a hash whose cells were not used again, newest first. -/
structure EnumeratesPositions (history : List Byte) (hash : UInt16) (positions : List Int) : Prop where
  newestFirst : positions.Pairwise fun p p' => p' < p
  mem : ∀ p, p ∈ positions ↔
    -3 ≤ p ∧ p + 3 ≤ history.length - 1 ∧ history.length - 3 - 65536 ≤ p ∧ streamHash history p = hash

theorem streamHashes_getElem? {history : List Byte} {number : Nat} {hash : UInt16} :
    (streamHashes history)[number]? = some hash ↔
      number < history.length ∧ streamHash history ((number : Int) - 3) = hash := by
  rw [streamHashes, List.getElem?_map, Option.map_eq_some_iff]
  refine ⟨fun h => ?_, fun h => ⟨number, List.getElem?_range h.1, h.2⟩⟩
  obtain ⟨q, hq, hhash⟩ := h
  obtain ⟨hlt, hget⟩ := List.getElem?_eq_some_iff.1 hq
  rw [List.getElem_range] at hget
  rw [List.length_range] at hlt
  subst hget
  exact ⟨hlt, hhash⟩

theorem enumeratesPositions_recent (history : List Byte) (hash : UInt16) :
    EnumeratesPositions history hash
      ((WindowChain.recent (streamHashes history) BSM_LENGTH hash).map fun number : Nat => (number : Int) - 3) := by
  refine ⟨?_, fun p => ?_⟩
  · rw [List.pairwise_map]
    exact (WindowChain.recent_sorted _ _ _).imp fun hlt => by omega
  · rw [List.mem_map]
    refine ⟨fun h => ?_, fun h => ?_⟩
    · obtain ⟨number, hmem, rfl⟩ := h
      obtain ⟨hget, hnear⟩ := WindowChain.mem_recent.1 hmem
      obtain ⟨hlt, hhash⟩ := streamHashes_getElem?.1 hget
      rw [streamHashes_length, show BSM_LENGTH = 65536 from rfl] at hnear
      exact ⟨by omega, by omega, by omega, hhash⟩
    · obtain ⟨hfirst, hlast, hnear, hhash⟩ := h
      have hnumber : (((p + 3).toNat : Nat) : Int) - 3 = p := by omega
      refine ⟨(p + 3).toNat, WindowChain.mem_recent.2 ⟨streamHashes_getElem?.2 ⟨by omega, ?_⟩, ?_⟩, hnumber⟩
      · rw [hnumber]
        exact hhash
      · rw [streamHashes_length, show BSM_LENGTH = 65536 from rfl]
        omega

theorem hashChainWalk_eq (chain : HashChain) (hash : UInt16) (steps : Nat) :
    hashChainWalk chain hash steps = chain.prevs^[steps] (chain.heads hash) := by
  induction steps with
  | zero => rfl
  | succ steps ih =>
    rw [hashChainWalk, ih, Function.iterate_succ_apply']
    rfl

theorem BsmChained.walk {bsm : ByteStreamMatcher} {history : List Byte} (h : BsmChained bsm history) {hash : UInt16}
    {j : Nat} {p : Int}
    (hj : ((WindowChain.recent (streamHashes history) BSM_LENGTH hash).map fun number : Nat =>
      (number : Int) - 3)[j]? = some p) :
    hashChainWalk bsm.chain hash j = (p % BSM_LENGTH).toNat := by
  rw [List.getElem?_map, Option.map_eq_some_iff] at hj
  obtain ⟨number, hnumber, rfl⟩ := hj
  rw [hashChainWalk_eq]
  refine (h.window hash).iterate ?_
  rw [List.getElem?_map, hnumber]
  rfl

/-! ## The best of the first few -/

/-- So many bytes at a position are a match for the unread bytes of the
source: they are equal, pushed and unread, and the way back to the position
is an offset of 16 bits. -/
structure UsableAt (history : List Byte) (source : RingBuffer) (sourcePosition unread : Nat) (position : Int)
    (length : Nat) : Prop where
  pushed : position + length ≤ history.length
  near : history.length - position ≤ 65535
  le_unread : length ≤ unread
  same : ∀ i : Nat, i < length → Window.entry history (position + i) = ringBufferGet source (sourcePosition + i)

/-- The comparison does not stop before a difference or the limit. -/
theorem le_bsmCompareLoop {bsm : ByteStreamMatcher} {position : Int} {source : RingBuffer}
    {sourcePosition lengthLimit length usable : Int} {turns : Nat} (hlimit : length + turns = lengthLimit)
    (hle : usable ≤ lengthLimit)
    (hsame : ∀ i, length ≤ i → i < usable →
      ringBufferGet bsm.content (position + i) = ringBufferGet source (sourcePosition + i)) :
    usable ≤ bsmCompareLoop bsm position source sourcePosition lengthLimit turns length := by
  induction turns generalizing length with
  | zero => exact hle
  | succ turns ih =>
    rw [bsmCompareLoop]
    split
    · next hdifferent =>
      by_contra hlt
      exact hdifferent (hsame length (Int.le_refl _) (by omega))
    · exact ih (by omega) fun i hi hlt => hsame i (by omega) hlt

theorem bsmCheckMatchStartingAt_usable {bsm : ByteStreamMatcher} {history : List Byte} (h : BsmHolds bsm history)
    {source : RingBuffer} {sourcePosition unread length : Nat} {p : Int}
    (hunread : bsmDistanceToEnd source sourcePosition = unread) (hp : p + 3 < history.length)
    (husable : UsableAt history source sourcePosition unread p length) :
    length ≤ bsmCheckMatchStartingAt bsm (p % BSM_LENGTH).toNat source sourcePosition := by
  have hnear := husable.near
  have hpushed := husable.pushed
  have hle := husable.le_unread
  have hlength : (BSM_LENGTH : Int) = 65536 := rfl
  have hcell : (((p % BSM_LENGTH).toNat : Nat) : Int) = p % 65536 := by
    rw [hlength]
    omega
  have hdistance := bsmDistanceToEnd_eq h.content (Int.natCast_nonneg (p % BSM_LENGTH).toNat) (by
    show _ < (65536 : Int)
    omega)
  rw [show ((2 ^ BSM_LENGTH_SHIFT : Nat) : Int) = 65536 from rfl] at hdistance
  have hback : bsmDistanceToEnd bsm.content (p % BSM_LENGTH).toNat = history.length - p := by omega
  rw [bsmCheckMatchStartingAt, hunread, hback]
  refine le_bsmCompareLoop ?_ ?_ fun i hi hlt => ?_
  · split <;> omega
  · split <;> omega
  · have hsame := husable.same i.toNat (by omega)
    rw [Int.toNat_of_nonneg hi] at hsame
    rw [← hsame]
    refine h.content.get ?_ ?_ (by omega)
    · show _ % (65536 : Int) = _ % (65536 : Int)
      omega
    · show _ - (65536 : Int) ≤ _
      omega

section

variable {bsm : ByteStreamMatcher} {source : RingBuffer} {sourcePosition bufferEndPosition : Int}

/-- The longest match so far only gets longer. -/
theorem bsmFindMatchLoop_mono {hypotheses position : Nat} {result : BsmMatch} :
    result.length ≤ (bsmFindMatchLoop bsm source sourcePosition bufferEndPosition hypotheses position result).length := by
  induction hypotheses generalizing position result with
  | zero => exact Int.le_refl _
  | succ hypotheses ih =>
    rw [bsmFindMatchLoop]
    dsimp only
    split
    · next hlonger =>
      split
      · exact Int.le_of_lt hlonger
      · exact Int.le_trans (Int.le_of_lt hlonger) ih
    · exact ih

/-- **Every hypothesis counts** that comes before one that is good enough. -/
theorem bsmFindMatchLoop_best {hypotheses position : Nat} {result : BsmMatch} {j : Nat} (hj : j < hypotheses) :
    bsmCheckMatchStartingAt bsm (bsm.chain.prevs^[j] position) source sourcePosition ≤
        (bsmFindMatchLoop bsm source sourcePosition bufferEndPosition hypotheses position result).length ∨
      ∃ i < j, BSM_GOOD_ENOUGH_MATCH_LENGTH ≤
        bsmCheckMatchStartingAt bsm (bsm.chain.prevs^[i] position) source sourcePosition := by
  induction hypotheses generalizing position result j with
  | zero => exact absurd hj (Nat.not_lt_zero j)
  | succ hypotheses ih =>
    rw [bsmFindMatchLoop]
    dsimp only
    rcases j with _ | j
    · left
      rw [Function.iterate_zero_apply]
      split
      · split
        · exact Int.le_refl _
        · exact bsmFindMatchLoop_mono
      · next hshorter => exact Int.le_trans (Int.not_lt.1 hshorter) bsmFindMatchLoop_mono
    · rw [Function.iterate_succ_apply]
      have hrest : ∀ result' : BsmMatch,
          bsmCheckMatchStartingAt bsm (bsm.chain.prevs^[j] (bsm.chain.prevs position)) source sourcePosition ≤
              (bsmFindMatchLoop bsm source sourcePosition bufferEndPosition hypotheses (bsm.chain.prevs position)
                result').length ∨
            ∃ i < j + 1, BSM_GOOD_ENOUGH_MATCH_LENGTH ≤
              bsmCheckMatchStartingAt bsm (bsm.chain.prevs^[i] position) source sourcePosition := by
        intro result'
        rcases @ih (bsm.chain.prevs position) result' j (by omega) with hfound | ⟨i, hi, hgood⟩
        · exact .inl hfound
        · exact .inr ⟨i + 1, by omega, hgood⟩
      split
      · split
        · next hgood => exact .inr ⟨0, by omega, hgood⟩
        · exact hrest _
      · exact hrest _

end

/-- **The chains enumerate the window**, newest first, and the best of the
first hypotheses is found. The bytes before the start of the stream are
zero, so the first position is -3. -/
theorem bsm_chainEnumerates (history : List Byte) :
    (bsmPushes history).rollingHash =
        bsmCalcHashAt (bsmPushes history).content (ringBufferGetIndex (bsmPushes history).content - BSM_HASH_LENGTH_BYTES) ∧
      (bsmPushes history).rollingHash = streamHash history (history.length - BSM_HASH_LENGTH_BYTES) ∧
      ∀ hash, ∃ positions, EnumeratesPositions history hash positions ∧
        (∀ (j : Nat) (p : Int), positions[j]? = some p →
          hashChainWalk (bsmPushes history).chain hash j = (p % BSM_LENGTH).toNat) ∧
        ∀ (source : RingBuffer) (sourcePosition unread : Nat), sourcePosition < ringBufferGetLength source →
          (sourcePosition + unread) % ringBufferGetLength source = ringBufferGetIndex source →
          unread < ringBufferGetLength source → bsmCalcHashAt source sourcePosition = hash →
          ∀ (j : Nat) (p : Int) (length : Nat), j < BSM_MAX_HYPOTHESIS → positions[j]? = some p →
            UsableAt history source sourcePosition unread p length →
            length ≤ (bsmFindMatch (bsmPushes history) source sourcePosition).length ∨
              ∃ i < j, BSM_GOOD_ENOUGH_MATCH_LENGTH ≤ bsmCheckMatchStartingAt (bsmPushes history)
                (hashChainWalk (bsmPushes history).chain hash i) source sourcePosition := by
  have h := bsmPushes_chained history
  have hposition : ringBufferGetIndex (bsmPushes history).content = history.length % 65536 := h.content.position
  have hbytes : (BSM_HASH_LENGTH_BYTES : Int) = 4 := rfl
  rw [hbytes]
  refine ⟨?_, h.rolling, fun hash =>
    ⟨_, enumeratesPositions_recent history hash, fun j p hj => h.walk hj, ?_⟩⟩
  · rw [h.rolling]
    exact (bsmCalcHashAt_eq h.toBsmHolds (by omega) (by omega) (by omega)).symm
  · intro source sourcePosition unread hsource hunread hlt hhash j p length hj hp husable
    have hlast := (((enumeratesPositions_recent history hash).mem p).1 (List.mem_of_getElem? hp)).2.1
    have hchecked := bsmCheckMatchStartingAt_usable h.toBsmHolds (bsmDistanceToEnd_unread hsource hunread hlt)
      (by omega) husable
    rw [← h.walk hp, hashChainWalk_eq] at hchecked
    simp only [hashChainWalk_eq]
    subst hhash
    rcases @bsmFindMatchLoop_best _ source sourcePosition (ringBufferGetIndex (bsmPushes history).content)
      BSM_MAX_HYPOTHESIS ((bsmPushes history).chain.heads (bsmCalcHashAt source sourcePosition)) BSM_MATCH_EMPTY j hj
      with hfound | hgood
    · exact .inl (Int.le_trans hchecked hfound)
    · exact .inr hgood

/-- `abcde` was pushed: `abcd` has one position, and is found. -/
theorem bsm_chainEnumerates_abcd :
    4 ≤ (bsmFindMatch (bsmPushes [0x61, 0x62, 0x63, 0x64, 0x65]) (ringBufferPushes 4 [0x61, 0x62, 0x63, 0x64]) 0).length := by
  obtain ⟨-, -, hchains⟩ := bsm_chainEnumerates [0x61, 0x62, 0x63, 0x64, 0x65]
  obtain ⟨positions, hpositions, -, hfind⟩ := hchains (bsmCalcHashAt (ringBufferPushes 4 [0x61, 0x62, 0x63, 0x64]) 0)
  have hmem : 0 ∈ positions := (hpositions.mem 0).2 (by decide +kernel)
  have hzero : ∀ p ∈ positions, p = 0 := by
    intro p hp
    obtain ⟨hfirst, hlast, -, hhash⟩ := (hpositions.mem p).1 hp
    rw [show ([0x61, 0x62, 0x63, 0x64, 0x65] : List Byte).length = 5 from rfl] at hlast
    by_contra hne
    have hother : p = -3 ∨ p = -2 ∨ p = -1 ∨ p = 1 := by omega
    rcases hother with rfl | rfl | rfl | rfl <;> exact absurd hhash (by decide +kernel)
  have heq : positions[0]? = some 0 := by
    cases positions with
    | nil => cases hmem
    | cons p rest => rw [List.getElem?_cons_zero, hzero p (by simp)]
  rcases hfind (ringBufferPushes 4 [0x61, 0x62, 0x63, 0x64]) 0 4 (by decide) (by decide) (by decide) rfl 0 0 4 (by decide)
    heq ⟨by decide, by decide, by decide, by decide⟩ with hfound | ⟨i, hi, -⟩
  · exact hfound
  · exact absurd hi (Nat.not_lt_zero i)

end Scomp
