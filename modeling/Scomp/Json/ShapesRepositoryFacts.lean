/-
Where the slots of the shapes repository are, over one step.

`JsrConserves` is what the repository is meant to keep: each slot of the pool
is free, in progress, or held by one live cache entry that its shape points
back to, and an eviction returns a shape. Two steps of
`_jsr_complete_current_shape` break it: a new cache entry is never given its
shape (so an eviction later follows NULL), and a shape merged with an older
one is never released. The first close of an object that still has a shape
takes the first of them.

`JsrSlots` is what holds as long as no such close happened: the cache is
empty, and the free slots with the shapes in progress are the pool.
-/
import Scomp.Json.ShapesRepository
import Mathlib.Data.List.ReduceOption

namespace Scomp

/-! ## Places of a slot -/

/-- In how many places a slot is: free, in progress, held by a live entry. -/
def jsrPlaces (repo : JsonShapesRepository) (slot : Nat) : Nat :=
  repo.shapes.freeSlots.values.count slot + repo.shapesInProgress.values.count (some slot) +
    (lmQueueLiveEntries repo.cacheController).countP fun entry =>
      lmQueueValue repo.cacheController entry = some slot

structure JsrConserves (repo : JsonShapesRepository) : Prop where
  placed : ∀ slot < JSON_SHAPES_TOTAL_POOL_SIZE, jsrPlaces repo slot = 1
  linked : ∀ slot, ∀ entry ∈ lmQueueLiveEntries repo.cacheController,
    lmQueueValue repo.cacheController entry = some slot → (repo.shapes.data slot).cacheEntry = some entry
  evicts : ∀ value q, lmQueuePop repo.cacheController = some (value, q) →
    ∃ slot < JSON_SHAPES_TOTAL_POOL_SIZE, value = some slot

/-- No shape was completed: the free slots and the shapes in progress are the
whole pool, and the cache is as `lm_queue_init` leaves it. -/
structure JsrSlots (repo : JsonShapesRepository) : Prop where
  slots : (repo.shapes.freeSlots.values ++ repo.shapesInProgress.values.reduceOption).Perm
    (List.range JSON_SHAPES_TOTAL_POOL_SIZE)
  poolCapacity : repo.shapes.freeSlots.itemCapacity = JSON_SHAPES_TOTAL_POOL_SIZE
  stackCapacity : repo.shapesInProgress.itemCapacity = JSON_MAX_STATE_STACK_LENGTH
  stackFits : repo.shapesInProgress.values.length ≤ JSON_MAX_STATE_STACK_LENGTH
  cache : ∃ freshStale matureStale, repo.cacheController =
    lmQueueInit freshStale matureStale JSON_SHAPES_FRESH_QUEUE_SIZE JSON_SHAPES_MATURE_QUEUE_SIZE
  uncached : ∀ slot, (repo.shapes.data slot).cacheEntry = none
  keyHashes : repo.keyHashes = hashChainInit

theorem count_reduceOption (slots : List (Option Nat)) (slot : Nat) :
    slots.reduceOption.count slot = slots.count (some slot) := by
  induction slots with
  | nil => rfl
  | cons top rest ih =>
    rcases top with _ | other
    · simp [ih]
    · by_cases he : other = slot
      · subst he; simp [ih]
      · simp [ih, he]

theorem JsrSlots.count {repo : JsonShapesRepository} (h : JsrSlots repo) {slot : Nat}
    (hs : slot < JSON_SHAPES_TOTAL_POOL_SIZE) :
    repo.shapes.freeSlots.values.count slot + repo.shapesInProgress.values.count (some slot) = 1 := by
  have hone : (List.range JSON_SHAPES_TOTAL_POOL_SIZE).count slot = 1 :=
    List.count_eq_one_of_mem List.nodup_range (List.mem_range.2 hs)
  rw [← count_reduceOption, ← List.count_append, h.slots.count_eq, hone]

/-- Nothing is lost as long as no shape is completed. -/
theorem JsrSlots.conserves {repo : JsonShapesRepository} (h : JsrSlots repo) : JsrConserves repo := by
  obtain ⟨freshStale, matureStale, hcache⟩ := h.cache
  have hlive : lmQueueLiveEntries repo.cacheController = [] := by rw [hcache]; simp
  have hover : lmQueueIsOverflowing repo.cacheController = false := by
    rw [hcache]
    exact lmQueueInit_isOverflowing freshStale matureStale 255 255
  refine ⟨fun slot hs => ?_, fun slot entry hentry => ?_, fun value q hpop => ?_⟩
  · simp [jsrPlaces, hlive, h.count hs]
  · simp [hlive] at hentry
  · simp [lmQueuePop, hover] at hpop

theorem JsrSlots.init (freshStale matureStale : Nat → FalEntry Nat) (references : Nat → JsonTokenShapeReference) :
    JsrSlots (jsrInit freshStale matureStale references) where
  slots := by simp [jsrInit, fpoolInit]
  poolCapacity := rfl
  stackCapacity := rfl
  stackFits := Nat.zero_le _
  cache := ⟨freshStale, matureStale, rfl⟩
  uncached := fun _ => rfl
  keyHashes := rfl

/-- A shape in progress leaves room for a release. -/
theorem JsrSlots.free_lt {repo : JsonShapesRepository} (h : JsrSlots repo) {slot : Nat}
    (hs : some slot ∈ repo.shapesInProgress.values) :
    repo.shapes.freeSlots.values.length < repo.shapes.freeSlots.itemCapacity := by
  have hlength := h.slots.length_eq
  have hpos : 0 < repo.shapesInProgress.values.reduceOption.length :=
    List.length_pos_of_mem (List.reduceOption_mem_iff.2 hs)
  rw [List.length_append, List.length_range] at hlength
  rw [h.poolCapacity]
  omega

/-- The shapes in progress are too few to empty the pool. -/
theorem JsrSlots.free_ne_nil {repo : JsonShapesRepository} (h : JsrSlots repo) :
    repo.shapes.freeSlots.values ≠ [] := by
  intro hnil
  have hlength := h.slots.length_eq
  have hle := List.reduceOption_length_le repo.shapesInProgress.values
  have hfits := h.stackFits
  rw [hnil, List.nil_append, List.length_range] at hlength
  simp only [JSON_SHAPES_TOTAL_POOL_SIZE, JSON_SHAPES_FRESH_QUEUE_SIZE, JSON_SHAPES_MATURE_QUEUE_SIZE] at hlength
  omega

/-! ## Steps that complete no shape -/

theorem JsrSlots.openObject {repo : JsonShapesRepository} (h : JsrSlots repo) (token : JsonToken) (address : Nat)
    (state : JsonState) (hk : token.kind = .objectOpen)
    (hlt : repo.shapesInProgress.values.length < JSON_MAX_STATE_STACK_LENGTH) :
    ∃ repo' slot, jsrProcessToken repo token address state = some repo' ∧ JsrSlots repo' ∧
      repo'.shapesInProgress.values = some slot :: repo.shapesInProgress.values := by
  obtain ⟨slot, free, hfree⟩ := List.exists_cons_of_ne_nil h.free_ne_nil
  have hpush : fstackPush repo.shapesInProgress (some slot) =
      some { repo.shapesInProgress with values := some slot :: repo.shapesInProgress.values } := by
    rw [fstackPush, if_pos (by rw [h.stackCapacity]; exact hlt)]
  have hrun : jsrProcessToken repo token address state = some (jsrSetupShape { repo with
      shapes := { repo.shapes with freeSlots := { repo.shapes.freeSlots with values := free } }
      shapesInProgress :=
        { repo.shapesInProgress with values := some slot :: repo.shapesInProgress.values } } slot address) := by
    simp [jsrProcessToken, hk, fpoolAcquire_of_cons hfree, hpush]
  refine ⟨_, slot, hrun, ⟨?_, h.poolCapacity, h.stackCapacity, hlt, h.cache, fun other => ?_, h.keyHashes⟩, rfl⟩
  · have hslots := h.slots
    rw [hfree] at hslots
    exact List.perm_middle.trans hslots
  · show (Function.update repo.shapes.data slot _ other).cacheEntry = none
    by_cases he : other = slot
    · subst he; simp
    · simp [he, h.uncached other]

/-- A key byte extends the current shape, or drops it back to the pool. -/
theorem JsrSlots.pushKeyByte {repo : JsonShapesRepository} (h : JsrSlots repo) (b : Byte)
    (hne : 0 < repo.shapesInProgress.values.length) :
    ∃ repo', jsrPushKeyByte repo b = some repo' ∧ JsrSlots repo' ∧
      repo'.shapesInProgress.values.length = repo.shapesInProgress.values.length := by
  obtain ⟨top, rest, hvalues⟩ := List.exists_cons_of_length_pos hne
  have hcurrent : jsrGetCurrentShape repo = some top := by simp [jsrGetCurrentShape, fstackPeek, hvalues]
  rcases top with _ | slot
  · exact ⟨repo, by simp [jsrPushKeyByte, hcurrent], h, rfl⟩
  have huncached : ∀ shape : JsonObjectShape, shape.cacheEntry = none → ∀ other,
      (Function.update repo.shapes.data slot shape other).cacheEntry = none := by
    intro shape hshape other
    by_cases he : other = slot
    · subst he; simp [hshape]
    · simp [he, h.uncached other]
  by_cases hlong : (repo.shapes.data slot).keysLength ≥ JSON_SHAPE_SUM_KEY_LENGTH
  · have htop : fstackSetTop repo.shapesInProgress none =
        some { repo.shapesInProgress with values := none :: rest } := by simp [fstackSetTop, hvalues]
    let dropped := { repo.shapes.data slot with sourceObjectShapeReference := none }
    have hroom := @JsrSlots.free_lt repo h slot (by simp [hvalues])
    have hrelease := @fpoolRelease_of_lt _ (repo.shapes.set slot dropped) slot hroom
    have hrun : jsrPushKeyByte repo b = some { repo with
        references :=
          jsrSetReference repo.references (repo.shapes.data slot).sourceObjectShapeReference none
        shapesInProgress := { repo.shapesInProgress with values := none :: rest }
        shapes := { repo.shapes.set slot dropped with
          freeSlots := { repo.shapes.freeSlots with values := slot :: repo.shapes.freeSlots.values } } } := by
      simp only [jsrPushKeyByte, hcurrent, Option.bind_eq_bind, Option.bind_some, if_pos hlong, htop]
      rw [hrelease]
      rfl
    refine ⟨_, hrun, ⟨?_, h.poolCapacity, h.stackCapacity, ?_, h.cache, ?_, h.keyHashes⟩, ?_⟩
    · have hslots := h.slots
      rw [hvalues, List.reduceOption_cons_of_some] at hslots
      simpa using List.perm_middle.symm.trans hslots
    · simpa [hvalues] using h.stackFits
    · exact huncached dropped (h.uncached slot)
    · simp [hvalues]
  · let shape := repo.shapes.data slot
    let longer := { shape with
      keysHash := jsrUpdateHash shape.keysHash b.toUInt16 shape.keysLength
      keys := Function.update shape.keys shape.keysLength b
      keysLength := shape.keysLength + 1 }
    have hrun : jsrPushKeyByte repo b = some { repo with shapes := repo.shapes.set slot longer } := by
      simp only [jsrPushKeyByte, hcurrent, Option.bind_eq_bind, Option.bind_some, if_neg hlong]
      rfl
    refine ⟨_, hrun, ⟨h.slots, h.poolCapacity, h.stackCapacity, h.stackFits, h.cache, ?_, h.keyHashes⟩, rfl⟩
    exact huncached longer (h.uncached slot)

/-- An object whose shape was dropped leaves the stack and nothing else. -/
theorem JsrSlots.closeDropped {repo : JsonShapesRepository} (h : JsrSlots repo) {rest : List (Option Nat)}
    (hvalues : repo.shapesInProgress.values = none :: rest) :
    ∃ repo', jsrCompleteCurrentShape repo = some repo' ∧ JsrSlots repo' ∧
      repo'.shapesInProgress.values = rest := by
  refine ⟨{ repo with shapesInProgress := { repo.shapesInProgress with values := rest } },
    by simp [jsrCompleteCurrentShape, fstackPop, hvalues],
    ⟨?_, h.poolCapacity, h.stackCapacity, ?_, h.cache, h.uncached, h.keyHashes⟩, rfl⟩
  · simpa [hvalues] using h.slots
  · have hfits := h.stackFits
    rw [hvalues, List.length_cons] at hfits
    exact Nat.le_of_succ_le hfits

/-! ## The step that completes a shape -/

/-- Among shapes that are not cached there is no match. -/
theorem jsrFindMatchingShape_uncached {repo : JsonShapesRepository} (h : JsrSlots repo)
    (progress : FixedStack (Option Nat)) (newShape : JsonObjectShape) :
    jsrFindMatchingShape { repo with shapesInProgress := progress } newShape = some none := by
  have hoffset : fpoolOffsetToValue repo.shapes 0 = some 0 := by
    simp [fpoolOffsetToValue, fstackGetCapacity, h.poolCapacity, JSON_SHAPES_TOTAL_POOL_SIZE,
      JSON_MAX_STATE_STACK_LENGTH]
  have hfrom : ∀ turns, jsrFindMatchingShapeFrom { repo with shapesInProgress := progress } newShape turns 0 =
      some none := by
    intro turns
    induction turns with
    | zero => rfl
    | succ turns ih =>
      have hprev : hashChainGetPreviousPositionByPosition repo.keyHashes 0 = 0 := by rw [h.keyHashes]; rfl
      simp only [jsrFindMatchingShapeFrom, hoffset, hprev, Option.bind_eq_bind, Option.bind_some, ih]
      simp [jsrIsMatch, h.uncached]
  have hfirst : hashChainGetFirstPositionByHash repo.keyHashes newShape.keysHash = 0 := by
    rw [h.keyHashes]; rfl
  rw [jsrFindMatchingShape]
  simp only [hfirst]
  exact hfrom _

/-- **Completing the first shape loses it**: its cache entry holds NULL. -/
theorem JsrSlots.complete_loses {repo repo' : JsonShapesRepository} (h : JsrSlots repo) {slot : Nat}
    {rest : List (Option Nat)} (hvalues : repo.shapesInProgress.values = some slot :: rest)
    (hrun : jsrCompleteCurrentShape repo = some repo') :
    slot < JSON_SHAPES_TOTAL_POOL_SIZE ∧ jsrPlaces repo' slot = 0 := by
  have hslot : slot < JSON_SHAPES_TOTAL_POOL_SIZE := by
    have hmem : slot ∈ repo.shapes.freeSlots.values ++ repo.shapesInProgress.values.reduceOption :=
      List.mem_append_right _ (List.reduceOption_mem_iff.2 (by simp [hvalues]))
    exact List.mem_range.1 (h.slots.mem_iff.1 hmem)
  have hpop : fstackPop repo.shapesInProgress =
      some (some slot, { repo.shapesInProgress with values := rest }) := by simp only [fstackPop, hvalues]
  have hoffset : fpoolGetOffset repo.shapes slot = some slot := by
    simp [fpoolGetOffset, fstackGetCapacity, h.poolCapacity, hslot]
  obtain ⟨freshStale, matureStale, hcache⟩ := h.cache
  obtain ⟨q, hpush, hover, hnull⟩ := lmQueuePush_init freshStale matureStale 254 255
  have hpush : lmQueuePush repo.cacheController = some (.fresh 0, q) := by rw [hcache]; exact hpush
  simp only [jsrCompleteCurrentShape, hpop, Option.bind_eq_bind, Option.bind_some,
    jsrFindMatchingShape_uncached h, hoffset, hpush, jsrDrainCacheOverflow, hover] at hrun
  cases hrun
  refine ⟨hslot, ?_⟩
  have hcount := h.count hslot
  rw [hvalues, List.count_cons_self] at hcount
  have hfree : repo.shapes.freeSlots.values.count slot = 0 := by omega
  have hrest : rest.count (some slot) = 0 := by omega
  have hheld : (lmQueueLiveEntries q).countP (fun entry => lmQueueValue q entry = some slot) = 0 := by
    rw [List.countP_eq_zero]
    intro entry hentry
    simp [hnull entry hentry]
  simp only [jsrPlaces, FixedPool.set_freeSlots, hfree, hrest, hheld]

end Scomp
