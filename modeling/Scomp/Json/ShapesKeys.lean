/-
What a shape knows about its object's keys, over one step.

`_jsr_setup_shape` takes the slot as it is and never resets `keys_length`.
A slot is only released when its shape is dropped for its long keys, with
`keys_length` at the limit, and the pool hands it out again at the next
OBJECT_OPEN: that object starts with the keys of the dropped one. As long as
the free slots are clean, a shape has exactly the key bytes of its object.
-/
import Scomp.Json.ShapesCache
import Mathlib.Data.List.Forall2
import Mathlib.Data.List.ReduceOption

namespace Scomp

/-! ## Key bytes -/

/-- `keys[0..keys_length)` -/
def jsrShapeKeys (shape : JsonObjectShape) : List Byte := (List.range shape.keysLength).map shape.keys

/-- The hash of key bytes, each mixed in by its index. -/
def jsrKeysHash (keys : List Byte) : UInt16 :=
  keys.zipIdx.foldl (fun hash byte => jsrUpdateHash hash byte.1.toUInt16 byte.2) 0

@[simp] theorem jsrShapeKeys_length (shape : JsonObjectShape) : (jsrShapeKeys shape).length = shape.keysLength := by
  simp [jsrShapeKeys]

theorem jsrKeysHash_append (keys : List Byte) (b : Byte) :
    jsrKeysHash (keys ++ [b]) = jsrUpdateHash (jsrKeysHash keys) b.toUInt16 keys.length := by
  simp [jsrKeysHash, List.zipIdx_append]

/-- Matching shapes have the same keys. -/
theorem jsrShapeKeys_of_match {older newer : JsonObjectShape} (h : jsrIsMatch older newer = true) :
    older.cacheEntry.isSome = true ∧ jsrShapeKeys older = jsrShapeKeys newer := by
  simp only [jsrIsMatch, Bool.and_eq_true, decide_eq_true_eq, List.all_eq_true, List.mem_range] at h
  obtain ⟨⟨⟨hcached, hlength⟩, -⟩, hkeys⟩ := h
  refine ⟨hcached, ?_⟩
  rw [jsrShapeKeys, jsrShapeKeys, ← hlength]
  exact List.map_congr_left fun i hi => hkeys i (List.mem_range.1 hi)

/-- Whatever the search returns matches. -/
theorem jsrFindMatchingShape_match {repo : JsonShapesRepository} {newShape : JsonObjectShape} {older : Nat}
    (h : jsrFindMatchingShape repo newShape = some (some older)) :
    jsrIsMatch (repo.shapes.data older) newShape = true := by
  have hfrom : ∀ turns pos, jsrFindMatchingShapeFrom repo newShape turns pos = some (some older) →
      jsrIsMatch (repo.shapes.data older) newShape = true := by
    intro turns
    induction turns with
    | zero =>
      intro pos hfound
      cases hfound
    | succ turns ih =>
      intro pos hfound
      simp only [jsrFindMatchingShapeFrom, Option.bind_eq_bind, Option.bind_eq_some_iff] at hfound
      obtain ⟨matchShape, -, hfound⟩ := hfound
      by_cases hmatch : jsrIsMatch (repo.shapes.data matchShape) newShape = true
      · rw [if_pos hmatch] at hfound
        cases hfound
        exact hmatch
      · rw [if_neg hmatch] at hfound
        exact ih _ hfound
  exact hfrom _ _ h

/-! ## What a step does -/

section

variable {repo repo' : JsonShapesRepository} {b : Byte}

theorem jsrGetCurrentShape_eq_some {top : Option Nat} :
    jsrGetCurrentShape repo = some top ↔ ∃ rest, repo.shapesInProgress.values = top :: rest := by
  rw [jsrGetCurrentShape, fstackPeek]
  rcases repo.shapesInProgress.values with _ | ⟨other, rest⟩
  · simp
  · simp

theorem jsrSetReference_self (references : Nat → JsonTokenShapeReference) (address : Nat) (shape : Option Nat) :
    (jsrSetReference references (some address) shape address).shape = shape := by
  simp [jsrSetReference]

/-- A key byte does nothing, drops the current shape, or extends it. -/
theorem jsrPushKeyByte_cases (h : jsrPushKeyByte repo b = some repo') :
    ∃ top rest, repo.shapesInProgress.values = top :: rest ∧
      (top = none ∧ repo' = repo ∨ ∃ slot, top = some slot ∧
        (JSON_SHAPE_SUM_KEY_LENGTH ≤ (repo.shapes.data slot).keysLength ∧
            repo'.shapes.freeSlots =
              { repo.shapes.freeSlots with values := slot :: repo.shapes.freeSlots.values } ∧
            repo'.shapesInProgress.values = none :: rest ∧ repo'.cacheController = repo.cacheController ∧
            repo'.shapes.data = Function.update repo.shapes.data slot
              { repo.shapes.data slot with sourceObjectShapeReference := none } ∨
          (repo.shapes.data slot).keysLength < JSON_SHAPE_SUM_KEY_LENGTH ∧
            repo'.shapes.freeSlots = repo.shapes.freeSlots ∧ repo'.shapesInProgress = repo.shapesInProgress ∧
            repo'.cacheController = repo.cacheController ∧
            repo'.shapes.data = Function.update repo.shapes.data slot
              { repo.shapes.data slot with
                keysHash := jsrUpdateHash (repo.shapes.data slot).keysHash b.toUInt16 (repo.shapes.data slot).keysLength
                keys := Function.update (repo.shapes.data slot).keys (repo.shapes.data slot).keysLength b
                keysLength := (repo.shapes.data slot).keysLength + 1 })) := by
  rw [jsrPushKeyByte, Option.bind_eq_bind, Option.bind_eq_some_iff] at h
  obtain ⟨top, hcurrent, hrun⟩ := h
  obtain ⟨rest, hvalues⟩ := jsrGetCurrentShape_eq_some.1 hcurrent
  refine ⟨top, rest, hvalues, ?_⟩
  rcases top with _ | slot
  · exact .inl ⟨rfl, (Option.some.inj hrun).symm⟩
  · refine .inr ⟨slot, rfl, ?_⟩
    by_cases hlong : (repo.shapes.data slot).keysLength ≥ JSON_SHAPE_SUM_KEY_LENGTH
    · left
      simp only [if_pos hlong, fstackSetTop, hvalues, fpoolRelease, fstackPush, Option.bind_eq_bind,
        Option.bind_some] at hrun
      split at hrun
      · split at hrun
        · cases hrun
          exact ⟨hlong, rfl, rfl, rfl, rfl⟩
        · cases hrun
      · cases hrun
    · right
      simp only [if_neg hlong] at hrun
      cases hrun
      exact ⟨by omega, rfl, rfl, rfl, rfl⟩

/-- OBJECT_OPEN takes the next free slot as it is. -/
theorem jsrProcessToken_open {token : JsonToken} {address : Nat} {state : JsonState} (hk : token.kind = .objectOpen)
    (h : jsrProcessToken repo token address state = some repo') :
    ∃ slot free, repo.shapes.freeSlots.values = slot :: free ∧
      repo'.shapes.freeSlots = { repo.shapes.freeSlots with values := free } ∧
      repo'.shapesInProgress.values = some slot :: repo.shapesInProgress.values ∧
      repo'.cacheController = repo.cacheController ∧ ∃ id, repo'.shapes.data = Function.update repo.shapes.data slot
        { repo.shapes.data slot with
          keysHash := 0, cacheEntry := none, id := id, sourceObjectShapeReference := some address } := by
  simp only [jsrProcessToken, hk, reduceCtorEq, and_false, if_false, if_true, Option.bind_eq_bind,
    Option.bind_eq_some_iff] at h
  obtain ⟨⟨slot, shapes⟩, hacquire, progress, hpush, hrun⟩ := h
  cases hrun
  rcases hfree : repo.shapes.freeSlots.values with _ | ⟨other, free⟩
  · simp [fpoolAcquire, fpoolHasSpace, fstackGetCount, hfree] at hacquire
  · rw [fpoolAcquire_of_cons hfree] at hacquire
    cases hacquire
    rw [fstackPush] at hpush
    split at hpush
    · cases hpush
      exact ⟨slot, free, rfl, rfl, rfl, rfl, _, rfl⟩
    · cases hpush

/-- OBJECT_CLOSE forgets a dropped shape, refers the token to an older shape
with the same keys, or makes the shape the first of its kind. -/
theorem jsrCompleteCurrentShape_cases (hcache : JsrCache repo.shapes.data repo.cacheController)
    (h : jsrCompleteCurrentShape repo = some repo') :
    repo'.shapes.freeSlots = repo.shapes.freeSlots ∧
      ∃ top, repo.shapesInProgress.values = top :: repo'.shapesInProgress.values ∧
        (top = none ∧ repo'.shapes.data = repo.shapes.data ∧ repo'.cacheController = repo.cacheController ∧
            repo'.references = repo.references ∨
          ∃ slot, top = some slot ∧
            ((∃ older entry entry', jsrIsMatch (repo.shapes.data older) (repo.shapes.data slot) = true ∧
                (repo.shapes.data older).cacheEntry = some entry ∧
                lmQueueBump repo.cacheController entry = some (entry', repo'.cacheController) ∧
                repo'.shapes.data =
                  Function.update repo.shapes.data older { repo.shapes.data older with cacheEntry := some entry' } ∧
                repo'.references = jsrSetReference repo.references
                  (repo'.shapes.data slot).sourceObjectShapeReference (some older)) ∨
              ∃ entry, lmQueuePush repo.cacheController = some (entry, repo'.cacheController) ∧
                repo'.shapes.data = Function.update repo.shapes.data slot
                  { repo.shapes.data slot with sourceObjectShapeReference := none, cacheEntry := some entry } ∧
                repo'.references = jsrSetReference repo.references
                  (repo.shapes.data slot).sourceObjectShapeReference none)) := by
  rw [jsrCompleteCurrentShape, Option.bind_eq_bind, Option.bind_eq_some_iff] at h
  obtain ⟨⟨top, progress⟩, hpop, hrun⟩ := h
  have hvalues : repo.shapesInProgress.values = top :: progress.values := by
    rw [fstackPop] at hpop
    split at hpop
    · cases hpop
    · next heq =>
      cases hpop
      exact heq
  rcases top with _ | slot
  · cases hrun
    exact ⟨rfl, none, hvalues, .inl ⟨rfl, rfl, rfl, rfl⟩⟩
  simp only [Option.bind_eq_bind, Option.bind_eq_some_iff] at hrun
  obtain ⟨found, hfound, hrun⟩ := hrun
  rcases found with _ | older
  · simp only [Option.bind_eq_some_iff] at hrun
    obtain ⟨offset, -, ⟨entry, cache⟩, hpush, hdrain⟩ := hrun
    have hrun := jsrDrainCacheOverflow_eq (hcache.nulls.push hpush).1 hdrain
    subst hrun
    exact ⟨rfl, some slot, hvalues, .inr ⟨slot, rfl, .inr ⟨entry, hpush, rfl, rfl⟩⟩⟩
  · simp only [Option.bind_eq_some_iff] at hrun
    obtain ⟨entry, hentry, ⟨entry', cache⟩, hbump, drained, hdrain, hrun⟩ := hrun
    have hdrained := jsrDrainCacheOverflow_eq (hcache.nulls.bump (hcache.live older entry hentry) hbump).1 hdrain
    subst hdrained
    cases hrun
    exact ⟨rfl, some slot, hvalues, .inr ⟨slot, rfl, .inl ⟨older, entry, entry', jsrFindMatchingShape_match hfound,
      hentry, hbump, rfl, rfl⟩⟩⟩

end

/-! ## Objects and their shapes -/

/-- An open object: where its opening token is, and the key bytes that were
pushed for it. -/
structure JsrObject where
  address : Nat
  keys : List Byte
deriving DecidableEq, Repr

/-- A key byte of the innermost object. -/
def jsrExtend (objects : List JsrObject) (b : Byte) : List JsrObject :=
  match objects with
  | [] => []
  | object :: rest => { object with keys := object.keys ++ [b] } :: rest

structure JsrRecords (shape : JsonObjectShape) (object : JsrObject) : Prop where
  keys : jsrShapeKeys shape = object.keys
  hash : shape.keysHash = jsrKeysHash object.keys
  reference : shape.sourceObjectShapeReference = some object.address

/-- The shape has the object's keys, or was dropped because they are too long. -/
def JsrRecorded (data : Nat → JsonObjectShape) (object : JsrObject) : Option Nat → Prop
  | some slot => JsrRecords (data slot) object
  | none => JSON_SHAPE_SUM_KEY_LENGTH < object.keys.length

/-- The next slot to be handed out has the keys of a dropped shape. -/
def JsrNextStale (repo : JsonShapesRepository) : Prop :=
  ∃ slot free, repo.shapes.freeSlots.values = slot :: free ∧
    JSON_SHAPE_SUM_KEY_LENGTH ≤ (repo.shapes.data slot).keysLength

/-- `closed` are the slots of the objects that were closed, with their keys;
`within` says that no object had too long keys yet. -/
structure JsrKept (repo : JsonShapesRepository) (objects : List JsrObject) (closed : Nat → List Byte → Prop)
    (within : Prop) : Prop where
  nodup : (repo.shapes.freeSlots.values ++ repo.shapesInProgress.values.reduceOption).Nodup
  room : repo.shapes.freeSlots.values.length + repo.shapesInProgress.values.reduceOption.length ≤
    repo.shapes.freeSlots.itemCapacity
  recorded : List.Forall₂ (JsrRecorded repo.shapes.data) objects repo.shapesInProgress.values
  fits : within → ∀ object ∈ objects, object.keys.length ≤ JSON_SHAPE_SUM_KEY_LENGTH
  clean : within → ∀ slot ∈ repo.shapes.freeSlots.values, (repo.shapes.data slot).keysLength = 0
  stale : ¬within → JsrNextStale repo
  closedAway : ∀ slot keys, closed slot keys →
    slot ∉ repo.shapes.freeSlots.values ∧ some slot ∉ repo.shapesInProgress.values
  closedKeys : ∀ slot keys, closed slot keys → jsrShapeKeys (repo.shapes.data slot) = keys
  cached : ∀ slot entry, (repo.shapes.data slot).cacheEntry = some entry → ∃ keys, closed slot keys
  cache : JsrCache repo.shapes.data repo.cacheController

theorem JsrRecords.extend {shape : JsonObjectShape} {object : JsrObject} (h : JsrRecords shape object) (b : Byte) :
    JsrRecords { shape with
        keysHash := jsrUpdateHash shape.keysHash b.toUInt16 shape.keysLength
        keys := Function.update shape.keys shape.keysLength b
        keysLength := shape.keysLength + 1 } { object with keys := object.keys ++ [b] } := by
  have hlength : object.keys.length = shape.keysLength := by rw [← h.keys, jsrShapeKeys_length]
  refine ⟨?_, ?_, h.reference⟩
  · have hold : (List.range shape.keysLength).map (Function.update shape.keys shape.keysLength b) =
        (List.range shape.keysLength).map shape.keys :=
      List.map_congr_left fun i hi => Function.update_of_ne (Nat.ne_of_lt (List.mem_range.1 hi)) _ _
    rw [jsrShapeKeys, List.range_succ, List.map_append, hold, ← h.keys]
    simp [jsrShapeKeys]
  · rw [jsrKeysHash_append, ← h.hash, hlength]

theorem JsrRecorded.congr {data data' : Nat → JsonObjectShape} {objects : List JsrObject} {values : List (Option Nat)}
    (h : List.Forall₂ (JsrRecorded data) objects values) (hsame : ∀ slot, some slot ∈ values → data' slot = data slot) :
    List.Forall₂ (JsrRecorded data') objects values := by
  induction h with
  | nil => exact .nil
  | @cons object top objects values hrecorded _ ih =>
    refine .cons ?_ (ih fun slot hslot => hsame slot (by simp [hslot]))
    rcases top with _ | slot
    · exact hrecorded
    · rw [JsrRecorded, hsame slot (by simp)]
      exact hrecorded

section

variable {repo repo' : JsonShapesRepository} {objects : List JsrObject} {closed : Nat → List Byte → Prop} {within : Prop}

/-- As long as the free slots stay, and stay as they are. -/
theorem JsrNextStale.of_free (h : JsrNextStale repo) (hfree : repo'.shapes.freeSlots = repo.shapes.freeSlots)
    (hsame : ∀ slot ∈ repo.shapes.freeSlots.values,
      (repo'.shapes.data slot).keysLength = (repo.shapes.data slot).keysLength) : JsrNextStale repo' := by
  obtain ⟨slot, free, hvalues, hlong⟩ := h
  exact ⟨slot, free, by rw [hfree, hvalues], by rwa [hsame slot (by simp [hvalues])]⟩

theorem JsrKept.init (freshStale matureStale : Nat → FalEntry Nat) (references : Nat → JsonTokenShapeReference) :
    JsrKept (jsrInit freshStale matureStale references) [] (fun _ _ => False) True where
  nodup := by simp [jsrInit, fpoolInit, List.nodup_range]
  room := by simp [jsrInit, fpoolInit]
  recorded := .nil
  fits := fun _ object hmem => by cases hmem
  clean := fun _ _ _ => rfl
  stale := fun h => absurd trivial h
  closedAway := fun _ _ h => h.elim
  closedKeys := fun _ _ h => h.elim
  cached := fun _ _ h => by cases h
  cache := .init _ _ _ _ _ fun _ => rfl

theorem JsrKept.congr {closed' : Nat → List Byte → Prop} {within' : Prop} (h : JsrKept repo objects closed within)
    (hclosed : ∀ slot keys, closed' slot keys ↔ closed slot keys) (hwithin : within' ↔ within) :
    JsrKept repo objects closed' within' where
  nodup := h.nodup
  room := h.room
  recorded := h.recorded
  fits := fun hw => h.fits (hwithin.1 hw)
  clean := fun hw => h.clean (hwithin.1 hw)
  stale := fun hw => h.stale fun hw' => hw (hwithin.2 hw')
  closedAway := fun slot keys hc => h.closedAway slot keys ((hclosed slot keys).1 hc)
  closedKeys := fun slot keys hc => h.closedKeys slot keys ((hclosed slot keys).1 hc)
  cached := fun slot entry he => by
    obtain ⟨keys, hc⟩ := h.cached slot entry he
    exact ⟨keys, (hclosed slot keys).2 hc⟩
  cache := h.cache

/-- The shape of a slot that no object was closed with may change, as long as
it gets no handle. -/
theorem JsrKept.update (h : JsrKept repo objects closed within) {data : Nat → JsonObjectShape} {slot : Nat}
    (haway : ∀ keys, ¬closed slot keys) (hsame : ∀ other, other ≠ slot → data other = repo.shapes.data other)
    (hentry : ∀ entry, (data slot).cacheEntry = some entry → (repo.shapes.data slot).cacheEntry = some entry) :
    (∀ other keys, closed other keys → jsrShapeKeys (data other) = keys) ∧
      (∀ other entry, (data other).cacheEntry = some entry → ∃ keys, closed other keys) ∧
      JsrCache data repo.cacheController := by
  have hentries : ∀ other entry, (data other).cacheEntry = some entry →
      (repo.shapes.data other).cacheEntry = some entry := by
    intro other entry he
    by_cases heq : other = slot
    · subst heq
      exact hentry entry he
    · rwa [hsame other heq] at he
  refine ⟨fun other keys hc => ?_, fun other entry he => h.cached other entry (hentries other entry he),
    h.cache.congr hentries⟩
  have hne : other ≠ slot := by
    intro heq
    exact haway keys (heq ▸ hc)
  rw [hsame other hne]
  exact h.closedKeys other keys hc

/-- A free slot that is clean records its new object. -/
theorem JsrKept.openObject (h : JsrKept repo objects closed within) (hwithin : within) {token : JsonToken} {address : Nat}
    {state : JsonState} (hk : token.kind = .objectOpen) (hrun : jsrProcessToken repo token address state = some repo') :
    JsrKept repo' ({ address := address, keys := [] } :: objects) closed within := by
  obtain ⟨slot, free, hfree, hfree', hprogress, hcontroller, id, hdata⟩ := jsrProcessToken_open hk hrun
  have hclean := h.clean hwithin
  have hnodup := h.nodup
  rw [hfree] at hclean hnodup
  have hslot := (List.nodup_cons.1 (List.cons_append ▸ hnodup)).1
  rw [List.mem_append, not_or, List.reduceOption_mem_iff] at hslot
  have hsame : ∀ other, other ≠ slot → repo'.shapes.data other = repo.shapes.data other := by
    intro other hne
    rw [hdata, Function.update_of_ne hne]
  have haway : ∀ keys, ¬closed slot keys := fun keys hc => (h.closedAway slot keys hc).1 (by simp [hfree])
  obtain ⟨hkeys, hcached, hcache⟩ := h.update haway hsame fun entry he => by
    rw [hdata, Function.update_self] at he
    cases he
  refine ⟨?_, ?_, ?_, fun _ object hmem => ?_, fun _ other hother => ?_, fun hw => absurd hwithin hw,
    fun other keys hc => ?_, hkeys, hcached, hcontroller ▸ hcache⟩
  · rw [hfree', hprogress, List.reduceOption_cons_of_some]
    exact List.perm_middle.nodup_iff.2 hnodup
  · have hroom := h.room
    rw [hfree, List.length_cons] at hroom
    rw [hfree', hprogress, List.reduceOption_cons_of_some, List.length_cons]
    show free.length + _ ≤ repo.shapes.freeSlots.itemCapacity
    omega
  · rw [hprogress]
    refine .cons ⟨?_, ?_, ?_⟩ (JsrRecorded.congr h.recorded fun other hother => hsame other ?_)
    · rw [jsrShapeKeys, hdata, Function.update_self]
      simp [hclean slot (by simp)]
    · rw [hdata, Function.update_self]
      rfl
    · rw [hdata, Function.update_self]
    · intro heq
      exact hslot.2 (heq ▸ hother)
  · rcases List.mem_cons.1 hmem with rfl | hmem
    · exact Nat.zero_le _
    · exact h.fits hwithin object hmem
  · rw [hfree'] at hother
    have hne : other ≠ slot := by
      intro heq
      exact hslot.1 (heq ▸ hother)
    rw [hsame other hne]
    exact hclean other (by simp [hother])
  · obtain ⟨hnotfree, hnotprogress⟩ := h.closedAway other keys hc
    have hne : other ≠ slot := by
      intro heq
      exact haway keys (heq ▸ hc)
    rw [hfree', hprogress]
    exact ⟨fun hmem => hnotfree (by simp [hfree, hmem]), by simpa [hnotprogress] using hne⟩

/-- The innermost object's slot is nobody else's, and records it. -/
theorem JsrKept.top (h : JsrKept repo objects closed within) {slot : Nat} {rest : List (Option Nat)}
    (hvalues : repo.shapesInProgress.values = some slot :: rest) :
    (∃ object outer, objects = object :: outer ∧ JsrRecords (repo.shapes.data slot) object ∧
        List.Forall₂ (JsrRecorded repo.shapes.data) outer rest) ∧
      (repo.shapes.freeSlots.values ++ rest.reduceOption).Nodup ∧ slot ∉ repo.shapes.freeSlots.values ∧
      some slot ∉ rest ∧ ∀ keys, ¬closed slot keys := by
  have hnodup := h.nodup
  have hrecorded := h.recorded
  rw [hvalues] at hrecorded
  rw [hvalues, List.reduceOption_cons_of_some] at hnodup
  obtain ⟨hslot, hrest⟩ := List.nodup_cons.1 (List.perm_middle.nodup_iff.1 hnodup)
  rw [List.mem_append, not_or, List.reduceOption_mem_iff] at hslot
  obtain ⟨object, outer, htop, houter, hobjects⟩ := List.forall₂_cons_right_iff.1 hrecorded
  exact ⟨⟨object, outer, hobjects, htop, houter⟩, hrest, hslot.1, hslot.2, fun keys hc =>
    (h.closedAway slot keys hc).2 (by simp [hvalues])⟩

/-- The slot of a dropped shape is free, and not clean. -/
theorem JsrKept.drop {object : JsrObject} {slot : Nat} {rest : List (Option Nat)} {shape : JsonObjectShape} {b : Byte}
    (h : JsrKept repo (object :: objects) closed within) (hvalues : repo.shapesInProgress.values = some slot :: rest)
    (hlong : JSON_SHAPE_SUM_KEY_LENGTH ≤ (repo.shapes.data slot).keysLength)
    (hfree : repo'.shapes.freeSlots = { repo.shapes.freeSlots with values := slot :: repo.shapes.freeSlots.values })
    (hprogress : repo'.shapesInProgress.values = none :: rest)
    (hcontroller : repo'.cacheController = repo.cacheController)
    (hdata : repo'.shapes.data = Function.update repo.shapes.data slot shape)
    (hshape : shape.cacheEntry = (repo.shapes.data slot).cacheEntry)
    (hstale : shape.keysLength = (repo.shapes.data slot).keysLength) :
    JsrKept repo' ({ object with keys := object.keys ++ [b] } :: objects) closed False := by
  obtain ⟨⟨_, _, heq, hrecords, houter⟩, hnodup, hslot, hrest, haway⟩ := h.top hvalues
  cases heq
  have hsame : ∀ other, other ≠ slot → repo'.shapes.data other = repo.shapes.data other := by
    intro other hne
    rw [hdata, Function.update_of_ne hne]
  obtain ⟨hkeys, hcached, hcache⟩ := h.update haway hsame fun entry he => by
    rwa [hdata, Function.update_self, hshape] at he
  refine ⟨?_, ?_, ?_, False.elim, False.elim, fun _ => ⟨slot, repo.shapes.freeSlots.values, by rw [hfree], ?_⟩,
    fun other keys hc => ?_, hkeys, hcached, hcontroller ▸ hcache⟩
  · have hnodup' := h.nodup
    rw [hvalues, List.reduceOption_cons_of_some] at hnodup'
    rw [hfree, hprogress, List.reduceOption_cons_of_none]
    exact List.perm_middle.nodup_iff.1 hnodup'
  · have hroom := h.room
    rw [hvalues, List.reduceOption_cons_of_some, List.length_cons] at hroom
    rw [hfree, hprogress, List.reduceOption_cons_of_none, List.length_cons]
    show _ ≤ repo.shapes.freeSlots.itemCapacity
    omega
  · rw [hprogress]
    refine .cons ?_ (JsrRecorded.congr houter fun other hmem => hsame other fun heq => hrest (heq ▸ hmem))
    show _ < (object.keys ++ [b]).length
    rw [List.length_append, ← hrecords.keys, jsrShapeKeys_length]
    exact Nat.lt_succ_of_le hlong
  · rwa [hdata, Function.update_self, hstale]
  · obtain ⟨hnotfree, hnotprogress⟩ := h.closedAway other keys hc
    rw [hvalues] at hnotprogress
    rw [hfree, hprogress]
    refine ⟨fun hmem => ?_, fun hmem => hnotprogress (List.mem_cons_of_mem _ (by simpa using hmem))⟩
    rcases List.mem_cons.1 hmem with heq | hmem
    · exact haway keys (heq ▸ hc)
    · exact hnotfree hmem

/-- The innermost object's shape records one more key byte. -/
theorem JsrKept.extend {object : JsrObject} {slot : Nat} {rest : List (Option Nat)} {b : Byte}
    (h : JsrKept repo (object :: objects) closed within) (hvalues : repo.shapesInProgress.values = some slot :: rest)
    (hshort : (repo.shapes.data slot).keysLength < JSON_SHAPE_SUM_KEY_LENGTH)
    (hfree : repo'.shapes.freeSlots = repo.shapes.freeSlots) (hprogress : repo'.shapesInProgress = repo.shapesInProgress)
    (hcontroller : repo'.cacheController = repo.cacheController)
    (hdata : repo'.shapes.data = Function.update repo.shapes.data slot
      { repo.shapes.data slot with
        keysHash := jsrUpdateHash (repo.shapes.data slot).keysHash b.toUInt16 (repo.shapes.data slot).keysLength
        keys := Function.update (repo.shapes.data slot).keys (repo.shapes.data slot).keysLength b
        keysLength := (repo.shapes.data slot).keysLength + 1 }) :
    JsrKept repo' ({ object with keys := object.keys ++ [b] } :: objects) closed within := by
  obtain ⟨⟨_, _, heq, hrecords, houter⟩, -, hslot, hrest, haway⟩ := h.top hvalues
  cases heq
  have hsame : ∀ other, other ≠ slot → repo'.shapes.data other = repo.shapes.data other := by
    intro other hne
    rw [hdata, Function.update_of_ne hne]
  obtain ⟨hkeys, hcached, hcache⟩ := h.update haway hsame fun entry he => by
    rwa [hdata, Function.update_self] at he
  refine ⟨?_, ?_, ?_, fun hw other hmem => ?_, fun hw other hmem => ?_, fun hw => ?_, ?_, hkeys, hcached,
    hcontroller ▸ hcache⟩
  · rw [hfree, hprogress]
    exact h.nodup
  · rw [hfree, hprogress]
    exact h.room
  · rw [hprogress, hvalues]
    refine .cons ?_ (JsrRecorded.congr houter fun other hmem => hsame other fun heq => hrest (heq ▸ hmem))
    rw [JsrRecorded, hdata, Function.update_self]
    exact hrecords.extend b
  · rcases List.mem_cons.1 hmem with rfl | hmem
    · rw [List.length_append, ← hrecords.keys, jsrShapeKeys_length]
      exact hshort
    · exact h.fits hw other (List.mem_cons_of_mem _ hmem)
  · rw [hfree] at hmem
    rw [hsame other fun heq => hslot (heq ▸ hmem)]
    exact h.clean hw other hmem
  · exact (h.stale hw).of_free hfree fun other hmem => by rw [hsame other fun heq => hslot (heq ▸ hmem)]
  · rw [hfree, hprogress]
    exact h.closedAway

/-- A key byte is recorded, or is one too many. -/
theorem JsrKept.pushKeyByte (h : JsrKept repo objects closed within) {b : Byte}
    (hrun : jsrPushKeyByte repo b = some repo') :
    JsrKept repo' (jsrExtend objects b) closed
      (within ∧ ∀ object ∈ jsrExtend objects b, object.keys.length ≤ JSON_SHAPE_SUM_KEY_LENGTH) := by
  obtain ⟨top, rest, hvalues, hcases⟩ := jsrPushKeyByte_cases hrun
  rcases hcases with ⟨rfl, rfl⟩ | ⟨slot, rfl, hcases⟩
  · have hrecorded := h.recorded
    rw [hvalues] at hrecorded
    obtain ⟨object, outer, htop, houter, rfl⟩ := List.forall₂_cons_right_iff.1 hrecorded
    have hexceeded : ¬within := fun hw => absurd (h.fits hw object (by simp)) (Nat.not_le.2 htop)
    refine ⟨h.nodup, h.room, ?_, fun hw => hw.2, fun hw => h.clean hw.1, fun _ => h.stale hexceeded, h.closedAway,
      h.closedKeys, h.cached, h.cache⟩
    rw [hvalues]
    refine .cons ?_ houter
    show _ < (object.keys ++ [b]).length
    rw [List.length_append]
    exact Nat.lt_of_lt_of_le htop (Nat.le_add_right _ _)
  obtain ⟨⟨object, outer, rfl, hrecords, -⟩, -⟩ := h.top hvalues
  rcases hcases with ⟨hlong, hfree, hprogress, hcontroller, hdata⟩ | ⟨hshort, hfree, hprogress, hcontroller, hdata⟩
  · refine (h.drop hvalues hlong hfree hprogress hcontroller hdata rfl rfl).congr (fun _ _ => Iff.rfl)
      (iff_of_false (fun hw => ?_) id)
    have hfits := hw.2 { object with keys := object.keys ++ [b] } (by simp [jsrExtend])
    have hlength := jsrShapeKeys_length (repo.shapes.data slot)
    rw [hrecords.keys] at hlength
    rw [List.length_append, hlength] at hfits
    exact absurd hlong (Nat.not_le.2 hfits)
  · have hextended := h.extend hvalues hshort hfree hprogress hcontroller hdata
    exact hextended.congr (fun _ _ => Iff.rfl) ⟨fun hw => hw.1, fun hw => ⟨hw, hextended.fits hw⟩⟩

/-- The slot of a closed object is neither free nor in progress from then on. -/
theorem JsrKept.pop {object : JsrObject} {top : Option Nat} (h : JsrKept repo (object :: objects) closed within)
    (hvalues : repo.shapesInProgress.values = top :: repo'.shapesInProgress.values)
    (hfree : repo'.shapes.freeSlots = repo.shapes.freeSlots) (hdata : repo'.shapes.data = repo.shapes.data)
    (hcontroller : repo'.cacheController = repo.cacheController) :
    JsrKept repo' objects (fun slot keys => closed slot keys ∨ top = some slot ∧ keys = object.keys) within := by
  have hnodup := h.nodup
  have hrecorded := h.recorded
  rw [hvalues] at hnodup hrecorded
  obtain ⟨htop, houter⟩ := List.forall₂_cons.1 hrecorded
  have hsublist : repo'.shapesInProgress.values.reduceOption.Sublist
      (top :: repo'.shapesInProgress.values).reduceOption := by
    cases top with
    | none => exact List.Sublist.refl _
    | some slot => exact List.sublist_cons_self _ _
  refine ⟨?_, ?_, ?_, fun hw object' hmem => ?_, ?_, fun hw => ?_, fun slot keys hc => ?_, fun slot keys hc => ?_,
    fun slot entry he => ?_, ?_⟩
  · rw [hfree]
    exact hnodup.sublist (List.Sublist.append_left hsublist _)
  · rw [hfree]
    have hroom := h.room
    rw [hvalues] at hroom
    exact (Nat.add_le_add_left hsublist.length_le _).trans hroom
  · rw [hdata]
    exact houter
  · exact h.fits hw object' (List.mem_cons_of_mem _ hmem)
  · rw [hdata, hfree]
    exact h.clean
  · exact (h.stale hw).of_free hfree fun other _ => by rw [hdata]
  · rw [hfree]
    rcases hc with hc | ⟨rfl, -⟩
    · obtain ⟨hnotfree, hnotprogress⟩ := h.closedAway slot keys hc
      exact ⟨hnotfree, fun hmem => hnotprogress (by simp [hvalues, hmem])⟩
    · obtain ⟨-, -, hslot, hrest, -⟩ := h.top hvalues
      exact ⟨hslot, hrest⟩
  · rw [hdata]
    rcases hc with hc | ⟨rfl, rfl⟩
    · exact h.closedKeys slot keys hc
    · exact htop.keys
  · rw [hdata] at he
    obtain ⟨keys, hc⟩ := h.cached slot entry he
    exact ⟨keys, .inl hc⟩
  · rw [hdata, hcontroller]
    exact h.cache

/-- The shape of a slot that an object was closed with may change, as long as
it has the same keys. -/
theorem JsrKept.changeClosed {slot : Nat} {keys : List Byte} {shape : JsonObjectShape}
    (h : JsrKept repo objects closed within) (hclosed : closed slot keys)
    (hfree : repo'.shapes.freeSlots = repo.shapes.freeSlots) (hprogress : repo'.shapesInProgress = repo.shapesInProgress)
    (hdata : repo'.shapes.data = Function.update repo.shapes.data slot shape) (hshape : jsrShapeKeys shape = keys)
    (hcache : JsrCache repo'.shapes.data repo'.cacheController) : JsrKept repo' objects closed within := by
  obtain ⟨hnotfree, hnotprogress⟩ := h.closedAway slot keys hclosed
  have hsame : ∀ other, other ≠ slot → repo'.shapes.data other = repo.shapes.data other := by
    intro other hne
    rw [hdata, Function.update_of_ne hne]
  refine ⟨?_, ?_, ?_, h.fits, fun hw other hmem => ?_, fun hw => ?_, ?_, fun other keys' hc => ?_,
    fun other entry he => ?_, hcache⟩
  · rw [hfree, hprogress]
    exact h.nodup
  · rw [hfree, hprogress]
    exact h.room
  · rw [hprogress]
    exact JsrRecorded.congr h.recorded fun other hmem => hsame other fun heq => hnotprogress (heq ▸ hmem)
  · rw [hfree] at hmem
    rw [hsame other fun heq => hnotfree (heq ▸ hmem)]
    exact h.clean hw other hmem
  · exact (h.stale hw).of_free hfree fun other hmem => by rw [hsame other fun heq => hnotfree (heq ▸ hmem)]
  · rw [hfree, hprogress]
    exact h.closedAway
  · by_cases heq : other = slot
    · subst heq
      rw [hdata, Function.update_self, hshape, ← h.closedKeys other keys hclosed]
      exact h.closedKeys other keys' hc
    · rw [hsame other heq]
      exact h.closedKeys other keys' hc
  · by_cases heq : other = slot
    · exact ⟨keys, heq ▸ hclosed⟩
    · rw [hsame other heq] at he
      exact h.cached other entry he

/-- OBJECT_CLOSE keeps what was recorded. -/
theorem JsrKept.complete {object : JsrObject} (h : JsrKept repo (object :: objects) closed within)
    (hrun : jsrCompleteCurrentShape repo = some repo') :
    JsrKept repo' objects
      (fun slot keys => closed slot keys ∨ jsrGetCurrentShape repo = some (some slot) ∧ keys = object.keys) within := by
  obtain ⟨hfree, top, hvalues, hcases⟩ := jsrCompleteCurrentShape_cases h.cache hrun
  have hcurrent : jsrGetCurrentShape repo = some top := jsrGetCurrentShape_eq_some.2 ⟨_, hvalues⟩
  have hclosed : ∀ slot keys, closed slot keys ∨ jsrGetCurrentShape repo = some (some slot) ∧ keys = object.keys ↔
      closed slot keys ∨ top = some slot ∧ keys = object.keys := by
    intro slot keys
    rw [hcurrent, Option.some.injEq]
  rcases hcases with ⟨-, hdata, hcontroller, -⟩ | ⟨slot, rfl, hcases⟩
  · exact (h.pop hvalues hfree hdata hcontroller).congr hclosed Iff.rfl
  have hpopped := @JsrKept.pop repo { repo with shapesInProgress := repo'.shapesInProgress } _ _ _ _ _ h hvalues
    rfl rfl rfl
  obtain ⟨⟨_, _, heq, hrecords, -⟩, -⟩ := h.top hvalues
  cases heq
  -- either way one closed slot changes, and keeps its keys
  rcases hcases with ⟨older, entry, entry', -, hentry, hbump, hdata, -⟩ | ⟨entry, hpush, hdata, -⟩
  · obtain ⟨keys, hc⟩ := h.cached older entry hentry
    exact (hpopped.changeClosed (.inl hc) hfree rfl hdata (h.closedKeys older keys hc)
      (hdata ▸ h.cache.bump hentry hbump rfl)).congr hclosed Iff.rfl
  · exact (hpopped.changeClosed (.inr ⟨rfl, rfl⟩) hfree rfl hdata hrecords.keys
      (hdata ▸ h.cache.push hpush rfl)).congr hclosed Iff.rfl

/-- **A token is referred to an older shape only if the keys are the same.** -/
theorem JsrKept.redirects {object : JsrObject} (h : JsrKept repo (object :: objects) closed within)
    (hrun : jsrCompleteCurrentShape repo = some repo') {slot older : Nat}
    (hcurrent : jsrGetCurrentShape repo = some (some slot))
    (holder : (repo'.references object.address).shape = some older) :
    (∃ keys, closed older keys) ∧ ∀ keys, closed older keys → keys = object.keys := by
  obtain ⟨-, top, hvalues, hcases⟩ := jsrCompleteCurrentShape_cases h.cache hrun
  rw [jsrGetCurrentShape_eq_some.2 ⟨_, hvalues⟩] at hcurrent
  cases hcurrent
  obtain ⟨⟨_, _, heq, hrecords, -⟩, -⟩ := h.top hvalues
  cases heq
  rcases hcases with ⟨hnone, -⟩ | ⟨slot', hslot', hcases⟩
  · cases hnone
  cases hslot'
  rcases hcases with ⟨older', entry, entry', hmatch, hentry, -, hdata, hreferences⟩ | ⟨entry, -, -, hreferences⟩
  · have hreference : (repo'.shapes.data slot).sourceObjectShapeReference = some object.address := by
      rw [hdata]
      by_cases heq : slot = older'
      · rw [heq, Function.update_self, ← heq]
        exact hrecords.reference
      · rw [Function.update_of_ne heq]
        exact hrecords.reference
    rw [hreferences, hreference, jsrSetReference_self] at holder
    cases holder
    refine ⟨h.cached older entry hentry, fun keys hc => ?_⟩
    rw [← h.closedKeys older keys hc, (jsrShapeKeys_of_match hmatch).2, hrecords.keys]
  · rw [hreferences, hrecords.reference, jsrSetReference_self] at holder
    cases holder

end

end Scomp
