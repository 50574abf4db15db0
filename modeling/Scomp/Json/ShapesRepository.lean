/-
The repository of object shapes (`json_shapes_repository.c`). A shape is its
slot in the pool, NULL is `none`.

A shape points back to the `shape_reference` of its object's opening token.
Tokens live with the caller; what their `shape_reference`s hold is kept here
by address, so that the repository's writes through these pointers show.
-/
import Scomp.Json.Base
import Scomp.DataStructures.FixedPool
import Scomp.DataStructures.HashChain
import Scomp.DataStructures.LmQueue

namespace Scomp

def JSON_SHAPE_SUM_KEY_LENGTH : Nat := 1024
def JSON_SHAPES_FRESH_QUEUE_SIZE : Nat := 256
def JSON_SHAPES_MATURE_QUEUE_SIZE : Nat := 256
def JSON_SHAPES_TOTAL_POOL_SIZE : Nat :=
  JSON_MAX_STATE_STACK_LENGTH + JSON_SHAPES_FRESH_QUEUE_SIZE + JSON_SHAPES_MATURE_QUEUE_SIZE
def JSR_HYPOTHESIS_DEPTH : Nat := 10

structure JsonTokenShapeReference where
  shape : Option Nat
  shapeId : UInt64
deriving DecidableEq, Repr

/-- `sourceObjectShapeReference` is the address of a token. -/
structure JsonObjectShape where
  keys : Nat → Byte
  sourceObjectShapeReference : Option Nat
  id : UInt32
  keysHash : UInt16
  keysLength : Nat
  cacheEntry : Option LmEntry

/-- Zeroed memory. -/
def JsonObjectShape.zero : JsonObjectShape :=
  { keys := fun _ => 0, sourceObjectShapeReference := none, id := 0, keysHash := 0, keysLength := 0,
    cacheEntry := none }

structure JsonShapesRepository where
  shapes : FixedPool JsonObjectShape
  keyHashes : HashChain
  cacheController : LmQueue Nat
  shapesInProgress : FixedStack (Option Nat)
  idCounter : UInt64
  references : Nat → JsonTokenShapeReference

/-- The stale memory of the two arrays of the cache controller, and the
tokens' memory, are whatever they are. -/
def jsrInit (freshStale matureStale : Nat → FalEntry Nat) (references : Nat → JsonTokenShapeReference) :
    JsonShapesRepository :=
  { shapes := fpoolInit .zero JSON_SHAPES_TOTAL_POOL_SIZE
    keyHashes := hashChainInit
    cacheController :=
      lmQueueInit freshStale matureStale JSON_SHAPES_FRESH_QUEUE_SIZE JSON_SHAPES_MATURE_QUEUE_SIZE
    shapesInProgress := { values := [], itemCapacity := JSON_MAX_STATE_STACK_LENGTH }
    idCounter := 0
    references := references }

/-- `*reference = shape`, and nothing for a NULL reference. -/
def jsrSetReference (references : Nat → JsonTokenShapeReference) (reference shape : Option Nat) :
    Nat → JsonTokenShapeReference :=
  match reference with
  | some address => Function.update references address { references address with shape := shape }
  | none => references

/-- `keys` and `keys_length` are not written. -/
def jsrSetupShape (repo : JsonShapesRepository) (slot address : Nat) : JsonShapesRepository :=
  let id := repo.idCounter.toUInt32
  let reference := repo.references address
  { repo with
    shapes := repo.shapes.set slot
      { repo.shapes.data slot with
        keysHash := 0, cacheEntry := none, id := id, sourceObjectShapeReference := some address }
    references := Function.update repo.references address { reference with shapeId := id.toUInt64 }
    -- `id_counter = .. : id_counter++`: the assignment stores the value read before the increment
    idCounter := if repo.idCounter = 0xffffffffffffffff then 0 else repo.idCounter }

def jsrUpdateHash (baseHash b : UInt16) (index : Nat) : UInt16 :=
  match index % 4 with
  | 0 => baseHash ^^^ b
  | 1 => baseHash ^^^ (b <<< 8)
  | 2 => baseHash ^^^ (b <<< 4)
  | _ => baseHash ^^^ ((b &&& 0x0f) <<< 12) ^^^ (b >>> 4)

/-- `none`: underflow on `peek()`; `some none`: a NULL shape. -/
def jsrGetCurrentShape (repo : JsonShapesRepository) : Option (Option Nat) := fstackPeek repo.shapesInProgress

/-- What one turn of the loop takes for a match. -/
def jsrIsMatch (older newer : JsonObjectShape) : Bool :=
  older.cacheEntry.isSome && older.keysLength = newer.keysLength && older.keysHash = newer.keysHash &&
    (List.range older.keysLength).all fun i => older.keys i = newer.keys i

/-- The loop with `turns` turns left. -/
def jsrFindMatchingShapeFrom (repo : JsonShapesRepository) (newShape : JsonObjectShape) :
    Nat → Nat → Option (Option Nat)
  | 0, _ => some none
  | turns + 1, pos => do
    let matchShape ← fpoolOffsetToValue repo.shapes pos
    let pos := hashChainGetPreviousPositionByPosition repo.keyHashes pos
    if jsrIsMatch (repo.shapes.data matchShape) newShape then return some matchShape
    else jsrFindMatchingShapeFrom repo newShape turns pos

def jsrFindMatchingShape (repo : JsonShapesRepository) (newShape : JsonObjectShape) : Option (Option Nat) :=
  jsrFindMatchingShapeFrom repo newShape JSR_HYPOTHESIS_DEPTH
    (hashChainGetFirstPositionByHash repo.keyHashes newShape.keysHash)

def jsrPushKeyByte (repo : JsonShapesRepository) (b : Byte) : Option JsonShapesRepository := do
  match ← jsrGetCurrentShape repo with
  | none => return repo
  | some slot =>
    let shape := repo.shapes.data slot
    if shape.keysLength ≥ JSON_SHAPE_SUM_KEY_LENGTH then
      return { repo with
        references := jsrSetReference repo.references shape.sourceObjectShapeReference none
        shapesInProgress := ← fstackSetTop repo.shapesInProgress none
        shapes := ← fpoolRelease (repo.shapes.set slot { shape with sourceObjectShapeReference := none }) slot }
    else
      return { repo with
        shapes := repo.shapes.set slot
          { shape with
            keysHash := jsrUpdateHash shape.keysHash b.toUInt16 shape.keysLength
            keys := Function.update shape.keys shape.keysLength b
            keysLength := shape.keysLength + 1 } }

/-- `none` also when the evicted value is NULL, which the source follows. -/
def jsrDrainCacheOverflow (repo : JsonShapesRepository) : Option JsonShapesRepository :=
  if lmQueueIsOverflowing repo.cacheController then do
    let (value, cacheController) ← lmQueuePop repo.cacheController
    let removedShape ← value
    let shape := repo.shapes.data removedShape
    return { repo with
      cacheController := cacheController
      references := jsrSetReference repo.references shape.sourceObjectShapeReference none
      shapes := ← fpoolRelease
        (repo.shapes.set removedShape { shape with cacheEntry := none, sourceObjectShapeReference := none })
        removedShape }
  else return repo

def jsrCompleteCurrentShape (repo : JsonShapesRepository) : Option JsonShapesRepository := do
  let (top, shapesInProgress) ← fstackPop repo.shapesInProgress
  let repo := { repo with shapesInProgress := shapesInProgress }
  match top with
  | none => return repo
  | some slot =>
    match ← jsrFindMatchingShape repo (repo.shapes.data slot) with
    | some olderSlot =>
      let olderShape := repo.shapes.data olderSlot
      let (entry, cacheController) ← lmQueueBump repo.cacheController (← olderShape.cacheEntry)
      let repo := { repo with
        shapes := repo.shapes.set olderSlot { olderShape with cacheEntry := some entry }
        cacheController := cacheController }
      let repo ← jsrDrainCacheOverflow repo
      let reference := (repo.shapes.data slot).sourceObjectShapeReference
      return { repo with references := jsrSetReference repo.references reference (some olderSlot) }
    | none =>
      -- the first shape of its kind must not be referenced, the decoder does not know it
      let shape := { repo.shapes.data slot with sourceObjectShapeReference := none }
      let references :=
        jsrSetReference repo.references (repo.shapes.data slot).sourceObjectShapeReference none
      let keyHashes := hashChainPush repo.keyHashes shape.keysHash (← fpoolGetOffset repo.shapes slot)
      let (entry, cacheController) ← lmQueuePush repo.cacheController
      jsrDrainCacheOverflow { repo with
        shapes := repo.shapes.set slot { shape with cacheEntry := some entry }
        references := references
        keyHashes := keyHashes
        cacheController := cacheController }

/-- `address` is where the token is, `state` the state the caller passes. -/
def jsrProcessToken (repo : JsonShapesRepository) (token : JsonToken) (address : Nat) (state : JsonState) :
    Option JsonShapesRepository :=
  if state = .objectKey ∧ token.kind = .stringDelimiter then
    -- no string holds a byte below 0x20 as it is, so 1 separates keys
    jsrPushKeyByte repo 1
  else if token.kind = .objectOpen then do
    let (slot, shapes) ← fpoolAcquire repo.shapes
    let shapesInProgress ← fstackPush repo.shapesInProgress (some slot)
    return jsrSetupShape { repo with shapes := shapes, shapesInProgress := shapesInProgress } slot address
  else if token.kind = .objectClose then
    jsrCompleteCurrentShape repo
  else
    return repo

end Scomp
