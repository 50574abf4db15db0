/-
The eviction policy of the queue with maturity, over every sequence of
operations: fresh values leave oldest first, mature ones least recently
bumped first, and pushes never push a mature value out.
-/
import Scomp.DataStructures.LmQueue
import Scomp.DataStructures.FixedArrayListOrder
import Mathlib.Data.Multiset.Filter

namespace Scomp

variable {α : Type}

/-! ## Operations -/

/-- `entry->value = value` -/
def falStore (fal : FixedArrayList α) (entry : Nat) (value : Option α) : FixedArrayList α :=
  { fal with entries := Function.update fal.entries entry { fal.entries entry with value := value } }

/-- The caller stores a value through a handle. -/
def lmQueueStore (q : LmQueue α) (entry : LmEntry) (value : α) : LmQueue α :=
  match entry with
  | .fresh index => { q with freshQueue := falStore q.freshQueue index (some value) }
  | .mature index => { q with matureQueue := { queue := falStore q.matureQueue.queue index (some value) } }

inductive LmOp (α : Type)
  | push
  | store (entry : LmEntry) (value : α)
  | bump (entry : LmEntry)
  | pop
deriving DecidableEq, Repr

inductive LmResult (α : Type)
  | handle (entry : LmEntry)
  | stored
  | popped (value : Option α)
deriving DecidableEq, Repr

/-- What the assertions ask of the caller, and that handles are live. -/
def LmAllowed (q : LmQueue α) : LmOp α → Prop
  | .push => lmQueueIsOverflowing q = false
  | .store entry _ => entry ∈ lmQueueLiveEntries q
  | .bump entry => lmQueueIsOverflowing q = false ∧ entry ∈ lmQueueLiveEntries q
  | .pop => lmQueueIsOverflowing q = true

instance (q : LmQueue α) (op : LmOp α) : Decidable (LmAllowed q op) :=
  match op with
  | .push => inferInstanceAs (Decidable (lmQueueIsOverflowing q = false))
  | .store entry _ => inferInstanceAs (Decidable (entry ∈ lmQueueLiveEntries q))
  | .bump entry => inferInstanceAs (Decidable (lmQueueIsOverflowing q = false ∧ entry ∈ lmQueueLiveEntries q))
  | .pop => inferInstanceAs (Decidable (lmQueueIsOverflowing q = true))

def lmApply (q : LmQueue α) : LmOp α → Option (LmResult α × LmQueue α)
  | .push => do
    let (entry, q) ← lmQueuePush q
    return (.handle entry, q)
  | .store entry value => some (.stored, lmQueueStore q entry value)
  | .bump entry => do
    let (entry, q) ← lmQueueBump q entry
    return (.handle entry, q)
  | .pop => do
    let (value, q) ← lmQueuePop q
    return (.popped value, q)

/-- The operations one after another, each allowed where it is made. -/
def lmRun (q : LmQueue α) : List (LmOp α) → Option (List (LmResult α) × LmQueue α)
  | [] => some ([], q)
  | op :: ops =>
    if LmAllowed q op then do
      let (result, q) ← lmApply q op
      let (results, q) ← lmRun q ops
      return (result :: results, q)
    else none

/-! ## The policy -/

/-- A value in the queue: the handle that has it now, and when it was pushed
and last bumped. -/
structure LmItem (α : Type) where
  entry : LmEntry
  value : Option α
  pushedAt : Nat
  bumpedAt : Option Nat

/-- What a pop takes: the least recently bumped value when `matureSize` of
them were bumped, and else the oldest that never was. -/
def LmVictim (matureSize : Nat) (item : LmItem α) (rest : Multiset (LmItem α)) : Prop :=
  if ((item ::ₘ rest).filter fun item => item.bumpedAt.isSome).card = matureSize then
    ∃ time, item.bumpedAt = some time ∧ ∀ other ∈ rest, ∀ time', other.bumpedAt = some time' → time < time'
  else item.bumpedAt = none ∧ ∀ other ∈ rest, other.bumpedAt = none → item.pushedAt < other.pushedAt

inductive LmStep (matureSize now : Nat) : Multiset (LmItem α) → LmOp α → LmResult α → Multiset (LmItem α) → Prop
  | push (items : Multiset (LmItem α)) (entry : LmEntry) :
      LmStep matureSize now items .push (.handle entry)
        ({ entry := entry, value := none, pushedAt := now, bumpedAt := none } ::ₘ items)
  | store (item : LmItem α) (rest : Multiset (LmItem α)) (value : α) :
      LmStep matureSize now (item ::ₘ rest) (.store item.entry value) .stored
        ({ item with value := some value } ::ₘ rest)
  | bump (item : LmItem α) (rest : Multiset (LmItem α)) (entry : LmEntry) :
      LmStep matureSize now (item ::ₘ rest) (.bump item.entry) (.handle entry)
        ({ item with entry := entry, bumpedAt := some now } ::ₘ rest)
  | pop (item : LmItem α) (rest : Multiset (LmItem α)) (hvictim : LmVictim matureSize item rest) :
      LmStep matureSize now (item ::ₘ rest) .pop (.popped item.value) rest

/-- Steps at the times `now`, `now + 1`, .. -/
inductive LmSteps (matureSize : Nat) :
    Nat → Multiset (LmItem α) → List (LmOp α) → List (LmResult α) → Multiset (LmItem α) → Prop
  | nil (now : Nat) (items : Multiset (LmItem α)) : LmSteps matureSize now items [] [] items
  | cons {now : Nat} {items items' items'' : Multiset (LmItem α)} {op : LmOp α} {result : LmResult α}
      {ops : List (LmOp α)} {results : List (LmResult α)} (step : LmStep matureSize now items op result items')
      (steps : LmSteps matureSize (now + 1) items' ops results items'') :
      LmSteps matureSize now items (op :: ops) (result :: results) items''

/-- Every value has one live entry of its own, a mature one when it was bumped. -/
structure LmHeld (q : LmQueue α) (items : Multiset (LmItem α)) : Prop where
  entries : items.map LmItem.entry = (lmQueueLiveEntries q : Multiset LmEntry)
  nodup : (lmQueueLiveEntries q).Nodup
  value : ∀ item ∈ items, lmQueueValue q item.entry = item.value
  part : ∀ item ∈ items, (∃ index, item.entry = .mature index) ↔ item.bumpedAt.isSome

/-! ## One part and its values -/

def LmEntry.index : LmEntry → Nat
  | .fresh index => index
  | .mature index => index

@[simp] theorem LmEntry.index_fresh (i : Nat) : (LmEntry.fresh i).index = i := rfl

@[simp] theorem LmEntry.index_mature (i : Nat) : (LmEntry.mature i).index = i := rfl

/-- The list holds the items in their order, the tail first. -/
structure PartHolds (part : Nat → LmEntry) (fal : FixedArrayList α) (items : List (LmItem α)) : Prop where
  order : FalHolds fal (items.map fun item => item.entry.index)
  entry : ∀ item ∈ items, item.entry = part item.entry.index
  value : ∀ item ∈ items, (fal.entries item.entry.index).value = item.value

section

variable {part : Nat → LmEntry} {fal : FixedArrayList α} {items l r : List (LmItem α)} {item : LmItem α}

theorem PartHolds.init (part : Nat → LmEntry) (stale : Nat → FalEntry α) (length : Nat) :
    PartHolds part (falInit stale length) [] :=
  ⟨.init stale length, by simp, by simp⟩

theorem PartHolds.hasFreeSpace (h : PartHolds part fal items) :
    falHasFreeSpace fal = decide (items.length < fal.freeSlots.itemCapacity) := by
  rw [h.order.hasFreeSpace, List.length_map]

theorem PartHolds.full (h : PartHolds part fal items) (hfull : falHasFreeSpace fal = false) :
    items.length = fal.freeSlots.itemCapacity := by
  have hcount := h.order.count
  rw [List.length_map] at hcount
  rw [h.hasFreeSpace, decide_eq_false_iff_not] at hfull
  omega

theorem PartHolds.live (h : PartHolds part fal items) :
    ((falLiveEntries fal).map part).Perm (items.map LmItem.entry) := by
  have hmap : (items.map fun item => item.entry.index).map part = items.map LmItem.entry := by
    rw [List.map_map]
    exact List.map_congr_left fun item hitem => (h.entry item hitem).symm
  rw [← hmap]
  exact h.order.live.map part

theorem PartHolds.push (h : PartHolds part fal items) (hpart : ∀ i, (part i).index = i) (value : Option α)
    (pushedAt : Nat) (bumpedAt : Option Nat) (hspace : falHasFreeSpace fal = true) :
    ∃ slot fal', falPushHead fal value = some (slot, fal') ∧
      fal'.freeSlots.itemCapacity = fal.freeSlots.itemCapacity ∧
      PartHolds part fal'
        (items ++ [{ entry := part slot, value := value, pushedAt := pushedAt, bumpedAt := bumpedAt }]) := by
  rw [h.order.hasFreeSpace, decide_eq_true_iff] at hspace
  obtain ⟨slot, fal', hpush, horder, hslot, hcapacity, hvalue⟩ := h.order.pushHead value hspace
  refine ⟨slot, fal', hpush, hcapacity, ?_, fun item hitem => ?_, fun item hitem => ?_⟩
  · simpa [hpart] using horder
  · rcases List.mem_append.1 hitem with hold | hnew
    · exact h.entry item hold
    · rw [List.mem_singleton.1 hnew, hpart]
  · rw [hvalue]
    rcases List.mem_append.1 hitem with hold | hnew
    · have hne : item.entry.index ≠ slot := by
        rintro rfl
        exact hslot (List.mem_map_of_mem hold)
      rw [if_neg hne, h.value item hold]
    · rw [List.mem_singleton.1 hnew, hpart, if_pos rfl]

theorem PartHolds.remove (h : PartHolds part fal (l ++ item :: r)) :
    ∃ fal', falRemoveEntry fal item.entry.index = some fal' ∧ falHasFreeSpace fal' = true ∧
      fal'.freeSlots.itemCapacity = fal.freeSlots.itemCapacity ∧ PartHolds part fal' (l ++ r) := by
  have horder := h.order
  have hcount := h.order.count
  rw [List.map_append, List.map_cons] at horder
  obtain ⟨fal', hremove, horder', hcapacity, hvalue⟩ := horder.removeEntry
  have hmem : ∀ other ∈ l ++ r, other ∈ l ++ item :: r := by
    intro other hother
    simp only [List.mem_append, List.mem_cons] at hother ⊢
    tauto
  refine ⟨fal', hremove, ?_, hcapacity, ?_, fun other hother => h.entry other (hmem other hother),
    fun other hother => ?_⟩
  · simp only [List.length_map, List.length_append, List.length_cons] at hcount
    rw [horder'.hasFreeSpace, decide_eq_true_iff, hcapacity]
    simp only [List.length_map, List.length_append]
    omega
  · rw [List.map_append]
    exact horder'
  · rw [hvalue, h.value other (hmem other hother)]

theorem PartHolds.popTail (h : PartHolds part fal (item :: r)) :
    ∃ fal', falPopTail fal = some (item.value, fal') ∧
      fal'.freeSlots.itemCapacity = fal.freeSlots.itemCapacity ∧ PartHolds part fal' r := by
  have horder := h.order
  rw [List.map_cons] at horder
  obtain ⟨fal', hpop, horder', hcapacity, hvalue⟩ := horder.popTail
  rw [h.value item (by simp)] at hpop
  refine ⟨fal', hpop, hcapacity, horder', fun other hother => h.entry other (by simp [hother]), fun other hother => ?_⟩
  rw [hvalue, h.value other (by simp [hother])]

theorem PartHolds.store (h : PartHolds part fal (l ++ item :: r)) (value : Option α) :
    PartHolds part (falStore fal item.entry.index value) (l ++ { item with value := value } :: r) := by
  have horder := h.order
  have hnodup := horder.nodup
  rw [List.map_append, List.map_cons] at horder hnodup
  obtain ⟨-, hnodupr, hdisjoint⟩ := List.nodup_append.1 hnodup
  have hnotin := (List.nodup_cons.1 hnodupr).1
  have hlinks : ∀ i, (falStore fal item.entry.index value |>.entries i).prev = (fal.entries i).prev ∧
      (falStore fal item.entry.index value |>.entries i).next = (fal.entries i).next := by
    intro i
    by_cases he : i = item.entry.index
    · simp [falStore, he]
    · simp [falStore, he]
  have hother : ∀ other ∈ l ++ r, (falStore fal item.entry.index value |>.entries other.entry.index).value =
      other.value := by
    intro other hother
    have hne : other.entry.index ≠ item.entry.index := by
      rcases List.mem_append.1 hother with hl | hr
      · exact hdisjoint _ (List.mem_map_of_mem hl) _ (by simp)
      · intro he
        exact hnotin (he ▸ List.mem_map_of_mem hr)
    have hmem : other ∈ l ++ item :: r := by
      simp only [List.mem_append, List.mem_cons] at hother ⊢
      tauto
    simp [falStore, hne, h.value other hmem]
  refine ⟨?_, fun other hmem => ?_, fun other hmem => ?_⟩
  · rw [List.map_append, List.map_cons]
    exact ⟨horder.slots, horder.head, horder.tail, horder.linked.congr (fun i _ => (hlinks i).1) fun i _ => (hlinks i).2⟩
  · rcases List.mem_append.1 hmem with hl | hr
    · exact h.entry other (by simp [hl])
    · rcases List.mem_cons.1 hr with rfl | hr
      · exact h.entry item (by simp)
      · exact h.entry other (by simp [hr])
  · rcases List.mem_append.1 hmem with hl | hr
    · exact hother other (by simp [hl])
    · rcases List.mem_cons.1 hr with rfl | hr
      · simp [falStore]
      · exact hother other (by simp [hr])

end

/-! ## The invariant -/

/-- The fresh values in the order of their pushes. -/
structure FreshHolds (now : Nat) (fal : FixedArrayList α) (items : List (LmItem α)) : Prop where
  part : PartHolds .fresh fal items
  notBumped : ∀ item ∈ items, item.bumpedAt = none
  before : ∀ item ∈ items, item.pushedAt < now
  pushes : items.Pairwise fun item other => item.pushedAt < other.pushedAt

/-- The mature values in the order of their last bumps. -/
structure MatureHolds (now : Nat) (fal : FixedArrayList α) (items : List (LmItem α)) : Prop where
  part : PartHolds .mature fal items
  bumped : ∀ item ∈ items, item.bumpedAt.isSome
  before : ∀ item ∈ items, ∀ time, item.bumpedAt = some time → time < now
  bumps : items.Pairwise fun item other =>
    ∀ time time', item.bumpedAt = some time → other.bumpedAt = some time' → time < time'

section

variable {now : Nat} {fal : FixedArrayList α} {items l r : List (LmItem α)} {item : LmItem α}

theorem FreshHolds.later (h : FreshHolds now fal items) : FreshHolds (now + 1) fal items :=
  { h with before := fun item hitem => Nat.lt_succ_of_lt (h.before item hitem) }

theorem MatureHolds.later (h : MatureHolds now fal items) : MatureHolds (now + 1) fal items :=
  { h with before := fun item hitem time htime => Nat.lt_succ_of_lt (h.before item hitem time htime) }

theorem FreshHolds.push (h : FreshHolds now fal items) (hspace : falHasFreeSpace fal = true) :
    ∃ slot fal', falPushHead fal none = some (slot, fal') ∧
      fal'.freeSlots.itemCapacity = fal.freeSlots.itemCapacity ∧
      FreshHolds (now + 1) fal'
        (items ++ [{ entry := .fresh slot, value := none, pushedAt := now, bumpedAt := none }]) := by
  obtain ⟨slot, fal', hpush, hcapacity, hpart⟩ := h.part.push LmEntry.index_fresh none now none hspace
  refine ⟨slot, fal', hpush, hcapacity, hpart, fun item hitem => ?_, fun item hitem => ?_, ?_⟩
  · rcases List.mem_append.1 hitem with hold | hnew
    · exact h.notBumped item hold
    · rw [List.mem_singleton.1 hnew]
  · rcases List.mem_append.1 hitem with hold | hnew
    · exact Nat.lt_succ_of_lt (h.before item hold)
    · rw [List.mem_singleton.1 hnew]
      exact Nat.lt_succ_self now
  · rw [List.pairwise_append]
    refine ⟨h.pushes, List.pairwise_singleton _ _, fun item hold other hnew => ?_⟩
    rw [List.mem_singleton.1 hnew]
    exact h.before item hold

theorem MatureHolds.push (h : MatureHolds now fal items) (value : Option α) (pushedAt : Nat)
    (hspace : falHasFreeSpace fal = true) :
    ∃ slot fal', falPushHead fal value = some (slot, fal') ∧
      fal'.freeSlots.itemCapacity = fal.freeSlots.itemCapacity ∧
      MatureHolds (now + 1) fal'
        (items ++ [{ entry := .mature slot, value := value, pushedAt := pushedAt, bumpedAt := some now }]) := by
  obtain ⟨slot, fal', hpush, hcapacity, hpart⟩ :=
    h.part.push LmEntry.index_mature value pushedAt (some now) hspace
  refine ⟨slot, fal', hpush, hcapacity, hpart, fun item hitem => ?_, fun item hitem time htime => ?_, ?_⟩
  · rcases List.mem_append.1 hitem with hold | hnew
    · exact h.bumped item hold
    · rw [List.mem_singleton.1 hnew]
      rfl
  · rcases List.mem_append.1 hitem with hold | hnew
    · exact Nat.lt_succ_of_lt (h.before item hold time htime)
    · rw [List.mem_singleton.1 hnew] at htime
      cases htime
      exact Nat.lt_succ_self now
  · rw [List.pairwise_append]
    refine ⟨h.bumps, List.pairwise_singleton _ _, fun item hold other hnew time time' htime htime' => ?_⟩
    rw [List.mem_singleton.1 hnew] at htime'
    cases htime'
    exact h.before item hold time htime

theorem FreshHolds.remove (h : FreshHolds now fal (l ++ item :: r)) :
    ∃ fal', falRemoveEntry fal item.entry.index = some fal' ∧
      fal'.freeSlots.itemCapacity = fal.freeSlots.itemCapacity ∧ FreshHolds now fal' (l ++ r) := by
  obtain ⟨fal', hremove, -, hcapacity, hpart⟩ := h.part.remove
  have hsub : (l ++ r).Sublist (l ++ item :: r) := List.Sublist.append_left (List.sublist_cons_self item r) l
  exact ⟨fal', hremove, hcapacity, hpart, fun other hother => h.notBumped other (hsub.subset hother),
    fun other hother => h.before other (hsub.subset hother), h.pushes.sublist hsub⟩

theorem MatureHolds.remove (h : MatureHolds now fal (l ++ item :: r)) :
    ∃ fal', falRemoveEntry fal item.entry.index = some fal' ∧ falHasFreeSpace fal' = true ∧
      fal'.freeSlots.itemCapacity = fal.freeSlots.itemCapacity ∧ MatureHolds now fal' (l ++ r) := by
  obtain ⟨fal', hremove, hspace, hcapacity, hpart⟩ := h.part.remove
  have hsub : (l ++ r).Sublist (l ++ item :: r) := List.Sublist.append_left (List.sublist_cons_self item r) l
  exact ⟨fal', hremove, hspace, hcapacity, hpart, fun other hother => h.bumped other (hsub.subset hother),
    fun other hother => h.before other (hsub.subset hother), h.bumps.sublist hsub⟩

theorem FreshHolds.store (h : FreshHolds now fal (l ++ item :: r)) (value : Option α) :
    FreshHolds now (falStore fal item.entry.index value) (l ++ { item with value := value } :: r) where
  part := h.part.store value
  notBumped := by
    have hold := h.notBumped
    simp only [List.forall_mem_append, List.forall_mem_cons] at hold ⊢
    exact hold
  before := by
    have hold := h.before
    simp only [List.forall_mem_append, List.forall_mem_cons] at hold ⊢
    exact hold
  pushes := by
    have hold := h.pushes
    simp only [List.pairwise_append, List.pairwise_cons, List.forall_mem_cons] at hold ⊢
    exact hold

theorem MatureHolds.store (h : MatureHolds now fal (l ++ item :: r)) (value : Option α) :
    MatureHolds now (falStore fal item.entry.index value) (l ++ { item with value := value } :: r) where
  part := h.part.store value
  bumped := by
    have hold := h.bumped
    simp only [List.forall_mem_append, List.forall_mem_cons] at hold ⊢
    exact hold
  before := by
    have hold := h.before
    simp only [List.forall_mem_append, List.forall_mem_cons] at hold ⊢
    exact hold
  bumps := by
    have hold := h.bumps
    simp only [List.pairwise_append, List.pairwise_cons, List.forall_mem_cons] at hold ⊢
    exact hold

end

structure LmInv (freshSize matureSize now : Nat) (q : LmQueue α) (fresh mature : List (LmItem α)) : Prop where
  freshHolds : FreshHolds now q.freshQueue fresh
  matureHolds : MatureHolds now q.matureQueue.queue mature
  freshCapacity : q.freshQueue.freeSlots.itemCapacity = freshSize
  matureCapacity : q.matureQueue.queue.freeSlots.itemCapacity = matureSize

section

variable {freshSize matureSize now : Nat} {q : LmQueue α} {fresh mature l r : List (LmItem α)} {item : LmItem α}

theorem LmInv.init (freshStale matureStale : Nat → FalEntry α) (freshSize matureSize : Nat) :
    LmInv freshSize matureSize 0 (lmQueueInit freshStale matureStale freshSize matureSize) [] [] where
  freshHolds := ⟨.init _ _ _, by simp, by simp, .nil⟩
  matureHolds := ⟨.init _ _ _, by simp, by simp, .nil⟩
  freshCapacity := rfl
  matureCapacity := rfl

theorem LmInv.live (h : LmInv freshSize matureSize now q fresh mature) :
    (lmQueueLiveEntries q).Perm ((fresh ++ mature).map LmItem.entry) := by
  rw [lmQueueLiveEntries, List.map_append]
  exact h.freshHolds.part.live.append h.matureHolds.part.live

theorem LmInv.held (h : LmInv freshSize matureSize now q fresh mature) : LmHeld q ↑(fresh ++ mature) where
  entries := by
    rw [Multiset.map_coe]
    exact Multiset.coe_eq_coe.2 h.live.symm
  nodup := by
    have hnodup : ∀ fal : FixedArrayList α, (falLiveEntries fal).Nodup := fun fal => List.nodup_range.filter _
    refine List.Nodup.append ((hnodup _).map fun _ _ he => LmEntry.fresh.inj he)
      ((hnodup _).map fun _ _ he => LmEntry.mature.inj he) fun entry hfresh hmature => ?_
    obtain ⟨i, -, rfl⟩ := List.mem_map.1 hfresh
    obtain ⟨j, -, he⟩ := List.mem_map.1 hmature
    cases he
  value := by
    intro item hitem
    rcases List.mem_append.1 (Multiset.mem_coe.1 hitem) with hfresh | hmature
    · rw [h.freshHolds.part.entry item hfresh]
      exact h.freshHolds.part.value item hfresh
    · rw [h.matureHolds.part.entry item hmature]
      exact h.matureHolds.part.value item hmature
  part := by
    intro item hitem
    rcases List.mem_append.1 (Multiset.mem_coe.1 hitem) with hfresh | hmature
    · rw [h.freshHolds.part.entry item hfresh, h.freshHolds.notBumped item hfresh]
      simp
    · rw [h.matureHolds.part.entry item hmature]
      simpa using h.matureHolds.bumped item hmature

/-- A live handle is one of an item, in the part the handle says. -/
theorem LmInv.find (h : LmInv freshSize matureSize now q fresh mature) {entry : LmEntry} (hlive : entry ∈ lmQueueLiveEntries q) :
    (∃ item l r, fresh = l ++ item :: r ∧ entry = item.entry ∧ item.entry = .fresh item.entry.index) ∨
      ∃ item l r, mature = l ++ item :: r ∧ entry = item.entry ∧ item.entry = .mature item.entry.index := by
  obtain ⟨item, hitem, rfl⟩ := List.mem_map.1 (h.live.mem_iff.1 hlive)
  rcases List.mem_append.1 hitem with hfresh | hmature
  · obtain ⟨l, r, hsplit⟩ := List.append_of_mem hfresh
    exact .inl ⟨item, l, r, hsplit, rfl, h.freshHolds.part.entry item hfresh⟩
  · obtain ⟨l, r, hsplit⟩ := List.append_of_mem hmature
    exact .inr ⟨item, l, r, hsplit, rfl, h.matureHolds.part.entry item hmature⟩

/-! ## Steps -/

theorem lmQueueIsOverflowing_eq_false :
    lmQueueIsOverflowing q = false ↔
      falHasFreeSpace q.matureQueue.queue = true ∧ falHasFreeSpace q.freshQueue = true := by
  simp [lmQueueIsOverflowing, lruQueueIsOverflowing]

/-- The operation is done, by a step of the policy. -/
def LmTakes (freshSize matureSize now : Nat) (q : LmQueue α) (op : LmOp α) (items : Multiset (LmItem α)) : Prop :=
  ∃ result q' fresh' mature', lmApply q op = some (result, q') ∧
    LmStep matureSize now items op result ↑(fresh' ++ mature' : List (LmItem α)) ∧
    LmInv freshSize matureSize (now + 1) q' fresh' mature'

theorem LmInv.push (h : LmInv freshSize matureSize now q fresh mature) (hover : lmQueueIsOverflowing q = false) :
    LmTakes freshSize matureSize now q .push ↑(fresh ++ mature) := by
  obtain ⟨-, hspace⟩ := lmQueueIsOverflowing_eq_false.1 hover
  obtain ⟨slot, fal, hpush, hcapacity, hfresh⟩ := h.freshHolds.push hspace
  refine ⟨.handle (.fresh slot), { q with freshQueue := fal }, _, mature, ?_, ?_, hfresh, h.matureHolds.later,
    hcapacity.trans h.freshCapacity, h.matureCapacity⟩
  · simp [lmApply, lmQueuePush, hover, hpush]
  · have hafter := @List.perm_middle _ ({ entry := .fresh slot, value := none, pushedAt := now, bumpedAt := none } :
      LmItem α) fresh mature
    rw [List.append_assoc, List.singleton_append, Multiset.coe_eq_coe.2 hafter]
    exact .push _ _

theorem lmQueueStore_fresh {entry : LmEntry} (h : entry = .fresh entry.index) (value : α) :
    lmQueueStore q entry value = { q with freshQueue := falStore q.freshQueue entry.index (some value) } := by
  rw [h]
  rfl

theorem lmQueueStore_mature {entry : LmEntry} (h : entry = .mature entry.index) (value : α) :
    lmQueueStore q entry value =
      { q with matureQueue := { queue := falStore q.matureQueue.queue entry.index (some value) } } := by
  rw [h]
  rfl

theorem LmInv.store (h : LmInv freshSize matureSize now q fresh mature) {entry : LmEntry} (value : α)
    (hlive : entry ∈ lmQueueLiveEntries q) : LmTakes freshSize matureSize now q (.store entry value) ↑(fresh ++ mature) := by
  rcases h.find hlive with ⟨item, l, r, rfl, rfl, hfresh⟩ | ⟨item, l, r, rfl, rfl, hmature⟩
  · have hstore := h.freshHolds.later.store (some value)
    refine ⟨.stored, { q with freshQueue := falStore q.freshQueue item.entry.index (some value) },
      l ++ { item with value := some value } :: r, mature, by rw [lmApply, lmQueueStore_fresh hfresh], ?_,
      hstore, h.matureHolds.later, h.freshCapacity, h.matureCapacity⟩
    rw [List.append_assoc, List.append_assoc, List.cons_append, List.cons_append,
      Multiset.coe_eq_coe.2 List.perm_middle, Multiset.coe_eq_coe.2 List.perm_middle]
    exact .store item ↑(l ++ (r ++ mature)) value
  · have hstore := h.matureHolds.later.store (some value)
    refine ⟨.stored,
      { q with matureQueue := { queue := falStore q.matureQueue.queue item.entry.index (some value) } },
      fresh, l ++ { item with value := some value } :: r, by rw [lmApply, lmQueueStore_mature hmature], ?_,
      h.freshHolds.later, hstore, h.freshCapacity, h.matureCapacity⟩
    rw [← List.append_assoc, ← List.append_assoc,
      Multiset.coe_eq_coe.2 List.perm_middle, Multiset.coe_eq_coe.2 List.perm_middle]
    exact .store item ↑(fresh ++ l ++ r) value

/-- A fresh value is moved to the mature part. -/
theorem lmQueueBump_fresh {entry : LmEntry} (h : entry = .fresh entry.index) {fal mature : FixedArrayList α} {slot : Nat}
    (hover : lmQueueIsOverflowing q = false) (hremove : falRemoveEntry q.freshQueue entry.index = some fal)
    (hpush : falPushHead q.matureQueue.queue none = some (slot, mature)) :
    lmQueueBump q entry = some (.mature slot,
      { freshQueue := fal
        matureQueue := { queue := falStore mature slot (q.freshQueue.entries entry.index).value } }) := by
  rcases entry with index | index
  · rw [LmEntry.index_fresh] at hremove
    simp [lmQueueBump, hover, hremove, lruQueuePush, hpush, falStore]
  · cases h

/-- A mature value is moved to the head. -/
theorem lmQueueBump_mature {entry : LmEntry} (h : entry = .mature entry.index) {fal mature : FixedArrayList α}
    {slot : Nat} (hover : lmQueueIsOverflowing q = false)
    (hremove : falRemoveEntry q.matureQueue.queue entry.index = some fal)
    (hpush : falPushHead fal (q.matureQueue.queue.entries entry.index).value = some (slot, mature)) :
    lmQueueBump q entry = some (.mature slot, { q with matureQueue := { queue := mature } }) := by
  rcases entry with index | index
  · cases h
  · rw [LmEntry.index_mature] at hremove hpush
    simp [lmQueueBump, hover, hremove, lruQueueBump, hpush]

theorem LmInv.bump (h : LmInv freshSize matureSize now q fresh mature) {entry : LmEntry}
    (hover : lmQueueIsOverflowing q = false) (hlive : entry ∈ lmQueueLiveEntries q) :
    LmTakes freshSize matureSize now q (.bump entry) ↑(fresh ++ mature) := by
  obtain ⟨hspace, -⟩ := lmQueueIsOverflowing_eq_false.1 hover
  rcases h.find hlive with ⟨item, l, r, rfl, rfl, hfresh⟩ | ⟨item, l, r, rfl, rfl, hmature⟩
  · obtain ⟨fal, hremove, hfreshCapacity, hfreshHolds⟩ := h.freshHolds.remove
    obtain ⟨slot, fal', hpush, hcapacity, hmatureHolds⟩ := h.matureHolds.push none item.pushedAt hspace
    have hstore := hmatureHolds.store item.value
    have hbump := lmQueueBump_fresh hfresh hover hremove hpush
    rw [h.freshHolds.part.value item (by simp)] at hbump
    refine ⟨.handle (.mature slot), _, l ++ r,
      mature ++ [{ item with entry := .mature slot, bumpedAt := some now }], by rw [lmApply, hbump]; rfl, ?_,
      hfreshHolds.later, hstore, hfreshCapacity.trans h.freshCapacity, hcapacity.trans h.matureCapacity⟩
    rw [List.append_assoc, List.cons_append, Multiset.coe_eq_coe.2 List.perm_middle, ← List.append_assoc,
      ← List.append_assoc, Multiset.coe_eq_coe.2 List.perm_middle, List.append_nil]
    exact .bump item ↑(l ++ r ++ mature) (.mature slot)
  · obtain ⟨fal, hremove, hspace', hcapacity, hmatureHolds⟩ := h.matureHolds.remove
    obtain ⟨slot, fal', hpush, hcapacity', hmatureHolds⟩ := hmatureHolds.push item.value item.pushedAt hspace'
    rw [← h.matureHolds.part.value item (by simp)] at hpush
    have hbump := lmQueueBump_mature hmature hover hremove hpush
    refine ⟨.handle (.mature slot), { q with matureQueue := { queue := fal' } }, fresh,
      l ++ r ++ [{ item with entry := .mature slot, bumpedAt := some now }], by rw [lmApply, hbump]; rfl, ?_,
      h.freshHolds.later, hmatureHolds, h.freshCapacity, (hcapacity'.trans hcapacity).trans h.matureCapacity⟩
    rw [← List.append_assoc, Multiset.coe_eq_coe.2 List.perm_middle, ← List.append_assoc,
      Multiset.coe_eq_coe.2 List.perm_middle, List.append_nil, List.append_assoc]
    exact .bump item ↑(fresh ++ (l ++ r)) (.mature slot)

theorem LmInv.bumpedCount (h : LmInv freshSize matureSize now q fresh mature) :
    ((↑(fresh ++ mature) : Multiset (LmItem α)).filter fun item => item.bumpedAt.isSome).card = mature.length := by
  have hfresh : fresh.filter (fun item => item.bumpedAt.isSome) = [] := by
    rw [List.filter_eq_nil_iff]
    intro item hitem
    simp [h.freshHolds.notBumped item hitem]
  have hmature : mature.filter (fun item => item.bumpedAt.isSome) = mature :=
    List.filter_eq_self.2 h.matureHolds.bumped
  rw [Multiset.filter_coe, Multiset.coe_card, List.filter_append]
  simp [hfresh, hmature]

theorem LmInv.pop (h : LmInv freshSize matureSize now q fresh mature) (hover : lmQueueIsOverflowing q = true)
    (hfreshItems : falHasFreeSpace q.matureQueue.queue = true → fresh ≠ [])
    (hmatureItems : falHasFreeSpace q.matureQueue.queue = false → mature ≠ []) :
    LmTakes freshSize matureSize now q .pop ↑(fresh ++ mature) := by
  have hcount := h.bumpedCount
  by_cases hmature : falHasFreeSpace q.matureQueue.queue = true
  · obtain ⟨item, rest, rfl⟩ := List.exists_cons_of_ne_nil (hfreshItems hmature)
    obtain ⟨fal, hpop, hcapacity, hpart⟩ := h.freshHolds.part.popTail
    have hlength := hmature
    rw [h.matureHolds.part.hasFreeSpace, decide_eq_true_iff, h.matureCapacity] at hlength
    refine ⟨.popped item.value, { q with freshQueue := fal }, rest, mature, ?_, .pop item ↑(rest ++ mature) ?_,
      FreshHolds.later ⟨hpart, fun other hother => h.freshHolds.notBumped other (by simp [hother]),
        fun other hother => h.freshHolds.before other (by simp [hother]), h.freshHolds.pushes.of_cons⟩,
      h.matureHolds.later, hcapacity.trans h.freshCapacity, h.matureCapacity⟩
    · simp [lmApply, lmQueuePop, hover, lruQueueIsOverflowing, hmature, hpop]
    · rw [LmVictim, Multiset.cons_coe, ← List.cons_append, hcount, if_neg (by omega)]
      refine ⟨h.freshHolds.notBumped item (by simp), fun other hother hnever => ?_⟩
      rcases List.mem_append.1 (Multiset.mem_coe.1 hother) with hold | hold
      · exact (List.pairwise_cons.1 h.freshHolds.pushes).1 other hold
      · have hbumped := h.matureHolds.bumped other hold
        simp [hnever] at hbumped
  · rw [Bool.not_eq_true] at hmature
    have hlength := h.matureHolds.part.full hmature
    rw [h.matureCapacity] at hlength
    obtain ⟨item, rest, rfl⟩ := List.exists_cons_of_ne_nil (hmatureItems hmature)
    obtain ⟨fal, hpop, hcapacity, hpart⟩ := h.matureHolds.part.popTail
    refine ⟨.popped item.value, { q with matureQueue := { queue := fal } }, fresh, rest, ?_, ?_, h.freshHolds.later,
      MatureHolds.later ⟨hpart, fun other hother => h.matureHolds.bumped other (by simp [hother]),
        fun other hother => h.matureHolds.before other (by simp [hother]), h.matureHolds.bumps.of_cons⟩,
      h.freshCapacity, hcapacity.trans h.matureCapacity⟩
    · simp [lmApply, lmQueuePop, hover, lruQueueIsOverflowing, hmature, lruQueuePop, hpop]
    · rw [Multiset.coe_eq_coe.2 List.perm_middle] at hcount ⊢
      refine .pop item ↑(fresh ++ rest) ?_
      rw [LmVictim, Multiset.cons_coe, hcount, if_pos hlength]
      obtain ⟨time, htime⟩ := Option.isSome_iff_exists.1 (h.matureHolds.bumped item (by simp))
      refine ⟨time, htime, fun other hother time' htime' => ?_⟩
      rcases List.mem_append.1 (Multiset.mem_coe.1 hother) with hold | hold
      · rw [h.freshHolds.notBumped other hold] at htime'
        cases htime'
      · exact (List.pairwise_cons.1 h.matureHolds.bumps).1 other hold time time' htime htime'

/-- Parts of positive size are not empty when a pop takes from them. -/
theorem LmInv.pop_of_size (h : LmInv freshSize matureSize now q fresh mature) (hover : lmQueueIsOverflowing q = true)
    (hfreshSize : 0 < freshSize) (hmatureSize : 0 < matureSize) :
    LmTakes freshSize matureSize now q .pop ↑(fresh ++ mature) := by
  refine h.pop hover (fun hspace => ?_) fun hfull => ?_
  · have hfull : falHasFreeSpace q.freshQueue = false := by
      simpa [lmQueueIsOverflowing, lruQueueIsOverflowing, hspace] using hover
    have hlength := h.freshHolds.part.full hfull
    rw [h.freshCapacity] at hlength
    exact List.ne_nil_of_length_pos (by omega)
  · have hlength := h.matureHolds.part.full hfull
    rw [h.matureCapacity] at hlength
    exact List.ne_nil_of_length_pos (by omega)

theorem PartHolds.ne_nil {part : Nat → LmEntry} {fal fal' : FixedArrayList α} {items : List (LmItem α)}
    {value : Option α} (h : PartHolds part fal items) (hpop : falPopTail fal = some (value, fal')) : items ≠ [] := by
  rintro rfl
  rw [falPopTail, h.order.isEmpty] at hpop
  simp at hpop

/-- A pop that does not fail an assertion takes from a part that is not empty. -/
theorem LmInv.pop_of_isSome (h : LmInv freshSize matureSize now q fresh mature)
    (hover : lmQueueIsOverflowing q = true) (hsome : (lmApply q .pop).isSome = true) :
    LmTakes freshSize matureSize now q .pop ↑(fresh ++ mature) := by
  refine h.pop hover (fun hspace => ?_) fun hfull => ?_
  · rcases hpop : falPopTail q.freshQueue with _ | ⟨value, fal⟩
    · simp [lmApply, lmQueuePop, hover, lruQueueIsOverflowing, hspace, hpop] at hsome
    · exact h.freshHolds.part.ne_nil hpop
  · rcases hpop : falPopTail q.matureQueue.queue with _ | ⟨value, fal⟩
    · simp [lmApply, lmQueuePop, hover, lruQueueIsOverflowing, hfull, lruQueuePop, hpop] at hsome
    · exact h.matureHolds.part.ne_nil hpop

/-- An allowed operation fails no assertion. -/
theorem LmInv.isSome (h : LmInv freshSize matureSize now q fresh mature) {op : LmOp α} (hallowed : LmAllowed q op)
    (hfreshSize : 0 < freshSize) (hmatureSize : 0 < matureSize) : (lmApply q op).isSome = true := by
  have htakes : LmTakes freshSize matureSize now q op ↑(fresh ++ mature) := by
    cases op with
    | push => exact h.push hallowed
    | store entry value => exact h.store value hallowed
    | bump entry => exact h.bump hallowed.1 hallowed.2
    | pop => exact h.pop_of_size hallowed hfreshSize hmatureSize
  obtain ⟨result, q', -, -, happly, -⟩ := htakes
  rw [happly]
  rfl

/-- One allowed operation is one step of the policy. -/
theorem LmInv.step (h : LmInv freshSize matureSize now q fresh mature) {op : LmOp α} {result : LmResult α}
    {q' : LmQueue α} (hallowed : LmAllowed q op) (happly : lmApply q op = some (result, q')) :
    ∃ fresh' mature', LmStep matureSize now ↑(fresh ++ mature) op result ↑(fresh' ++ mature' : List (LmItem α)) ∧
      LmInv freshSize matureSize (now + 1) q' fresh' mature' := by
  have htakes : LmTakes freshSize matureSize now q op ↑(fresh ++ mature) := by
    cases op with
    | push => exact h.push hallowed
    | store entry value => exact h.store value hallowed
    | bump entry => exact h.bump hallowed.1 hallowed.2
    | pop => exact h.pop_of_isSome hallowed (by rw [happly]; rfl)
  obtain ⟨result', q'', fresh', mature', happly', hstep, h'⟩ := htakes
  rw [happly] at happly'
  cases happly'
  exact ⟨fresh', mature', hstep, h'⟩

end

theorem lmRun_cons {q q' : LmQueue α} {op : LmOp α} {ops : List (LmOp α)} {results : List (LmResult α)}
    (hrun : lmRun q (op :: ops) = some (results, q')) :
    ∃ result q₁ rest, LmAllowed q op ∧ lmApply q op = some (result, q₁) ∧ lmRun q₁ ops = some (rest, q') ∧
      results = result :: rest := by
  rw [lmRun] at hrun
  by_cases hallowed : LmAllowed q op
  · rw [if_pos hallowed] at hrun
    rcases happly : lmApply q op with _ | ⟨result, q₁⟩
    · simp [happly] at hrun
    rcases hrest : lmRun q₁ ops with _ | ⟨rest, q₂⟩
    · simp [happly, hrest] at hrun
    obtain ⟨rfl, rfl⟩ : result :: rest = results ∧ q₂ = q' := by simpa [happly, hrest] using hrun
    exact ⟨result, q₁, rest, hallowed, rfl, hrest, rfl⟩
  · rw [if_neg hallowed] at hrun
    cases hrun

theorem LmInv.run {freshSize matureSize now : Nat} {q q' : LmQueue α} {fresh mature : List (LmItem α)}
    {ops : List (LmOp α)} {results : List (LmResult α)} (h : LmInv freshSize matureSize now q fresh mature)
    (hrun : lmRun q ops = some (results, q')) :
    ∃ fresh' mature', LmSteps matureSize now ↑(fresh ++ mature) ops results ↑(fresh' ++ mature' : List (LmItem α)) ∧
      LmInv freshSize matureSize (now + ops.length) q' fresh' mature' := by
  induction ops generalizing q now fresh mature results with
  | nil =>
    obtain ⟨rfl, rfl⟩ : [] = results ∧ q = q' := by simpa [lmRun] using hrun
    exact ⟨fresh, mature, .nil now _, h⟩
  | cons op ops ih =>
    obtain ⟨result, q₁, rest, hallowed, happly, hrest, rfl⟩ := lmRun_cons hrun
    obtain ⟨fresh₁, mature₁, hstep, h₁⟩ := h.step hallowed happly
    obtain ⟨fresh', mature', hsteps, h'⟩ := ih h₁ hrest
    rw [Nat.add_right_comm, Nat.add_assoc] at h'
    exact ⟨fresh', mature', .cons hstep hsteps, h'⟩

/-! ## Pushes with their pops -/

/-- Pushes, stores to the values pushed and pops. -/
def LmOp.isFresh : LmOp α → Prop
  | .push => True
  | .store (.fresh _) _ => True
  | .store (.mature _) _ => False
  | .bump _ => False
  | .pop => True

/-- While the mature part is not full only bumps reach it. -/
theorem lmApply_mature {q q' : LmQueue α} {op : LmOp α} {result : LmResult α}
    (hfull : lruQueueIsOverflowing q.matureQueue = false) (hop : op.isFresh) (happly : lmApply q op = some (result, q')) :
    q'.matureQueue = q.matureQueue := by
  cases op with
  | push =>
    rcases hpush : falPushHead q.freshQueue none with _ | ⟨slot, fal⟩
    · simp [lmApply, lmQueuePush, hpush] at happly
    · by_cases hover : lmQueueIsOverflowing q = true
      · simp [lmApply, lmQueuePush, hover] at happly
      · simp [lmApply, lmQueuePush, hover, hpush] at happly
        rw [← happly.2]
  | store entry value =>
    rcases entry with index | index
    · obtain ⟨-, rfl⟩ : LmResult.stored = result ∧ lmQueueStore q (.fresh index) value = q' := by
        simpa [lmApply] using happly
      rfl
    · exact hop.elim
  | bump entry => exact hop.elim
  | pop =>
    rcases hpop : falPopTail q.freshQueue with _ | ⟨value, fal⟩
    · simp [lmApply, lmQueuePop, hfull, hpop] at happly
    · by_cases hover : lmQueueIsOverflowing q = true
      · simp [lmApply, lmQueuePop, hover, hfull, hpop] at happly
        rw [← happly.2]
      · simp [lmApply, lmQueuePop, hover] at happly

theorem lmRun_mature {q q' : LmQueue α} {ops : List (LmOp α)} {results : List (LmResult α)}
    (hfull : lruQueueIsOverflowing q.matureQueue = false) (hops : ∀ op ∈ ops, op.isFresh)
    (hrun : lmRun q ops = some (results, q')) : q'.matureQueue = q.matureQueue := by
  induction ops generalizing q results with
  | nil =>
    obtain ⟨-, rfl⟩ : [] = results ∧ q = q' := by simpa [lmRun] using hrun
    rfl
  | cons op ops ih =>
    obtain ⟨result, q₁, rest, -, happly, hrest, -⟩ := lmRun_cons hrun
    have hsame := lmApply_mature hfull (hops op (by simp)) happly
    rw [← hsame]
    exact ih (by rw [hsame]; exact hfull) (fun op hop => hops op (by simp [hop])) hrest

/-- **The queue evicts by its policy.** Every run of allowed operations is a
run of the policy, which says what each pop takes; each value is held by one
live entry, a mature one exactly when it was bumped; an allowed operation
fails no assertion; and as long as the mature part is not full no pushes and
pops change it. -/
theorem lmQueue_evictsByPolicy (freshStale matureStale : Nat → FalEntry α) (freshSize matureSize : Nat)
    {ops : List (LmOp α)} {results : List (LmResult α)} {q : LmQueue α}
    (hrun : lmRun (lmQueueInit freshStale matureStale freshSize matureSize) ops = some (results, q)) :
    (∃ items, LmSteps matureSize 0 0 ops results items ∧ LmHeld q items) ∧
      (0 < freshSize → 0 < matureSize → ∀ op, LmAllowed q op → (lmApply q op).isSome = true) ∧
      ∀ ops' results' q', lruQueueIsOverflowing q.matureQueue = false → (∀ op ∈ ops', op.isFresh) →
        lmRun q ops' = some (results', q') → q'.matureQueue = q.matureQueue := by
  obtain ⟨fresh, mature, hsteps, h⟩ := (LmInv.init freshStale matureStale freshSize matureSize).run hrun
  refine ⟨⟨_, hsteps, h.held⟩, fun hfreshSize hmatureSize op hallowed => ?_, fun ops' results' q' hfull hops hrun' => ?_⟩
  · exact h.isSome hallowed hfreshSize hmatureSize
  · exact lmRun_mature hfull hops hrun'

/-- The oldest fresh values `"aaa"` and `"ccc"` leave while the mature part
has space, and `"bbb"` when a second bump fills it. -/
theorem lmQueue_evictsByPolicy_simple : ∃ q items,
    lmRun (lmQueueInit (fun _ => ⟨none, none, none⟩) (fun _ => ⟨none, none, none⟩) 2 2)
        [.push, .store (.fresh 0) "aaa", .push, .store (.fresh 1) "bbb", .pop, .bump (.fresh 1), .bump (.mature 0),
          .push, .store (.fresh 1) "ccc", .push, .store (.fresh 0) "ddd", .pop, .bump (.fresh 0), .pop] =
      some ([.handle (.fresh 0), .stored, .handle (.fresh 1), .stored, .popped (some "aaa"), .handle (.mature 0),
        .handle (.mature 0), .handle (.fresh 1), .stored, .handle (.fresh 0), .stored, .popped (some "ccc"),
        .handle (.mature 1), .popped (some "bbb")], q) ∧ LmHeld q items :=
  have hrun := rfl
  have ⟨⟨items, _, hheld⟩, _⟩ := lmQueue_evictsByPolicy _ _ 2 2 hrun
  ⟨_, items, hrun, hheld⟩

end Scomp
