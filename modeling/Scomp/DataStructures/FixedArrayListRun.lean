/-
The double-linked list over any sequence of operations that its assertions
allow.

What is live is told by the operations alone: a push adds its entry and value
behind all others, a removal takes out the entry wherever it is, a pop the
oldest one. The links and the stack of free slots are compared with that list.
-/
import Scomp.DataStructures.FixedArrayListOrder

namespace Scomp

variable {α : Type}

/-! ## Operations -/

inductive FalOp (α : Type)
  | pushHead (value : Option α)
  | removeEntry (entry : Nat)
  | popTail
  | reset
deriving DecidableEq, Repr

inductive FalResult (α : Type)
  | pushed (entry : Nat)
  | popped (value : Option α)
  | done
deriving DecidableEq, Repr

/-- A live entry and the value it was pushed with. -/
structure FalItem (α : Type) where
  entry : Nat
  value : Option α
deriving DecidableEq, Repr

def falApply (fal : FixedArrayList α) : FalOp α → Option (FalResult α × FixedArrayList α)
  | .pushHead value => do
    let (entry, fal) ← falPushHead fal value
    return (.pushed entry, fal)
  | .removeEntry entry => do
    let fal ← falRemoveEntry fal entry
    return (.done, fal)
  | .popTail => do
    let (value, fal) ← falPopTail fal
    return (.popped value, fal)
  | .reset => some (.done, falReset fal)

/-- What the assertions ask of the caller, and that a removed entry is
live. -/
def FalAllowed (fal : FixedArrayList α) (items : List (FalItem α)) : FalOp α → Prop
  | .pushHead _ => falHasFreeSpace fal = true
  | .removeEntry entry => entry ∈ items.map FalItem.entry
  | .popTail => falIsEmpty fal = false
  | .reset => True

instance (fal : FixedArrayList α) (items : List (FalItem α)) (op : FalOp α) : Decidable (FalAllowed fal items op) :=
  match op with
  | .pushHead _ => inferInstanceAs (Decidable (falHasFreeSpace fal = true))
  | .removeEntry entry => inferInstanceAs (Decidable (entry ∈ items.map FalItem.entry))
  | .popTail => inferInstanceAs (Decidable (falIsEmpty fal = false))
  | .reset => inferInstanceAs (Decidable True)

/-- What is live after an operation, the oldest first. -/
def falItemsAfter (items : List (FalItem α)) : FalOp α → FalResult α → List (FalItem α)
  | .pushHead value, .pushed entry => items ++ [{ entry := entry, value := value }]
  | .removeEntry entry, _ => items.filter fun item => item.entry ≠ entry
  | .popTail, _ => items.tail
  | .reset, _ => []
  | _, _ => items

/-- The operations one after another, each allowed where it is made, and what
is live next to them. -/
def falRun : List (FalOp α) → FixedArrayList α → List (FalItem α) → Option (FixedArrayList α × List (FalItem α))
  | [], fal, items => some (fal, items)
  | op :: ops, fal, items =>
    if FalAllowed fal items op then do
      let (result, fal) ← falApply fal op
      falRun ops fal (falItemsAfter items op result)
    else none

/-! ## What a client relies on -/

/-- The list and what is live: the same entries in the same order along both
links, with their values, and every slot either live or free. -/
structure FalInOrder (capacity : Nat) (fal : FixedArrayList α) (items : List (FalItem α)) : Prop where
  forward : ∀ steps, DoublyLinked.follow (fun entry => (fal.entries entry).next) steps fal.tail =
    (items.map FalItem.entry)[steps]?
  endsAtHead : fal.head = (items.map FalItem.entry).getLast?
  backward : ∀ steps, DoublyLinked.follow (fun entry => (fal.entries entry).prev) steps fal.head =
    (items.map FalItem.entry).reverse[steps]?
  endsAtTail : fal.tail = (items.map FalItem.entry).head?
  value : ∀ item ∈ items, (fal.entries item.entry).value = item.value
  slots : ∀ slot < capacity, Xor (slot ∈ items.map FalItem.entry) (slot ∈ fal.freeSlots.values)
  own : ∀ slot, slot ∈ items.map FalItem.entry ∨ slot ∈ fal.freeSlots.values → slot < capacity
  once : (items.map FalItem.entry).Nodup ∧ fal.freeSlots.values.Nodup
  isEmpty : falIsEmpty fal = true ↔ items = []
  hasFreeSpace : falHasFreeSpace fal = true ↔ items.length < capacity

/-! ## The invariant -/

/-- The links hold the live entries in their order, and their values. -/
structure FalRepresents (capacity : Nat) (fal : FixedArrayList α) (items : List (FalItem α)) : Prop where
  order : FalHolds fal (items.map FalItem.entry)
  capacity : fal.freeSlots.itemCapacity = capacity
  value : ∀ item ∈ items, (fal.entries item.entry).value = item.value

section

variable {capacity : Nat} {fal : FixedArrayList α} {items l r : List (FalItem α)} {item : FalItem α}

theorem FalRepresents.init (stale : Nat → FalEntry α) (capacity : Nat) :
    FalRepresents capacity (falInit stale capacity) [] :=
  ⟨.init stale capacity, rfl, by simp⟩

theorem FalRepresents.hasFreeSpace (h : FalRepresents capacity fal items) :
    falHasFreeSpace fal = true ↔ items.length < capacity := by
  rw [h.order.hasFreeSpace, decide_eq_true_iff, List.length_map, h.capacity]

theorem FalRepresents.isEmpty (h : FalRepresents capacity fal items) : falIsEmpty fal = true ↔ items = [] := by
  rw [h.order.isEmpty, decide_eq_true_iff, List.map_eq_nil_iff]

theorem FalRepresents.slots (h : FalRepresents capacity fal items) {slot : Nat} :
    slot < capacity ↔ slot ∈ items.map FalItem.entry ∨ slot ∈ fal.freeSlots.values := by
  rw [← List.mem_append, h.order.slots.mem_iff, List.mem_range, h.capacity]

theorem FalRepresents.inOrder (h : FalRepresents capacity fal items) : FalInOrder capacity fal items where
  forward steps := by
    rw [h.order.tail]
    exact h.order.linked.follow_next steps
  endsAtHead := h.order.head
  backward steps := by
    rw [h.order.head]
    exact h.order.linked.follow_prev steps
  endsAtTail := h.order.tail
  value := h.value
  slots slot hs := by
    rcases h.slots.mp hs with hlive | hfree
    · exact .inl ⟨hlive, h.order.not_free hlive⟩
    · exact .inr ⟨hfree, fun hlive => h.order.not_free hlive hfree⟩
  own slot hs := h.slots.mpr hs
  once := ⟨h.order.nodup, h.order.nodup_slots.of_append_right⟩
  isEmpty := h.isEmpty
  hasFreeSpace := h.hasFreeSpace

/-! ## One operation -/

theorem FalRepresents.pushHead (h : FalRepresents capacity fal items) (value : Option α)
    (hspace : falHasFreeSpace fal = true) :
    ∃ entry fal', falPushHead fal value = some (entry, fal') ∧
      FalRepresents capacity fal' (items ++ [{ entry := entry, value := value }]) := by
  rw [h.order.hasFreeSpace, decide_eq_true_iff] at hspace
  obtain ⟨entry, fal', hpush, horder, hnew, hcapacity, hvalue⟩ := h.order.pushHead value hspace
  refine ⟨entry, fal', hpush, by rw [List.map_append]; exact horder, hcapacity.trans h.capacity, fun item hitem => ?_⟩
  rw [hvalue]
  rcases List.mem_append.1 hitem with hold | hlast
  · have hne : item.entry ≠ entry := fun he => hnew (he ▸ List.mem_map_of_mem hold)
    rw [if_neg hne, h.value item hold]
  · rw [List.mem_singleton.1 hlast, if_pos rfl]

theorem FalRepresents.removeItem (h : FalRepresents capacity fal (l ++ item :: r)) :
    ∃ fal', falRemoveEntry fal item.entry = some fal' ∧ FalRepresents capacity fal' (l ++ r) := by
  have horder := h.order
  rw [List.map_append, List.map_cons] at horder
  obtain ⟨fal', hremove, horder', hcapacity, hvalue⟩ := horder.removeEntry
  refine ⟨fal', hremove, by rw [List.map_append]; exact horder', hcapacity.trans h.capacity, fun other hother => ?_⟩
  rw [hvalue, h.value other]
  rcases List.mem_append.1 hother with hl | hr
  · exact List.mem_append_left _ hl
  · exact List.mem_append_right _ (List.mem_cons_of_mem item hr)

/-- With distinct entries, one of them is filtered out. -/
theorem falItems_filter (hnodup : ((l ++ item :: r).map FalItem.entry).Nodup) :
    ((l ++ item :: r).filter fun other => other.entry ≠ item.entry) = l ++ r := by
  rw [List.map_append, List.map_cons] at hnodup
  obtain ⟨-, hnodupr, hdisjoint⟩ := List.nodup_append.1 hnodup
  have hnotin := (List.nodup_cons.1 hnodupr).1
  have hl : ∀ other ∈ l, decide (other.entry ≠ item.entry) = true := fun other hother =>
    decide_eq_true (hdisjoint _ (List.mem_map_of_mem hother) _ List.mem_cons_self)
  have hr : ∀ other ∈ r, decide (other.entry ≠ item.entry) = true := fun other hother =>
    decide_eq_true fun he => hnotin (he ▸ List.mem_map_of_mem hother)
  rw [List.filter_append, List.filter_cons_of_neg (by simp), List.filter_eq_self.2 hl, List.filter_eq_self.2 hr]

theorem FalRepresents.removeEntry (h : FalRepresents capacity fal items) {entry : Nat}
    (hlive : entry ∈ items.map FalItem.entry) :
    ∃ fal', falRemoveEntry fal entry = some fal' ∧
      FalRepresents capacity fal' (items.filter fun item => item.entry ≠ entry) := by
  obtain ⟨item, hitem, rfl⟩ := List.mem_map.1 hlive
  obtain ⟨l, r, rfl⟩ := List.append_of_mem hitem
  rw [falItems_filter h.order.nodup]
  exact h.removeItem

theorem FalRepresents.popTail (h : FalRepresents capacity fal (item :: r)) :
    ∃ fal', falPopTail fal = some (item.value, fal') ∧ FalRepresents capacity fal' r := by
  have horder := h.order
  rw [List.map_cons] at horder
  obtain ⟨fal', hpop, horder', hcapacity, hvalue⟩ := horder.popTail
  rw [h.value item List.mem_cons_self] at hpop
  refine ⟨fal', hpop, horder', hcapacity.trans h.capacity, fun other hother => ?_⟩
  rw [hvalue, h.value other (List.mem_cons_of_mem item hother)]

theorem FalRepresents.reset (h : FalRepresents capacity fal items) : FalRepresents capacity (falReset fal) [] :=
  ⟨.reset fal, h.capacity, by simp⟩

theorem FalRepresents.nonempty (h : FalRepresents capacity fal items) (hfull : falIsEmpty fal = false) :
    ∃ oldest rest, items = oldest :: rest := by
  refine List.exists_cons_of_ne_nil fun hnil => ?_
  rw [h.isEmpty.mpr hnil] at hfull
  exact absurd hfull (by decide)

/-- **An allowed operation has a result and keeps the list in order.** -/
theorem FalRepresents.apply (h : FalRepresents capacity fal items) {op : FalOp α} (hallowed : FalAllowed fal items op) :
    ∃ result fal', falApply fal op = some (result, fal') ∧ FalRepresents capacity fal' (falItemsAfter items op result) := by
  cases op with
  | pushHead value =>
    obtain ⟨entry, fal', hpush, h'⟩ := h.pushHead value hallowed
    exact ⟨.pushed entry, fal', by rw [falApply, hpush]; rfl, h'⟩
  | removeEntry entry =>
    obtain ⟨fal', hremove, h'⟩ := h.removeEntry hallowed
    exact ⟨.done, fal', by rw [falApply, hremove]; rfl, h'⟩
  | popTail =>
    obtain ⟨oldest, rest, rfl⟩ := h.nonempty hallowed
    obtain ⟨fal', hpop, h'⟩ := h.popTail
    exact ⟨.popped oldest.value, fal', by rw [falApply, hpop]; rfl, h'⟩
  | reset => exact ⟨.done, falReset fal, rfl, h.reset⟩

end

/-! ## Runs -/

theorem FalRepresents.run {capacity : Nat} {fal fal' : FixedArrayList α} {items items' : List (FalItem α)}
    {ops : List (FalOp α)} (h : FalRepresents capacity fal items) (hrun : falRun ops fal items = some (fal', items')) :
    FalRepresents capacity fal' items' := by
  induction ops generalizing fal items with
  | nil =>
    cases hrun
    exact h
  | cons op ops ih =>
    rw [falRun] at hrun
    split at hrun
    · next hallowed =>
      obtain ⟨result, next, hop, hnext⟩ := h.apply hallowed
      rw [hop] at hrun
      exact ih hnext hrun
    · cases hrun

/-- **The list keeps its order over every run.** From a fresh list, whatever
its memory held, any allowed operations leave it in order; none of the next
ones fails, and a pop returns the value that was pushed first of those that
are live. -/
theorem falRun_staysInOrder (stale : Nat → FalEntry α) (capacity : Nat) (ops : List (FalOp α)) (fal : FixedArrayList α)
    (items : List (FalItem α)) (hrun : falRun ops (falInit stale capacity) [] = some (fal, items)) :
    FalInOrder capacity fal items ∧
      (∀ op, FalAllowed fal items op → ∃ result fal', falApply fal op = some (result, fal')) ∧
      (falIsEmpty fal = false →
        ∃ oldest rest fal', items = oldest :: rest ∧ falPopTail fal = some (oldest.value, fal')) := by
  have h := (FalRepresents.init stale capacity).run hrun
  refine ⟨h.inOrder, fun op hallowed => ?_, fun hfull => ?_⟩
  · obtain ⟨result, fal', hop, -⟩ := h.apply hallowed
    exact ⟨result, fal', hop⟩
  · obtain ⟨oldest, rest, rfl⟩ := h.nonempty hfull
    obtain ⟨fal', hpop, -⟩ := h.popTail
    exact ⟨oldest, rest, fal', rfl, hpop⟩

/-- Four values in a full list, one taken out in the middle and its slot used
again, the oldest taken out. -/
theorem falRun_staysInOrder_simple :
    ∃ fal, falRun [.pushHead (some 222), .pushHead (some 333), .pushHead (some 444), .pushHead (some 555), .removeEntry 2,
        .pushHead (some 666), .removeEntry 0] (falInit (fun _ => ⟨some 3, some 1, some 7⟩) 4) [] =
        some (fal, [⟨1, some 333⟩, ⟨3, some 555⟩, ⟨2, some 666⟩]) ∧
      FalInOrder 4 fal [⟨1, some 333⟩, ⟨3, some 555⟩, ⟨2, some 666⟩] := by
  have hrun : ∃ fal, falRun [.pushHead (some 222), .pushHead (some 333), .pushHead (some 444), .pushHead (some 555),
      .removeEntry 2, .pushHead (some 666), .removeEntry 0] (falInit (fun _ => ⟨some 3, some 1, some 7⟩) 4) [] =
      some (fal, [⟨1, some 333⟩, ⟨3, some 555⟩, ⟨2, some 666⟩]) := ⟨_, rfl⟩
  obtain ⟨fal, hrun⟩ := hrun
  exact ⟨fal, hrun, (falRun_staysInOrder _ 4 _ fal _ hrun).1⟩

end Scomp
