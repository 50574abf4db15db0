/-
The double-linked list in its order: what `next` from the tail and `prev`
from the head lead through, over pushes, removals from anywhere and pops.
-/
import Scomp.DataStructures.FixedArrayList
import Scomp.Lib.DoublyLinked
import Mathlib.Data.List.Nodup
import Mathlib.Data.List.Range

namespace Scomp

variable {α : Type}

/-! ## Fields after a write to a link -/

section

variable (entries : Nat → FalEntry α) (index target : Option Nat)

@[simp] theorem falSetNext_prev (i : Nat) : (falSetNext entries index target i).prev = (entries i).prev := by
  rcases index with _ | j
  · rfl
  · by_cases he : i = j
    · subst he; simp [falSetNext]
    · simp [falSetNext, he]

@[simp] theorem falSetPrev_next (i : Nat) : (falSetPrev entries index target i).next = (entries i).next := by
  rcases index with _ | j
  · rfl
  · by_cases he : i = j
    · subst he; simp [falSetPrev]
    · simp [falSetPrev, he]

@[simp] theorem falSetPrev_value (i : Nat) : (falSetPrev entries index target i).value = (entries i).value := by
  rcases index with _ | j
  · rfl
  · by_cases he : i = j
    · subst he; simp [falSetPrev]
    · simp [falSetPrev, he]

theorem falSetNext_next (i : Nat) :
    (falSetNext entries index target i).next = DoublyLinked.relink (fun i => (entries i).next) index target i := by
  rcases index with _ | j
  · rfl
  · by_cases he : i = j
    · subst he; simp [falSetNext, DoublyLinked.relink]
    · simp [falSetNext, DoublyLinked.relink, he]

theorem falSetPrev_prev (i : Nat) :
    (falSetPrev entries index target i).prev = DoublyLinked.relink (fun i => (entries i).prev) index target i := by
  rcases index with _ | j
  · rfl
  · by_cases he : i = j
    · subst he; simp [falSetPrev, DoublyLinked.relink]
    · simp [falSetPrev, DoublyLinked.relink, he]

end

/-- What `fal_remove_entry` writes to the links: each neighbour of the entry
is linked to the other one. -/
def falUnlink (entries : Nat → FalEntry α) (entry : Nat) : Nat → FalEntry α :=
  let entries := falSetNext entries (entries entry).prev (entries entry).next
  falSetPrev entries (entries entry).next (entries entry).prev

section

variable {entries : Nat → FalEntry α} {entry : Nat}

@[simp] theorem falUnlink_value (i : Nat) : (falUnlink entries entry i).value = (entries i).value := by
  rw [falUnlink, falSetPrev_value, falSetNext_value]

theorem falUnlink_next (i : Nat) : (falUnlink entries entry i).next =
    DoublyLinked.relink (fun i => (entries i).next) (entries entry).prev (entries entry).next i := by
  rw [falUnlink, falSetPrev_next, falSetNext_next]

/-- An entry that is not its own neighbour keeps its links. -/
theorem falUnlink_next_self (hprev : (entries entry).prev ≠ some entry) :
    (falUnlink entries entry entry).next = (entries entry).next := by
  rw [falUnlink_next, DoublyLinked.relink_of_ne hprev]

theorem falUnlink_prev (hprev : (entries entry).prev ≠ some entry) (i : Nat) : (falUnlink entries entry i).prev =
    DoublyLinked.relink (fun i => (entries i).prev) (entries entry).next (entries entry).prev i := by
  have hself := falUnlink_next_self hprev
  rw [falUnlink, falSetPrev_next] at hself
  rw [falUnlink, falSetPrev_prev, hself, falSetNext_prev]
  simp only [falSetNext_prev]

theorem falUnlink_prev_self (hprev : (entries entry).prev ≠ some entry) (hnext : (entries entry).next ≠ some entry) :
    (falUnlink entries entry entry).prev = (entries entry).prev := by
  rw [falUnlink_prev hprev, DoublyLinked.relink_of_ne hnext]

end

/-! ## The order of the entries -/

/-- The live entries, the tail first: linked both ways, and with the free
slots all there are. -/
structure FalHolds (fal : FixedArrayList α) (order : List Nat) : Prop where
  slots : (order ++ fal.freeSlots.values).Perm (List.range fal.freeSlots.itemCapacity)
  head : fal.head = order.getLast?
  tail : fal.tail = order.head?
  linked : DoublyLinked.Linked (fun i => (fal.entries i).prev) (fun i => (fal.entries i).next) none order none

section

variable {fal : FixedArrayList α} {order : List Nat}

theorem FalHolds.reset (fal : FixedArrayList α) : FalHolds (falReset fal) [] :=
  ⟨.refl _, rfl, rfl, trivial⟩

theorem FalHolds.init (stale : Nat → FalEntry α) (length : Nat) : FalHolds (falInit stale length) [] := .reset _

theorem FalHolds.nodup_slots (h : FalHolds fal order) : (order ++ fal.freeSlots.values).Nodup :=
  h.slots.nodup_iff.2 List.nodup_range

theorem FalHolds.nodup (h : FalHolds fal order) : order.Nodup := h.nodup_slots.of_append_left

theorem FalHolds.not_free (h : FalHolds fal order) {i : Nat} (hi : i ∈ order) : i ∉ fal.freeSlots.values :=
  fun hfree => List.disjoint_of_nodup_append h.nodup_slots hi hfree

theorem FalHolds.count (h : FalHolds fal order) :
    order.length + fal.freeSlots.values.length = fal.freeSlots.itemCapacity := by
  rw [← List.length_append, h.slots.length_eq, List.length_range]

/-- The live entries are those of the order. -/
theorem FalHolds.live (h : FalHolds fal order) : (falLiveEntries fal).Perm order := by
  refine (List.perm_ext_iff_of_nodup (List.nodup_range.filter _) h.nodup).2 fun i => ?_
  rw [← falLiveEntries, mem_falLiveEntries, ← List.mem_range, ← h.slots.mem_iff, List.mem_append]
  constructor
  · intro hlive
    obtain ⟨hmem | hfree, hnot⟩ := hlive
    · exact hmem
    · exact absurd hfree hnot
  · intro hmem
    exact ⟨.inl hmem, h.not_free hmem⟩

theorem FalHolds.isEmpty (h : FalHolds fal order) : falIsEmpty fal = decide (order = []) := by
  have hcount := h.count
  rw [falIsEmpty, fstackGetCount, fstackGetCapacity, decide_eq_decide, ← List.length_eq_zero_iff]
  omega

theorem FalHolds.hasFreeSpace (h : FalHolds fal order) :
    falHasFreeSpace fal = decide (order.length < fal.freeSlots.itemCapacity) := by
  have hcount := h.count
  rw [falHasFreeSpace, fstackGetCount, decide_eq_decide]
  omega

/-- A push makes a free slot the head. -/
theorem FalHolds.pushHead (h : FalHolds fal order) (value : Option α)
    (hspace : order.length < fal.freeSlots.itemCapacity) :
    ∃ slot fal', falPushHead fal value = some (slot, fal') ∧ FalHolds fal' (order ++ [slot]) ∧ slot ∉ order ∧
      fal'.freeSlots.itemCapacity = fal.freeSlots.itemCapacity ∧
      ∀ i, (fal'.entries i).value = if i = slot then value else (fal.entries i).value := by
  have hcount := h.count
  obtain ⟨slot, rest, hfree⟩ := @List.exists_cons_of_length_pos _ fal.freeSlots.values (by omega)
  have hslot : slot ∉ order := fun hmem => h.not_free hmem (by simp [hfree])
  have hpop : fstackPop fal.freeSlots = some (slot, { fal.freeSlots with values := rest }) := by
    simp only [fstackPop, hfree]
  have hpush : falPushHead fal value = some (slot,
      { entries := falSetNext (Function.update fal.entries slot { next := none, prev := fal.head, value := value })
          fal.head (some slot)
        freeSlots := { fal.freeSlots with values := rest }
        head := some slot
        tail := if fal.head.isSome then fal.tail else some slot }) := by
    rw [falPushHead, if_pos (by rw [h.hasFreeSpace]; exact decide_eq_true hspace), hpop]
    rfl
  refine ⟨slot, _, hpush, ⟨?_, ?_, ?_, ?_⟩, hslot, rfl, fun i => ?_⟩
  · have hslots := h.slots
    rw [hfree] at hslots
    simpa using hslots
  · simp
  · show (if fal.head.isSome then fal.tail else some slot) = _
    rw [h.head, h.tail]
    rcases order with _ | ⟨i, order⟩
    · rfl
    · simp
  · refine (h.linked.push h.nodup hslot).congr (fun i _ => ?_) fun i _ => ?_
    · rw [falSetNext_prev, h.head]
      by_cases he : i = slot
      · simp [he]
      · simp [he]
    · rw [falSetNext_next, h.head]
      congr 1
      funext j
      by_cases he : j = slot
      · simp [he]
      · simp [he]
  · rw [falSetNext_value]
    by_cases he : i = slot
    · simp [he]
    · simp [he]

/-- An entry is not its own neighbour. -/
theorem FalHolds.neighbours {l r : List Nat} {entry : Nat} (h : FalHolds fal (l ++ entry :: r)) :
    entry ∉ l ∧ entry ∉ r ∧ (fal.entries entry).prev = l.getLast? ∧ (fal.entries entry).next = r.head? ∧
      (fal.entries entry).prev ≠ some entry ∧ (fal.entries entry).next ≠ some entry := by
  obtain ⟨hprev, hnext, -⟩ := h.linked.unlink h.nodup
  obtain ⟨-, hnodupr, hdisjoint⟩ := List.nodup_append.1 h.nodup
  have hr := (List.nodup_cons.1 hnodupr).1
  have hl : entry ∉ l := fun hmem => hdisjoint entry hmem entry List.mem_cons_self rfl
  refine ⟨hl, hr, hprev, hnext, fun he => ?_, fun he => ?_⟩
  · exact hl (List.mem_of_getLast? (hprev.symm.trans he))
  · exact hr (List.mem_of_head? (hnext.symm.trans he))

/-- An entry is removed from wherever it is. -/
theorem FalHolds.removeEntry {l r : List Nat} {entry : Nat} (h : FalHolds fal (l ++ entry :: r)) :
    ∃ fal', falRemoveEntry fal entry = some fal' ∧ FalHolds fal' (l ++ r) ∧
      fal'.freeSlots.itemCapacity = fal.freeSlots.itemCapacity ∧
      ∀ i, (fal'.entries i).value = (fal.entries i).value := by
  obtain ⟨hl, hr, hprev, hnext, hprevSelf, hnextSelf⟩ := h.neighbours
  obtain ⟨-, -, hlinked⟩ := h.linked.unlink h.nodup
  have hcount := h.count
  rw [List.length_append, List.length_cons] at hcount
  have hpush : fstackPush fal.freeSlots entry =
      some { fal.freeSlots with values := entry :: fal.freeSlots.values } := by
    rw [fstackPush, if_pos (by omega)]
  have hremove : falRemoveEntry fal entry = some
      { entries := falUnlink fal.entries entry
        freeSlots := { fal.freeSlots with values := entry :: fal.freeSlots.values }
        head := if fal.head = some entry then (falUnlink fal.entries entry entry).prev else fal.head
        tail := if fal.tail = some entry then (falUnlink fal.entries entry entry).next else fal.tail } := by
    rw [falRemoveEntry, h.isEmpty, if_neg (by simp), hpush]
    rfl
  refine ⟨_, hremove, ⟨?_, ?_, ?_, ?_⟩, rfl, fun i => falUnlink_value i⟩
  · refine List.Perm.trans ?_ h.slots
    show (l ++ r ++ entry :: fal.freeSlots.values).Perm _
    rw [List.append_assoc, List.append_assoc, List.cons_append]
    exact List.Perm.append_left l List.perm_middle
  · dsimp only
    rw [falUnlink_prev_self hprevSelf hnextSelf, h.head, hprev]
    exact DoublyLinked.getLast?_unlink hr
  · dsimp only
    rw [falUnlink_next_self hprevSelf, h.tail, hnext]
    exact DoublyLinked.head?_unlink hl
  · exact hlinked.congr (fun i _ => falUnlink_prev hprevSelf i) fun i _ => falUnlink_next i

/-- A pop returns the value of the oldest entry. -/
theorem FalHolds.popTail {entry : Nat} {rest : List Nat} (h : FalHolds fal (entry :: rest)) :
    ∃ fal', falPopTail fal = some ((fal.entries entry).value, fal') ∧ FalHolds fal' rest ∧
      fal'.freeSlots.itemCapacity = fal.freeSlots.itemCapacity ∧
      ∀ i, (fal'.entries i).value = (fal.entries i).value := by
  obtain ⟨fal', hremove, h', hcapacity, hvalue⟩ := @FalHolds.removeEntry α fal [] rest entry h
  refine ⟨fal', ?_, h', hcapacity, hvalue⟩
  rw [falPopTail, h.isEmpty, if_neg (by simp), h.tail]
  simp only [List.head?_cons, Option.bind_eq_bind, Option.bind_some, hremove, hvalue]
  rfl

end

end Scomp
