/-
The fixed pool over whole runs: its slots are its users' alone, and their
offsets stay as small as can be, as a stack recycles the lower ones first.
-/
import Scomp.DataStructures.FixedPool
import Mathlib.Data.List.Nodup
import Mathlib.Data.List.Perm.Basic
import Mathlib.Data.List.Range
import Mathlib.Logic.Function.Basic

namespace Scomp

variable {α : Type}

/-- A pool and who uses it: the slots acquired and not released, each with the
value last written there, and the most there ever were at once. -/
structure FixedPoolUse (α : Type) where
  pool : FixedPool α
  live : List (Nat × α)
  most : Nat

def FixedPoolUse.init (zero : α) (itemCount : Nat) : FixedPoolUse α :=
  { pool := fpoolInit zero itemCount, live := [], most := 0 }

def FixedPoolUse.slots (use : FixedPoolUse α) : List Nat := use.live.map Prod.fst

inductive FixedPoolOp (α : Type)
  | acquire
  | release (slot : Nat)
  /-- A write to the value at `slot`. -/
  | write (slot : Nat) (value : α)

def FixedPoolUse.apply (use : FixedPoolUse α) : FixedPoolOp α → Option (FixedPoolUse α)
  | .acquire => do
    let (slot, pool) ← fpoolAcquire use.pool
    return { pool := pool, live := (slot, pool.data slot) :: use.live, most := max use.most (use.live.length + 1) }
  | .release slot => do
    let pool ← fpoolRelease use.pool slot
    return { use with pool := pool, live := use.live.filter fun entry => entry.1 ≠ slot }
  | .write slot value => some { use with
      pool := use.pool.set slot value
      live := use.live.map fun entry => if entry.1 = slot then (slot, value) else entry }

theorem FixedPoolUse.apply_acquire (use : FixedPoolUse α) {slot : Nat} {rest : List Nat}
    (h : use.pool.freeSlots.values = slot :: rest) :
    use.apply .acquire = some
      { pool := { use.pool with freeSlots := { use.pool.freeSlots with values := rest } }
        live := (slot, use.pool.data slot) :: use.live
        most := max use.most (use.live.length + 1) } := by
  simp [FixedPoolUse.apply, fpoolAcquire_of_cons h]

theorem FixedPoolUse.apply_release (use : FixedPoolUse α) {slot : Nat}
    (h : use.pool.freeSlots.values.length < use.pool.freeSlots.itemCapacity) :
    use.apply (.release slot) = some { use with
      pool := { use.pool with freeSlots := { use.pool.freeSlots with values := slot :: use.pool.freeSlots.values } }
      live := use.live.filter fun entry => entry.1 ≠ slot } := by
  simp [FixedPoolUse.apply, fpoolRelease_of_lt slot h]

/-- What an operation asks of its caller. -/
def FixedPoolUse.Legal (use : FixedPoolUse α) : FixedPoolOp α → Prop
  | .acquire => fpoolHasSpace use.pool = true
  | .release slot | .write slot _ => slot ∈ use.slots

inductive FixedPoolReaches (zero : α) (itemCount : Nat) : FixedPoolUse α → Prop
  | init : FixedPoolReaches zero itemCount (.init zero itemCount)
  | apply {use use' : FixedPoolUse α} {op : FixedPoolOp α} : FixedPoolReaches zero itemCount use → use.Legal op →
      use.apply op = some use' → FixedPoolReaches zero itemCount use'

/-- What the users see. -/
structure FixedPoolServes (itemCount : Nat) (use : FixedPoolUse α) : Prop where
  distinct : use.slots.Nodup
  small : ∀ slot ∈ use.slots, slot < use.most
  most_le : use.most ≤ itemCount
  offset : ∀ slot ∈ use.slots, fpoolGetOffset use.pool slot = some slot
  hasSpace : fpoolHasSpace use.pool = true ↔ use.live.length < itemCount
  kept : ∀ entry ∈ use.live, use.pool.data entry.1 = entry.2

/-! ## The free slots -/

/-- The slots from `most` on were never acquired, and lie below the released
ones. -/
structure FixedPoolUse.OK (itemCount : Nat) (use : FixedPoolUse α) (released : List Nat) : Prop where
  capacity : use.pool.freeSlots.itemCapacity = itemCount
  free : use.pool.freeSlots.values = released ++ List.range' use.most (itemCount - use.most)
  split : (released ++ use.slots).Perm (List.range use.most)
  most_le : use.most ≤ itemCount
  kept : ∀ entry ∈ use.live, use.pool.data entry.1 = entry.2

theorem FixedPoolUse.OK.init (zero : α) (itemCount : Nat) : (FixedPoolUse.init zero itemCount).OK itemCount [] :=
  ⟨rfl, List.range_eq_range', .refl _, Nat.zero_le _, by simp [FixedPoolUse.init]⟩

section

variable {itemCount : Nat} {use : FixedPoolUse α} {released : List Nat} (h : use.OK itemCount released)
include h

theorem FixedPoolUse.OK.counts : released.length + use.live.length = use.most := by
  have hlength := h.split.length_eq
  rwa [List.length_append, List.length_range, FixedPoolUse.slots, List.length_map] at hlength

theorem FixedPoolUse.OK.slot_lt {slot : Nat} (hslot : slot ∈ use.slots) : slot < use.most :=
  List.mem_range.1 (h.split.mem_iff.1 (List.mem_append_right _ hslot))

theorem FixedPoolUse.OK.nodup : (released ++ use.slots).Nodup := h.split.nodup_iff.2 List.nodup_range

theorem FixedPoolUse.OK.hasSpace : fpoolHasSpace use.pool = true ↔ use.live.length < itemCount := by
  have hcounts := h.counts
  have hmost := h.most_le
  rw [fpoolHasSpace, fstackGetCount, h.free, List.length_append, List.length_range', decide_eq_true_iff]
  omega

theorem FixedPoolUse.OK.serves : FixedPoolServes itemCount use := by
  refine ⟨h.nodup.of_append_right, fun slot => h.slot_lt, h.most_le, fun slot hslot => ?_, h.hasSpace, h.kept⟩
  have hlt := h.slot_lt hslot
  have hmost := h.most_le
  rw [fpoolGetOffset, fstackGetCapacity, h.capacity, if_pos (by omega)]

/-- With no slot released, the first one never acquired. -/
theorem FixedPoolUse.OK.acquire_new (hnone : released = []) (hspace : fpoolHasSpace use.pool = true) :
    ∃ use', use.apply .acquire = some use' ∧ use'.OK itemCount [] := by
  subst hnone
  have hcounts : 0 + use.live.length = use.most := h.counts
  have hroom := h.hasSpace.1 hspace
  have hmost : max use.most (use.live.length + 1) = use.most + 1 := by omega
  have hfree : use.pool.freeSlots.values = use.most :: List.range' (use.most + 1) (itemCount - (use.most + 1)) := by
    rw [h.free, List.nil_append, show itemCount - use.most = itemCount - (use.most + 1) + 1 by omega, List.range'_succ]
  refine ⟨_, use.apply_acquire hfree, h.capacity, ?_, ?_, ?_, List.forall_mem_cons.2 ⟨rfl, h.kept⟩⟩
  · simp only [hmost, List.nil_append]
  · have hsplit := h.split
    simp only [FixedPoolUse.slots, List.map_cons, List.nil_append, hmost, List.range_succ] at hsplit ⊢
    exact (List.Perm.cons _ hsplit).trans (List.perm_append_singleton _ _).symm
  · simp only [hmost]
    omega

theorem FixedPoolUse.OK.acquire_released {slot : Nat} {rest : List Nat} (hsome : released = slot :: rest) :
    ∃ use', use.apply .acquire = some use' ∧ use'.OK itemCount rest := by
  subst hsome
  have hcounts : rest.length + 1 + use.live.length = use.most := h.counts
  have hmost : max use.most (use.live.length + 1) = use.most := by omega
  refine ⟨_, use.apply_acquire h.free, h.capacity, ?_, ?_, ?_, List.forall_mem_cons.2 ⟨rfl, h.kept⟩⟩
  · simp only [hmost]
    rfl
  · have hsplit := h.split
    simp only [FixedPoolUse.slots, List.map_cons, List.cons_append, hmost] at hsplit ⊢
    exact List.perm_middle.trans hsplit
  · simp only [hmost]
    exact h.most_le

/-- The last slot released, or else the first one never acquired. -/
theorem FixedPoolUse.OK.acquire (hspace : fpoolHasSpace use.pool = true) :
    ∃ use' released', use.apply .acquire = some use' ∧ use'.OK itemCount released' := by
  cases hreleased : released with
  | nil =>
    obtain ⟨use', happly, hok⟩ := h.acquire_new hreleased hspace
    exact ⟨use', _, happly, hok⟩
  | cons slot rest =>
    obtain ⟨use', happly, hok⟩ := h.acquire_released hreleased
    exact ⟨use', _, happly, hok⟩

theorem FixedPoolUse.OK.release {slot : Nat} (hslot : slot ∈ use.slots) :
    ∃ use', use.apply (.release slot) = some use' ∧ use'.OK itemCount (slot :: released) := by
  have hcounts := h.counts
  have hmost := h.most_le
  have hlive : 0 < use.live.length := by
    have hpos := List.length_pos_of_mem hslot
    rwa [FixedPoolUse.slots, List.length_map] at hpos
  have hroom : use.pool.freeSlots.values.length < use.pool.freeSlots.itemCapacity := by
    rw [h.free, h.capacity, List.length_append, List.length_range']
    omega
  refine ⟨_, use.apply_release hroom, h.capacity, ?_, ?_, hmost, fun entry hentry =>
    h.kept entry (List.mem_of_mem_filter hentry)⟩
  · simp only [h.free, List.cons_append]
  · have herase : (use.live.filter fun entry => entry.1 ≠ slot).map Prod.fst = use.slots.erase slot := by
      rw [h.nodup.of_append_right.erase_eq_filter, FixedPoolUse.slots, List.filter_map]
      congr 1
      refine List.filter_congr fun entry _ => ?_
      rw [Function.comp_apply, bne, decide_not]
      rfl
    simp only [FixedPoolUse.slots, herase, List.cons_append]
    exact (List.perm_middle.symm.trans ((List.perm_cons_erase hslot).symm.append_left released)).trans h.split

/-- A write to one slot leaves all others as they are. -/
theorem FixedPoolUse.OK.write (slot : Nat) (value : α) :
    ∃ use', use.apply (.write slot value) = some use' ∧ use'.OK itemCount released := by
  have hslots : (use.live.map fun entry => if entry.1 = slot then (slot, value) else entry).map Prod.fst = use.slots := by
    rw [List.map_map, FixedPoolUse.slots]
    refine List.map_congr_left fun entry _ => ?_
    by_cases hsame : entry.1 = slot
    · simp [hsame]
    · simp [hsame]
  refine ⟨_, rfl, h.capacity, h.free, ?_, h.most_le, fun entry hentry => ?_⟩
  · simp only [FixedPoolUse.slots, hslots]
    exact h.split
  · obtain ⟨old, hold, rfl⟩ := List.mem_map.1 hentry
    show Function.update use.pool.data slot value _ = _
    by_cases hsame : old.1 = slot
    · rw [if_pos hsame, Function.update_self]
    · rw [if_neg hsame, Function.update_of_ne hsame, h.kept old hold]

/-- **One operation**: it goes through, and the pool goes on serving. -/
theorem FixedPoolUse.OK.apply {op : FixedPoolOp α} (hlegal : use.Legal op) :
    ∃ use' released', use.apply op = some use' ∧ use'.OK itemCount released' := by
  cases op with
  | acquire => exact h.acquire hlegal
  | release slot =>
    obtain ⟨use', happly, hok⟩ := h.release hlegal
    exact ⟨use', _, happly, hok⟩
  | write slot value =>
    obtain ⟨use', happly, hok⟩ := h.write slot value
    exact ⟨use', _, happly, hok⟩

end

theorem FixedPoolReaches.ok {zero : α} {itemCount : Nat} {use : FixedPoolUse α}
    (hreach : FixedPoolReaches zero itemCount use) : ∃ released, use.OK itemCount released := by
  induction hreach with
  | init => exact ⟨[], .init zero itemCount⟩
  | apply _ hlegal happly ih =>
    obtain ⟨released, hok⟩ := ih
    obtain ⟨use'', released', happly', hok'⟩ := hok.apply hlegal
    rw [happly'] at happly
    cases happly
    exact ⟨released', hok'⟩

/-- **The pool hands out free slots with small offsets**: no slot is in use
twice, no slot has an offset as large as the most slots that were in use at
once, there is space for as many as were asked for, and no value changes but
by a write to its slot. -/
theorem fixed_pool_serves (zero : α) (itemCount : Nat) (use : FixedPoolUse α)
    (hreach : FixedPoolReaches zero itemCount use) :
    FixedPoolServes itemCount use ∧
      ∀ op, use.Legal op → ∃ use', use.apply op = some use' ∧ FixedPoolServes itemCount use' := by
  obtain ⟨released, hok⟩ := hreach.ok
  refine ⟨hok.serves, fun op hlegal => ?_⟩
  obtain ⟨use', released', happly, hok'⟩ := hok.apply hlegal
  exact ⟨use', happly, hok'.serves⟩

/-- Two slots acquired, the first one released and acquired again. -/
theorem fixed_pool_serves_again :
    ∃ use, use.slots = [0, 1] ∧ use.most = 2 ∧ FixedPoolServes 3 use ∧ use.pool.data 1 = 7 := by
  have first := @FixedPoolReaches.apply Nat 0 3 _ _ .acquire .init rfl rfl
  have second := @FixedPoolReaches.apply Nat 0 3 _ _ .acquire first rfl rfl
  have written := @FixedPoolReaches.apply Nat 0 3 _ _ (.write 1 7) second (.head _) rfl
  have released := @FixedPoolReaches.apply Nat 0 3 _ _ (.release 0) written (.tail _ (.head _)) rfl
  have again := @FixedPoolReaches.apply Nat 0 3 _ _ .acquire released rfl rfl
  exact ⟨_, rfl, rfl, (fixed_pool_serves 0 3 _ again).1, rfl⟩

end Scomp
