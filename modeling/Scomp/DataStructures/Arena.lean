/-
The arena (`arena.c`): one block of memory from which every structure of a
fixed size takes its own. Each allocation is memory of its own, as the models
of those structures have it.
-/
import Scomp.Commons
import Scomp.Lib.Simulation
import Mathlib.Data.List.Basic
import Mathlib.Logic.Function.Basic

open Simulation

namespace Scomp

structure Arena where
  data : Nat → Byte
  offset : Memsize
  length : Memsize

def arenaReset (arena : Arena) : Arena := { arena with offset := 0 }

/-- `none`: the allocation failed. -/
def arenaInit (malloc : Option (Nat → Byte)) (length : Memsize) : Option Arena := do
  return arenaReset { data := ← malloc, offset := 0, length := length }

/-- Where the allocation starts; `none`: "Arena overflow. Create bigger
arena." The product and the sum are of `memsize`s, which wrap. -/
def arenaAllocate (arena : Arena) (elementCount : Int64) (byteSize : Memsize) : Option (Memsize × Arena) :=
  let allocationSize := elementCount.toUInt64 * byteSize
  if arena.offset + allocationSize < arena.length then
    some (arena.offset, { arena with offset := arena.offset + allocationSize })
  else none

def contextArenaAllocate (arena : Arena) (elementCount singleElementSize : Memsize) : Option (Memsize × Arena) :=
  arenaAllocate arena elementCount.toInt64 singleElementSize

def contextArenaAllocateZeroInit (arena : Arena) (elementCount singleElementSize : Memsize) :
    Option (Memsize × Arena) := do
  let (result, arena) ← arenaAllocate arena elementCount.toInt64 singleElementSize
  let clear := fun data i => Function.update data (result.toNat + i) (0 : Byte)
  return (result, { arena with data := (List.range (elementCount * singleElementSize).toNat).foldl clear arena.data })

/-- No sum of an offset and such a request wraps. -/
theorem memsize_fits {offset elementCount byteSize length : Memsize} (hoffset : offset.toNat ≤ length.toNat)
    (hfits : elementCount.toNat * byteSize.toNat + length.toNat < 2 ^ 64) :
    (elementCount * byteSize).toNat = elementCount.toNat * byteSize.toNat ∧
      (offset + elementCount * byteSize).toNat = offset.toNat + elementCount.toNat * byteSize.toNat := by
  have hproduct : (elementCount * byteSize).toNat = elementCount.toNat * byteSize.toNat := by
    rw [UInt64.toNat_mul, Nat.mod_eq_of_lt (by omega)]
  refine ⟨hproduct, ?_⟩
  rw [UInt64.toNat_add, hproduct, Nat.mod_eq_of_lt (by omega)]

/-- What the clearing loop leaves. -/
theorem arena_clear_apply (data : Nat → Byte) (result size position : Nat) :
    (List.range size).foldl (fun data i => Function.update data (result + i) (0 : Byte)) data position =
      if result ≤ position ∧ position < result + size then 0 else data position := by
  induction size with
  | zero => rw [List.range_zero, List.foldl_nil, if_neg (by omega)]
  | succ size ih =>
    rw [List.range_succ, List.foldl_append, List.foldl_cons, List.foldl_nil]
    by_cases hlast : position = result + size
    · rw [hlast, Function.update_self, if_pos (by omega)]
    · rw [Function.update_of_ne hlast, ih]
      congr 1
      simp only [eq_iff_iff]
      omega

/-! ## Who uses the memory -/

/-- The arena and what it gave: where each allocation starts, and the size
that was asked for. -/
structure ArenaUse where
  arena : Arena
  blocks : List (Nat × Nat)

inductive ArenaOp
  | allocate (elementCount byteSize : Memsize)
  | allocateZeroInit (elementCount byteSize : Memsize)
  | write (block index : Nat) (value : Byte)
  | read (block index : Nat)

/-- The bytes of the request and of an arena of this length can be counted in a
`memsize`. -/
def ArenaOp.Fits (length : Memsize) : ArenaOp → Prop
  | .allocate elementCount byteSize | .allocateZeroInit elementCount byteSize =>
    elementCount.toNat * byteSize.toNat + length.toNat < 2 ^ 64
  | .write .. | .read .. => True

instance (length : Memsize) : (op : ArenaOp) → Decidable (op.Fits length)
  | .allocate .. | .allocateZeroInit .. => inferInstanceAs (Decidable (_ < _))
  | .write .. | .read .. => inferInstanceAs (Decidable True)

inductive ArenaOutput
  | done
  | byte (value : Byte)
deriving DecidableEq

/-- `none`: no such byte in the block. -/
def ArenaUse.pointerTo (use : ArenaUse) (block index : Nat) : Option Nat := do
  let (pointer, size) ← use.blocks[block]?
  if index < size then some (pointer + index) else none

def arenaApply (use : ArenaUse) : ArenaOp → Option (ArenaOutput × ArenaUse)
  | .allocate elementCount byteSize =>
    (contextArenaAllocate use.arena elementCount byteSize).map fun (pointer, arena) =>
      (.done, { arena := arena, blocks := use.blocks ++ [(pointer.toNat, elementCount.toNat * byteSize.toNat)] })
  | .allocateZeroInit elementCount byteSize =>
    (contextArenaAllocateZeroInit use.arena elementCount byteSize).map fun (pointer, arena) =>
      (.done, { arena := arena, blocks := use.blocks ++ [(pointer.toNat, elementCount.toNat * byteSize.toNat)] })
  | .write block index value =>
    (use.pointerTo block index).map fun pointer =>
      (.done, { use with arena := { use.arena with data := Function.update use.arena.data pointer value } })
  | .read block index => (use.pointerTo block index).map fun pointer => (.byte (use.arena.data pointer), use)

/-- Blocks that have nothing to do with each other. `fresh` is what memory
holds before anyone writes to it. -/
structure SeparateBlocks where
  blocks : List (List Byte)
  length : Nat
  fresh : Nat → Byte

def SeparateBlocks.used (memory : SeparateBlocks) : Nat := (memory.blocks.map List.length).sum

def SeparateBlocks.add (memory : SeparateBlocks) (bytes : List Byte) : Option SeparateBlocks :=
  if memory.used + bytes.length < memory.length then some { memory with blocks := memory.blocks ++ [bytes] }
  else none

/-- The bytes of a block that nobody wrote to yet. -/
def SeparateBlocks.freshBytes (memory : SeparateBlocks) (size : Nat) : List Byte :=
  (List.range size).map fun i => memory.fresh (memory.used + i)

def separateApply (memory : SeparateBlocks) : ArenaOp → Option (ArenaOutput × SeparateBlocks)
  | .allocate elementCount byteSize =>
    (memory.add (memory.freshBytes (elementCount.toNat * byteSize.toNat))).map fun memory => (.done, memory)
  | .allocateZeroInit elementCount byteSize =>
    (memory.add (List.replicate (elementCount.toNat * byteSize.toNat) 0)).map fun memory => (.done, memory)
  | .write block index value => do
    let bytes ← memory.blocks[block]?
    if index < bytes.length then
      some (.done, { memory with blocks := memory.blocks.set block (bytes.set index value) })
    else none
  | .read block index => do
    let bytes ← memory.blocks[block]?
    bytes[index]?.map fun value => (.byte value, memory)

/-! ## Blocks in a row -/

section

variable {blocks : List (List Byte)} {block : Nat} {bytes : List Byte} (h : blocks[block]? = some bytes)
include h

/-- A block in the row of all: where it starts, the lengths before it add up. -/
theorem blocks_split : ∃ before after, blocks = before ++ bytes :: after ∧ before.length = block ∧
    before.flatten.length = ((blocks.map List.length).take block).sum := by
  obtain ⟨hblock, hbytes⟩ := List.getElem?_eq_some_iff.1 h
  refine ⟨blocks.take block, blocks.drop (block + 1), ?_, List.length_take_of_le (Nat.le_of_lt hblock), ?_⟩
  · rw [← hbytes, ← List.drop_eq_getElem_cons hblock, List.take_append_drop]
  · rw [List.length_flatten, List.map_take]

theorem flatten_getElem?_of_block {index : Nat} (hindex : index < bytes.length) :
    blocks.flatten[((blocks.map List.length).take block).sum + index]? = bytes[index]? := by
  obtain ⟨before, after, hsplit, -, hstart⟩ := blocks_split h
  rw [← hstart, hsplit, List.flatten_append, List.flatten_cons, List.getElem?_append_right (Nat.le_add_right _ _),
    Nat.add_sub_cancel_left, List.getElem?_append_left hindex]

theorem flatten_set_of_block {index : Nat} (hindex : index < bytes.length) (value : Byte) :
    (blocks.set block (bytes.set index value)).flatten =
      blocks.flatten.set (((blocks.map List.length).take block).sum + index) value := by
  obtain ⟨before, after, hsplit, hlength, hstart⟩ := blocks_split h
  rw [← hstart, hsplit, ← hlength, List.set_append_right _ _ (Nat.le_refl _), Nat.sub_self, List.set_cons_zero,
    List.flatten_append, List.flatten_append, List.flatten_cons, List.flatten_cons,
    List.set_append_right _ _ (Nat.le_add_right _ _), Nat.add_sub_cancel_left, List.set_append_left _ _ hindex]

theorem lengths_set_of_block (index : Nat) (value : Byte) :
    (blocks.set block (bytes.set index value)).map List.length = blocks.map List.length := by
  obtain ⟨before, after, hsplit, hlength, -⟩ := blocks_split h
  rw [hsplit, ← hlength, List.set_append_right _ _ (Nat.le_refl _), Nat.sub_self, List.set_cons_zero]
  simp

end

/-! ## The arena keeps its blocks apart -/

structure ArenaUse.Holds (use : ArenaUse) (memory : SeparateBlocks) : Prop where
  length : use.arena.length.toNat = memory.length
  offset : use.arena.offset.toNat = memory.used
  used_le : memory.used ≤ memory.length
  /-- Past the blocks nobody wrote. -/
  data : ∀ position, use.arena.data position = memory.blocks.flatten[position]?.getD (memory.fresh position)
  blocks : ∀ block, use.blocks[block]? = memory.blocks[block]?.map fun bytes =>
    (((memory.blocks.map List.length).take block).sum, bytes.length)

section

variable {use : ArenaUse} {memory : SeparateBlocks} (h : use.Holds memory)
include h

/-- The next block starts where the last one ended. -/
theorem ArenaUse.Holds.add {data : Nat → Byte} {bytes : List Byte} {offset : Memsize}
    (hdata : ∀ position, data position = (memory.blocks.flatten ++ bytes)[position]?.getD (memory.fresh position))
    (hoffset : offset.toNat = memory.used + bytes.length) (hroom : memory.used + bytes.length < memory.length) :
    ArenaUse.Holds
      { arena := { use.arena with offset := offset, data := data }
        blocks := use.blocks ++ [(memory.used, bytes.length)] }
      { memory with blocks := memory.blocks ++ [bytes] } := by
  have hcount : use.blocks.length = memory.blocks.length := by
    refine le_antisymm ?_ ?_
    · rw [← List.getElem?_eq_none_iff, h.blocks, List.getElem?_eq_none (Nat.le_refl _)]
      rfl
    · rw [← List.getElem?_eq_none_iff, ← Option.map_eq_none_iff, ← h.blocks, List.getElem?_eq_none (Nat.le_refl _)]
  have hused : SeparateBlocks.used { memory with blocks := memory.blocks ++ [bytes] } = memory.used + bytes.length := by
    simp [SeparateBlocks.used]
  refine ⟨h.length, by rw [hused, hoffset], by rw [hused]; exact Nat.le_of_lt hroom, fun position => ?_, fun block => ?_⟩
  · refine (hdata position).trans ?_
    rw [List.flatten_append, List.flatten_singleton]
  · rcases Nat.lt_trichotomy block memory.blocks.length with hlt | rfl | hgt
    · rw [List.getElem?_append_left (by omega), List.getElem?_append_left hlt, h.blocks, List.map_append,
        List.take_append_of_le_length (by rw [List.length_map]; omega)]
    · rw [← hcount, List.getElem?_concat_length, hcount, List.getElem?_concat_length, SeparateBlocks.used,
        List.map_append, List.take_left' (List.length_map _)]
      rfl
    · rw [List.getElem?_eq_none (by simp; omega), List.getElem?_eq_none (by simp; omega)]
      rfl

theorem ArenaUse.Holds.pointerTo (block index : Nat) : use.pointerTo block index =
    (memory.blocks[block]?).bind fun bytes =>
      if index < bytes.length then some (((memory.blocks.map List.length).take block).sum + index) else none := by
  rw [ArenaUse.pointerTo, h.blocks]
  cases memory.blocks[block]? <;> rfl

/-- What nobody wrote is as the arena found it. -/
theorem ArenaUse.Holds.data_fresh (size position : Nat) : use.arena.data position =
    (memory.blocks.flatten ++ memory.freshBytes size)[position]?.getD (memory.fresh position) := by
  have hused : memory.used = memory.blocks.flatten.length := List.length_flatten.symm
  rw [h.data]
  by_cases hlt : position < memory.blocks.flatten.length
  · rw [List.getElem?_append_left hlt]
  rw [List.getElem?_eq_none (by omega), List.getElem?_append_right (by omega), SeparateBlocks.freshBytes, hused]
  by_cases hnew : position - memory.blocks.flatten.length < size
  · rw [List.getElem?_map, List.getElem?_range hnew, Option.map_some, Option.getD_some, Option.getD_none]
    congr 1
    omega
  · rw [List.getElem?_eq_none (by simpa using hnew)]

theorem ArenaUse.Holds.data_zero (size position : Nat) :
    (List.range size).foldl (fun data i => Function.update data (use.arena.offset.toNat + i) (0 : Byte)) use.arena.data
        position =
      (memory.blocks.flatten ++ List.replicate size 0)[position]?.getD (memory.fresh position) := by
  have hused : use.arena.offset.toNat = memory.blocks.flatten.length := h.offset.trans List.length_flatten.symm
  rw [arena_clear_apply, h.data, hused]
  by_cases hlt : position < memory.blocks.flatten.length
  · rw [if_neg (by omega), List.getElem?_append_left hlt]
  rw [List.getElem?_eq_none (by omega), List.getElem?_append_right (by omega), List.getElem?_replicate]
  by_cases hnew : position - memory.blocks.flatten.length < size
  · rw [if_pos (by omega), if_pos hnew, Option.getD_some]
  · rw [if_neg (by omega), if_neg hnew]

theorem ArenaUse.Holds.write {block index : Nat} {bytes : List Byte} (hbytes : memory.blocks[block]? = some bytes)
    (hindex : index < bytes.length) (value : Byte) :
    ArenaUse.Holds
      { use with
        arena := { use.arena with
          data := Function.update use.arena.data (((memory.blocks.map List.length).take block).sum + index) value } }
      { memory with blocks := memory.blocks.set block (bytes.set index value) } := by
  have hlengths := lengths_set_of_block hbytes index value
  have hplace := flatten_getElem?_of_block hbytes hindex
  have hused : SeparateBlocks.used { memory with blocks := memory.blocks.set block (bytes.set index value) } =
      memory.used := by simp only [SeparateBlocks.used, hlengths]
  refine ⟨h.length, by rw [hused]; exact h.offset, by rw [hused]; exact h.used_le, fun position => ?_, fun other => ?_⟩
  · simp only [flatten_set_of_block hbytes hindex]
    by_cases hsame : position = ((memory.blocks.map List.length).take block).sum + index
    · rw [← hsame, Function.update_self]
      rw [← hsame, List.getElem?_eq_getElem hindex] at hplace
      rw [List.getElem?_set_self (List.getElem?_eq_some_iff.1 hplace).1, Option.getD_some]
    · rw [Function.update_of_ne hsame, List.getElem?_set_ne (Ne.symm hsame), h.data]
  · simp only [hlengths, h.blocks]
    by_cases hsame : other = block
    · rw [hsame, hbytes, List.getElem?_set_self (List.getElem?_eq_some_iff.1 hbytes).1]
      simp
    · rw [List.getElem?_set_ne (Ne.symm hsame)]

end

/-- **Each allocation is memory of its own**, while no request wraps. -/
theorem arena_simulates (length : Memsize) :
    SimulatesOn (ArenaOp.Fits length) (fun use memory => use.Holds memory ∧ use.arena.length = length) arenaApply
      separateApply := by
  rintro use memory ⟨h, rfl⟩ op hfits
  have hoffset : use.arena.offset.toNat ≤ use.arena.length.toNat := by
    rw [h.offset, h.length]
    exact h.used_le
  cases op with
  | allocate elementCount byteSize =>
    obtain ⟨-, hsum⟩ := memsize_fits hoffset hfits
    have hsize : (memory.freshBytes (elementCount.toNat * byteSize.toNat)).length =
        elementCount.toNat * byteSize.toNat := by simp [SeparateBlocks.freshBytes]
    have hadd := @ArenaUse.Holds.add _ _ h _ _ (use.arena.offset + elementCount * byteSize)
      (h.data_fresh (elementCount.toNat * byteSize.toNat)) (by rw [hsum, h.offset, hsize])
    rw [hsize] at hadd
    simp only [arenaApply, separateApply, contextArenaAllocate, arenaAllocate, SeparateBlocks.add, hsize,
      UInt64.toUInt64_toInt64, UInt64.lt_iff_toNat_lt, hsum, h.offset, h.length]
    split
    · next hroom => exact .returns ⟨by simpa [h.offset] using hadd hroom, rfl⟩
    · exact .fails
  | allocateZeroInit elementCount byteSize =>
    obtain ⟨hproduct, hsum⟩ := memsize_fits hoffset hfits
    have hadd := @ArenaUse.Holds.add _ _ h _ _ (use.arena.offset + elementCount * byteSize)
      (h.data_zero (elementCount.toNat * byteSize.toNat)) (by rw [hsum, h.offset, List.length_replicate])
    rw [List.length_replicate] at hadd
    simp only [arenaApply, separateApply, contextArenaAllocateZeroInit, arenaAllocate, SeparateBlocks.add,
      List.length_replicate, UInt64.toUInt64_toInt64, UInt64.lt_iff_toNat_lt, hproduct, hsum, h.offset, h.length]
    split
    · next hroom => exact .returns ⟨by simpa [h.offset] using hadd hroom, rfl⟩
    · exact .fails
  | write block index value =>
    simp only [arenaApply, separateApply, h.pointerTo]
    cases hbytes : memory.blocks[block]? with
    | none => exact .fails
    | some bytes =>
      by_cases hindex : index < bytes.length
      · simp only [Option.bind_some, Option.bind_eq_bind, if_pos hindex, Option.map_some]
        exact .returns ⟨h.write hbytes hindex value, rfl⟩
      · simp only [Option.bind_some, Option.bind_eq_bind, if_neg hindex, Option.map_none]
        exact .fails
  | read block index =>
    simp only [arenaApply, separateApply, h.pointerTo]
    cases hbytes : memory.blocks[block]? with
    | none => exact .fails
    | some bytes =>
      by_cases hindex : index < bytes.length
      · have hplace := flatten_getElem?_of_block hbytes hindex
        simp only [Option.bind_some, Option.bind_eq_bind, if_pos hindex, Option.map_some, h.data, hplace,
          List.getElem?_eq_getElem hindex, Option.getD_some]
        exact .returns ⟨h, rfl⟩
      · simp only [Option.bind_some, Option.bind_eq_bind, if_neg hindex, Option.map_none,
          List.getElem?_eq_none (Nat.not_lt.1 hindex)]
        exact .fails

/-- **The arena keeps its blocks apart**: in any run from its initialisation
whose requests do not wrap, what is read from a block is what was last
written to that block, and an allocation goes against the assertion exactly
where the sizes add up to the arena's length. -/
theorem arena_keeps_blocks_apart (data : Nat → Byte) (length : Memsize) (ops : List ArenaOp)
    (hfits : ∀ op ∈ ops, op.Fits length) :
    ∃ arena, arenaInit (some data) length = some arena ∧
      (run arenaApply { arena := arena, blocks := [] } ops).map Prod.fst =
        (run separateApply { blocks := [], length := length.toNat, fresh := data } ops).map Prod.fst := by
  refine ⟨_, rfl, ((arena_simulates length).runs ⟨?_, rfl⟩ hfits).outputs⟩
  exact ⟨rfl, rfl, Nat.zero_le _, fun _ => rfl, fun _ => rfl⟩

/-- Two blocks of two bytes, the second one cleared. -/
theorem arena_keeps_blocks_apart_two :
    ∃ arena, arenaInit (some fun _ => 7) 5 = some arena ∧
      (run arenaApply { arena := arena, blocks := [] }
        [.allocate 2 1, .allocateZeroInit 1 2, .write 0 1 9, .read 1 0, .read 0 1, .read 0 0]).map Prod.fst =
          some [.done, .done, .done, .byte 0, .byte 9, .byte 7] := by
  obtain ⟨arena, hinit, hrun⟩ := arena_keeps_blocks_apart (fun _ => 7) 5
    [.allocate 2 1, .allocateZeroInit 1 2, .write 0 1 9, .read 1 0, .read 0 1, .read 0 0] (by decide)
  exact ⟨arena, hinit, hrun.trans (by decide)⟩

/-- A request of `2 ^ 62` times four bytes is one of none: the next block is at
the same place. -/
example : (do
    let (first, arena) ← arenaAllocate { data := fun _ => 0, offset := 8, length := 16 } 0x4000000000000000 4
    let (second, _) ← arenaAllocate arena 1 1
    return (first, second)) = some (8, 8) := by
  decide

end Scomp
