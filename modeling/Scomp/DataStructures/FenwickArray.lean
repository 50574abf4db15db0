/-
What a Fenwick tree is for: the tree answers like a plain array after any
additions and fills, whatever its size and whatever was in it.
-/
import Scomp.DataStructures.FenwickTree
import Mathlib.Algebra.BigOperators.Group.List.Basic

namespace Scomp

/-! ## The plain array -/

abbrev PlainArray := List SymbolFrequency

def plainAdd (array : PlainArray) (symbol : Nat) (delta : SymbolFrequency) : PlainArray :=
  array.modify symbol (· + delta)

/-- The last `endOffset` entries become 0. -/
def plainFill (size : Nat) (values : List SymbolFrequency) (endOffset : Nat) : PlainArray :=
  values.take (size - endOffset) ++ List.replicate (size - (size - endOffset)) 0

inductive FtreeOp
  | add (symbol : Nat) (delta : SymbolFrequency)
  | fill (values : List SymbolFrequency) (endOffset : Nat)

/-- The symbol is one of the tree's, the values are as many as are read. -/
def FtreeOp.InRange (size : Nat) : FtreeOp → Prop
  | .add symbol _ => symbol < size
  | .fill values endOffset => size - endOffset ≤ values.length

instance (size : Nat) : (op : FtreeOp) → Decidable (op.InRange size)
  | .add symbol _ => inferInstanceAs (Decidable (symbol < size))
  | .fill values endOffset => inferInstanceAs (Decidable (size - endOffset ≤ values.length))

def ftreeApply (tree : Ftree) : FtreeOp → Ftree
  | .add symbol delta => ftreeAdd tree symbol delta
  | .fill values endOffset => ftreeFillFromSourceFrequencies tree values endOffset

def plainApply (array : PlainArray) : FtreeOp → PlainArray
  | .add symbol delta => plainAdd array symbol delta
  | .fill values endOffset => plainFill array.length values endOffset

/-! ## Refinement -/

structure FtreeRefines (tree : Ftree) (array : PlainArray) : Prop where
  length : array.length = ftreeLength tree
  get : ∀ i < ftreeLength tree, ftreeGet tree i = array.getD i 0

theorem FtreeRefines.init (size : Nat) : FtreeRefines (ftreeInit size) (List.replicate size 0) := by
  refine ⟨List.length_replicate, fun i hi => ?_⟩
  rw [ftreeLength_init] at hi
  rw [ftreeGet_eq, ftreeInit, ftreeSum_zeroes, ftreeSum_zeroes, sub_self, List.getD_eq_getElem?_getD,
    List.getElem?_replicate_of_lt hi]
  rfl

theorem FtreeRefines.add {tree : Ftree} {array : PlainArray} (h : FtreeRefines tree array) (symbol : Nat)
    (delta : SymbolFrequency) : FtreeRefines (ftreeAdd tree symbol delta) (plainAdd array symbol delta) := by
  refine ⟨by rw [plainAdd, List.length_modify, h.length]; rfl, fun i hi => ?_⟩
  have hlt : i < ftreeLength tree := hi
  have hin : i < array.length := by rwa [h.length]
  rw [ftreeGet_add tree hlt, h.get i hlt, plainAdd, List.getD_eq_getElem?_getD, List.getD_eq_getElem?_getD,
    List.getElem?_modify, List.getElem?_eq_getElem hin]
  by_cases hs : symbol = i
  · simp [hs]
  · simp [hs, Ne.symm hs]

@[simp] theorem ftreeFill_size (tree : Ftree) (values : List SymbolFrequency) (endOffset : Nat) :
    (ftreeFillFromSourceFrequencies tree values endOffset).size = tree.size := ftreeAddAll_size _ _ _

theorem plainFill_length {size endOffset : Nat} {values : List SymbolFrequency}
    (hv : size - endOffset ≤ values.length) : (plainFill size values endOffset).length = size := by
  rw [plainFill, List.length_append, List.length_take, List.length_replicate]
  omega

theorem FtreeRefines.fill (tree : Ftree) {values : List SymbolFrequency} {endOffset : Nat}
    (hv : ftreeLength tree - endOffset ≤ values.length) :
    FtreeRefines (ftreeFillFromSourceFrequencies tree values endOffset)
      (plainFill (ftreeLength tree) values endOffset) := by
  have hlength : ftreeLength (ftreeFillFromSourceFrequencies tree values endOffset) = ftreeLength tree := by
    rw [ftreeLength, ftreeLength, ftreeFill_size]
  refine ⟨by rw [plainFill_length hv, hlength], fun i hi => ?_⟩
  rw [hlength] at hi
  have hempty : i < ftreeLength { tree with data := fun _ => 0 } := hi
  rw [ftreeFillFromSourceFrequencies, ftreeGet_addAll hempty, if_pos (Nat.zero_le _), ftreeGet_eq, ftreeSum_zeroes,
    ftreeSum_zeroes, sub_self, zero_add, Nat.sub_zero, plainFill, List.getD_eq_getElem?_getD,
    List.getD_eq_getElem?_getD]
  change (List.take (ftreeLength tree - endOffset) values)[i]?.getD 0 = _
  by_cases hfilled : i < ftreeLength tree - endOffset
  · rw [List.getElem?_append_left (by rw [List.length_take]; omega)]
  · rw [List.getElem?_eq_none (by rw [List.length_take]; omega),
      List.getElem?_append_right (by rw [List.length_take]; omega), List.getElem?_replicate]
    split <;> rfl

theorem FtreeRefines.apply {tree : Ftree} {array : PlainArray} {op : FtreeOp} (h : FtreeRefines tree array)
    (hop : op.InRange (ftreeLength tree)) :
    FtreeRefines (ftreeApply tree op) (plainApply array op) ∧ ftreeLength (ftreeApply tree op) = ftreeLength tree := by
  cases op with
  | add symbol delta => exact ⟨h.add symbol delta, rfl⟩
  | fill values endOffset =>
    refine ⟨?_, by rw [ftreeApply, ftreeLength, ftreeLength, ftreeFill_size]⟩
    rw [plainApply, h.length]
    exact .fill tree hop

theorem FtreeRefines.run {tree : Ftree} {array : PlainArray} {ops : List FtreeOp} (h : FtreeRefines tree array)
    (hops : ∀ op ∈ ops, op.InRange (ftreeLength tree)) :
    FtreeRefines (ops.foldl ftreeApply tree) (ops.foldl plainApply array) ∧
      ftreeLength (ops.foldl ftreeApply tree) = ftreeLength tree := by
  induction ops generalizing tree array with
  | nil => exact ⟨h, rfl⟩
  | cons op ops ih =>
    obtain ⟨happly, hlength⟩ := h.apply (hops op (by simp))
    obtain ⟨hrun, hlength'⟩ := ih happly fun op' hop' => by
      rw [hlength]
      exact hops op' (by simp [hop'])
    exact ⟨hrun, hlength'.trans hlength⟩

/-! ## Queries -/

/-- A prefix sum is a sum of entries. -/
theorem FtreeRefines.sum {tree : Ftree} {array : PlainArray} (h : FtreeRefines tree array) {i : Nat}
    (hi : i < ftreeLength tree) : ftreeSum tree i = (array.take (i + 1)).sum := by
  have hin : i < array.length := by rwa [h.length]
  rw [ftreeSum_succ, h.get i hi, List.getD_eq_getElem _ _ hin, List.take_succ_eq_append_getElem hin, List.sum_append,
    List.sum_singleton]
  congr 1
  match i with
  | 0 => rfl
  | i + 1 =>
    rw [show ((i + 1 : Nat) : Int) - 1 = (i : Nat) by omega]
    exact h.sum (by omega)

theorem FtreeRefines.rangeSum {tree : Ftree} {array : PlainArray} (h : FtreeRefines tree array)
    {fromIndex toIndex : Nat} (hle : fromIndex ≤ toIndex) (hto : toIndex < ftreeLength tree) :
    ftreeRangeSum tree fromIndex toIndex = ((array.take (toIndex + 1)).drop fromIndex).sum := by
  have hbefore : ftreeSum tree ((fromIndex : Int) - 1) = (array.take fromIndex).sum := by
    rcases fromIndex with _ | fromIndex
    · rfl
    · rw [show ((fromIndex + 1 : Nat) : Int) - 1 = (fromIndex : Nat) by omega]
      exact h.sum (by omega)
  have htake : array.take fromIndex = (array.take (toIndex + 1)).take fromIndex := by
    rw [List.take_take, Nat.min_eq_left (by omega)]
  rw [ftreeRangeSum, if_neg (by omega), h.sum hto, hbefore, htake,
    ← List.sum_take_add_sum_drop (array.take (toIndex + 1)) fromIndex]
  abel

theorem FtreeRefines.toSourceArray {tree : Ftree} {array : PlainArray} (h : FtreeRefines tree array) :
    ftreeToSourceArray tree = array := by
  have hlength : (ftreeToSourceArray tree).length = ftreeLength tree := by simp [ftreeToSourceArray, ftreeLength]
  refine List.ext_getElem (by rw [hlength, h.length]) fun i hi hi' => ?_
  rw [hlength] at hi
  have hsource := ftreeToSourceArray_getD hi
  rw [h.get i hi, List.getD_eq_getElem _ _ (by rwa [hlength]), List.getD_eq_getElem _ _ hi'] at hsource
  exact hsource

/-- The tree answers every query as the array does. -/
structure FtreeAnswers (tree : Ftree) (array : PlainArray) : Prop where
  sum : ∀ i < array.length, ftreeSum tree i = (array.take (i + 1)).sum
  rangeSum : ∀ fromIndex toIndex : Nat, fromIndex ≤ toIndex → toIndex < array.length →
    ftreeRangeSum tree fromIndex toIndex = ((array.take (toIndex + 1)).drop fromIndex).sum
  emptyRange : ∀ fromIndex toIndex : Nat, toIndex < fromIndex → ftreeRangeSum tree fromIndex toIndex = 0
  get : ∀ i (hi : i < array.length), ftreeGet tree i = array[i]
  toSourceArray : ftreeToSourceArray tree = array

theorem FtreeRefines.answers {tree : Ftree} {array : PlainArray} (h : FtreeRefines tree array) :
    FtreeAnswers tree array where
  sum := fun i hi => h.sum (by rwa [← h.length])
  rangeSum := fun fromIndex toIndex hle hto => h.rangeSum hle (by rwa [← h.length])
  emptyRange := fun fromIndex toIndex hlt => by rw [ftreeRangeSum, if_pos (by omega)]
  get := fun i hi => by rw [h.get i (by rwa [← h.length]), List.getD_eq_getElem _ _ hi]
  toSourceArray := h.toSourceArray

/-- **The tree refines a plain array**, for every size and any operations in
range; and a tree of that size filled from the extracted array answers as the
first one does. -/
theorem ftree_refines_array (size : Nat) (ops : List FtreeOp) (hops : ∀ op ∈ ops, op.InRange size) :
    (ops.foldl plainApply (List.replicate size 0)).length = size ∧
      FtreeAnswers (ops.foldl ftreeApply (ftreeInit size)) (ops.foldl plainApply (List.replicate size 0)) ∧
      ∀ other, ftreeLength other = size →
        FtreeAnswers
          (ftreeFillFromSourceFrequencies other (ftreeToSourceArray (ops.foldl ftreeApply (ftreeInit size))) 0)
          (ops.foldl plainApply (List.replicate size 0)) := by
  obtain ⟨hrefines, hlength⟩ := (FtreeRefines.init size).run hops
  rw [ftreeLength_init] at hlength
  generalize ops.foldl ftreeApply (ftreeInit size) = tree at hrefines hlength ⊢
  generalize ops.foldl plainApply (List.replicate size 0) = array at hrefines ⊢
  have hsize : array.length = size := hrefines.length.trans hlength
  refine ⟨hsize, hrefines.answers, fun other hother => ?_⟩
  have hfill := @FtreeRefines.fill other array 0 (by omega)
  rw [hrefines.toSourceArray]
  rw [hother, plainFill, Nat.sub_zero, Nat.sub_self, List.replicate_zero, List.append_nil,
    List.take_of_length_le (by omega)] at hfill
  exact hfill.answers

/-- A tree of five symbols, added to, filled but for the last, added to. -/
theorem ftree_refines_array_five :
    FtreeAnswers ([.add 0 1, .fill [1, 2, 3, 4] 1, .add 4 7].foldl ftreeApply (ftreeInit 5)) [1, 2, 3, 4, 7] :=
  (ftree_refines_array 5 [.add 0 1, .fill [1, 2, 3, 4] 1, .add 4 7] (by decide)).2.1

end Scomp
