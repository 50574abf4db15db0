/-
The Fenwick tree of a frequency table (`fenwick_tree.c`).

`data` is the arena array of `size` nodes; node 0 is not used. No function
writes a node outside it. That symbols are in range is asserted by the
source and a statement of its own here.
-/
import Scomp.Commons
import Scomp.Lib.Fenwick
import Mathlib.Tactic.Abel

namespace Scomp

structure Ftree where
  /-- Length of `data`. -/
  size : Nat
  data : Nat → SymbolFrequency

/-- Indices are 1-based inside. -/
def ftreeInit (size : Nat) : Ftree := { size := size + 1, data := fun _ => 0 }

def ftreeAdd (tree : Ftree) (symbol : Nat) (delta : SymbolFrequency) : Ftree :=
  { tree with data := Fenwick.update tree.size delta tree.size (symbol + 1) tree.data }

/-- Cumulative frequency of a symbol; that of -1 is 0. -/
def ftreeSum (tree : Ftree) (symbol : Int) : SymbolFrequency :=
  Fenwick.query tree.data (symbol + 1).toNat (symbol + 1).toNat

/-- The loop that adds `values` to the symbols from `i` on. -/
def ftreeAddAll : List SymbolFrequency → Nat → Ftree → Ftree
  | [], _, tree => tree
  | value :: values, i, tree => ftreeAddAll values (i + 1) (ftreeAdd tree i value)

def ftreeFillFromSourceFrequencies (tree : Ftree) (values : List SymbolFrequency) (endOffset : Nat) : Ftree :=
  ftreeAddAll (values.take (tree.size - 1 - endOffset)) 0 { tree with data := fun _ => 0 }

/-- The frequencies of the single symbols. -/
def ftreeToSourceArray (tree : Ftree) : List SymbolFrequency :=
  (List.range (tree.size - 1)).map fun (i : Nat) => ftreeSum tree i - ftreeSum tree (i - 1)

def ftreeRangeSum (tree : Ftree) (fromIndex toIndex : Int) : SymbolFrequency :=
  if toIndex < fromIndex then 0 else ftreeSum tree toIndex - ftreeSum tree (fromIndex - 1)

/-- Frequency of a single symbol. -/
def ftreeGet (tree : Ftree) (symbol : Int) : SymbolFrequency := ftreeRangeSum tree symbol symbol

def ftreeLength (tree : Ftree) : Nat := tree.size - 1

/-! ## Facts -/

@[simp] theorem ftreeAdd_size (tree : Ftree) (symbol : Nat) (delta : SymbolFrequency) :
    (ftreeAdd tree symbol delta).size = tree.size := rfl

@[simp] theorem ftreeLength_init (size : Nat) : ftreeLength (ftreeInit size) = size := rfl

@[simp] theorem ftreeSum_negOne (tree : Ftree) : ftreeSum tree (-1) = 0 := rfl

theorem ftreeSum_zeroes (size : Nat) (symbol : Int) : ftreeSum { size := size, data := fun _ => 0 } symbol = 0 :=
  Fenwick.query_zero _ _

theorem ftreeGet_eq (tree : Ftree) (symbol : Int) :
    ftreeGet tree symbol = ftreeSum tree symbol - ftreeSum tree (symbol - 1) := by
  rw [ftreeGet, ftreeRangeSum, if_neg (Int.lt_irrefl _)]

/-- Prefix sums are sums of single frequencies. -/
theorem ftreeSum_succ (tree : Ftree) (i : Nat) :
    ftreeSum tree i = ftreeSum tree (i - 1 : Int) + ftreeGet tree i := by
  rw [ftreeGet_eq]
  abel

theorem ftreeSum_add (tree : Ftree) {symbol i : Nat} (hi : i < ftreeLength tree) (delta : SymbolFrequency) :
    ftreeSum (ftreeAdd tree symbol delta) i = ftreeSum tree i + if symbol ≤ i then delta else 0 := by
  unfold ftreeLength at hi
  have hquery := @Fenwick.query_update SymbolFrequency _ tree.size delta tree.size ((i : Int) + 1).toNat (symbol + 1)
    ((i : Int) + 1).toNat tree.data (Nat.succ_pos _) (by omega) (by omega) (Nat.le_refl _)
  rw [ftreeSum, ftreeSum, ftreeAdd, hquery]
  congr 1
  simp

theorem ftreeGet_add (tree : Ftree) {symbol i : Nat} (hi : i < ftreeLength tree) (delta : SymbolFrequency) :
    ftreeGet (ftreeAdd tree symbol delta) i = ftreeGet tree i + if i = symbol then delta else 0 := by
  rw [ftreeGet_eq, ftreeGet_eq, ftreeSum_add tree hi]
  match i with
  | 0 =>
    rw [show ((0 : Nat) : Int) - 1 = -1 by rfl, ftreeSum_negOne, ftreeSum_negOne]
    by_cases hs : symbol = 0
    · simp [hs]
    · rw [if_neg (by omega), if_neg (by omega), add_zero, add_zero]
  | i + 1 =>
    rw [show ((i + 1 : Nat) : Int) - 1 = (i : Nat) by omega, ftreeSum_add tree (by omega)]
    by_cases hle : symbol ≤ i
    · rw [if_pos (by omega), if_pos hle, if_neg (by omega)]
      abel
    · rw [if_neg hle]
      by_cases hs : i + 1 = symbol
      · rw [if_pos (by omega), if_pos hs]
        abel
      · rw [if_neg (by omega), if_neg hs]
        abel

@[simp] theorem ftreeAddAll_size (values : List SymbolFrequency) (i : Nat) (tree : Ftree) :
    (ftreeAddAll values i tree).size = tree.size := by
  induction values generalizing i tree with
  | nil => rfl
  | cons value values ih => rw [ftreeAddAll, ih, ftreeAdd_size]

theorem ftreeGet_addAll {values : List SymbolFrequency} {k i : Nat} {tree : Ftree} (hi : i < ftreeLength tree) :
    ftreeGet (ftreeAddAll values k tree) i = ftreeGet tree i + if k ≤ i then values.getD (i - k) 0 else 0 := by
  induction values generalizing k tree with
  | nil => simp [ftreeAddAll]
  | cons value values ih =>
    rw [ftreeAddAll, @ih (k + 1) (ftreeAdd tree k value) hi, ftreeGet_add tree hi, add_assoc]
    congr 1
    rcases Nat.lt_trichotomy i k with hlt | rfl | hgt
    · rw [if_neg (by omega), if_neg (by omega), if_neg (by omega), add_zero]
    · rw [if_pos rfl, if_neg (by omega), if_pos (Nat.le_refl _), Nat.sub_self, add_zero]
      rfl
    · rw [if_neg (by omega), if_pos (by omega), if_pos (by omega), zero_add,
        show i - k = (i - (k + 1)) + 1 by omega]
      rfl

/-- Filling a tree sets the frequencies of the symbols. -/
theorem ftreeGet_fill {values : List SymbolFrequency} {tree : Ftree} {i : Nat} (hi : i < ftreeLength tree) :
    ftreeGet (ftreeFillFromSourceFrequencies tree values 0) i = values.getD i 0 := by
  have hlen : i < (ftreeLength { tree with data := fun _ => 0 }) := hi
  rw [ftreeFillFromSourceFrequencies, ftreeGet_addAll hlen, if_pos (Nat.zero_le _), ftreeGet_eq, ftreeSum_zeroes,
    ftreeSum_zeroes, sub_self, zero_add, Nat.sub_zero]
  unfold ftreeLength at hi
  rw [Nat.sub_zero, List.getD_eq_getElem?_getD, List.getD_eq_getElem?_getD, List.getElem?_take_of_lt (by omega)]

theorem ftreeToSourceArray_getD {tree : Ftree} {i : Nat} (hi : i < ftreeLength tree) :
    (ftreeToSourceArray tree).getD i 0 = ftreeGet tree i := by
  unfold ftreeLength at hi
  rw [List.getD_eq_getElem?_getD, ftreeToSourceArray, List.getElem?_map, List.getElem?_range hi, ftreeGet_eq]
  rfl

end Scomp
