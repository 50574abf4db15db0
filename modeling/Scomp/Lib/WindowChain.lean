/-
Chains of the entries with the same key, in links that are used again.

Entries are numbered as they come, each has a key and a cell. `heads` leads
from a key to its newest entry, `links` from an entry to the one with its key
before. As long as only the last `length` entries have cells of their own,
a chain leads through those of them with the key, newest first; what comes
after them is left open.
-/
import Mathlib.Data.List.Range
import Mathlib.Logic.Function.Iterate

namespace WindowChain

variable {κ ι : Type*} [DecidableEq κ]

/-- Following the links from a node leads through these nodes, in this order. -/
def Leads (links : ι → ι) : ι → List ι → Prop
  | _, [] => True
  | node, i :: rest => node = i ∧ Leads links (links node) rest

theorem Leads.congr {links links' : ι → ι} {node : ι} {nodes : List ι} (h : Leads links node nodes)
    (hsame : ∀ i ∈ nodes, links' i = links i) : Leads links' node nodes := by
  induction nodes generalizing node with
  | nil => trivial
  | cons i nodes ih =>
    obtain ⟨rfl, hrest⟩ := h
    refine ⟨rfl, ?_⟩
    rw [hsame node (by simp)]
    exact ih hrest fun i hi => hsame i (by simp [hi])

/-- The node after so many links. -/
theorem Leads.iterate {links : ι → ι} {node i : ι} {nodes : List ι} (h : Leads links node nodes) {j : Nat}
    (hj : nodes[j]? = some i) : links^[j] node = i := by
  induction nodes generalizing node j with
  | nil => simp at hj
  | cons i' nodes ih =>
    obtain ⟨rfl, hrest⟩ := h
    rcases j with _ | j
    · simpa using hj
    · rw [Function.iterate_succ_apply]
      exact ih hrest (by simpa using hj)

/-- Of nodes in descending order, those above a bound come first. -/
theorem Leads.filter {links : ι → ι} {node : ι} {cell : Nat → ι} {numbers : List Nat}
    (h : Leads links node (numbers.map cell)) (hsorted : numbers.Pairwise fun q q' => q' < q) (bound : Nat) :
    Leads links node ((numbers.filter fun q => bound ≤ q).map cell) := by
  induction numbers generalizing node with
  | nil => trivial
  | cons q numbers ih =>
    obtain ⟨hq, hrest⟩ := h
    obtain ⟨hlt, hsorted'⟩ := List.pairwise_cons.1 hsorted
    by_cases hbound : bound ≤ q
    · rw [List.filter_cons_of_pos (by simpa using hbound)]
      exact ⟨hq, ih hrest hsorted'⟩
    · have hnone : (q :: numbers).filter (fun q => bound ≤ q) = [] := by
        rw [List.filter_eq_nil_iff]
        intro q' hq'
        rcases List.mem_cons.1 hq' with rfl | hmem
        · simpa using hbound
        · have hless := hlt q' hmem
          simp only [decide_eq_true_eq]
          omega
      rw [hnone]
      trivial

/-! ## The recent entries with a key -/

/-- The numbers of the entries with the key among the last `length`, newest first. -/
def recent (keys : List κ) (length : Nat) (key : κ) : List Nat :=
  ((List.range keys.length).filter fun q => keys[q]? = some key ∧ keys.length ≤ q + length).reverse

theorem mem_recent {keys : List κ} {length : Nat} {key : κ} {q : Nat} :
    q ∈ recent keys length key ↔ keys[q]? = some key ∧ keys.length ≤ q + length := by
  simp only [recent, List.mem_reverse, List.mem_filter, List.mem_range, decide_eq_true_eq, and_iff_right_iff_imp]
  rintro ⟨hkey, -⟩
  exact (List.getElem?_eq_some_iff.1 hkey).1

theorem recent_sorted (keys : List κ) (length : Nat) (key : κ) :
    (recent keys length key).Pairwise fun q q' => q' < q := by
  rw [recent, List.pairwise_reverse]
  exact List.pairwise_lt_range.filter _

/-- One more entry is the newest with its key, and the oldest is forgotten. -/
theorem recent_append (keys : List κ) {length : Nat} (hlength : 0 < length) (new key : κ) :
    recent (keys ++ [new]) length key = (if new = key then [keys.length] else []) ++
      (recent keys length key).filter fun q => keys.length + 1 - length ≤ q := by
  have hlast : ((List.range (keys.length + 1)).filter fun q =>
      (keys ++ [new])[q]? = some key ∧ keys.length + 1 ≤ q + length) =
      ((List.range keys.length).filter fun q => keys[q]? = some key ∧ keys.length ≤ q + length).filter
        (fun q => keys.length + 1 - length ≤ q) ++ if new = key then [keys.length] else [] := by
    rw [List.range_succ, List.filter_append, List.filter_filter]
    congr 1
    · refine List.filter_congr fun q hq => ?_
      rw [List.getElem?_append_left (List.mem_range.1 hq)]
      by_cases hkey : keys[q]? = some key
      · simp only [hkey, true_and, ← Bool.decide_and, decide_eq_decide]
        omega
      · simp [hkey]
    · by_cases hkey : new = key
      · simp [hkey]
        omega
      · simp [hkey]
  rw [recent, List.length_append, List.length_singleton, hlast, List.reverse_append, ← List.filter_reverse]
  congr 1
  by_cases hkey : new = key
  · simp [hkey]
  · simp [hkey]

/-! ## Chains -/

/-- From each key the chain leads through its recent entries. -/
def Holds (heads : κ → ι) (links : ι → ι) (cell : Nat → ι) (length : Nat) (keys : List κ) : Prop :=
  ∀ key, Leads links (heads key) ((recent keys length key).map cell)

theorem Holds.init (heads : κ → ι) (links : ι → ι) (cell : Nat → ι) (length : Nat) :
    Holds heads links cell length [] := fun _ => trivial

/-- **A new entry takes the oldest one's cell**, and the chains lead on. -/
theorem Holds.push [DecidableEq ι] {heads : κ → ι} {links : ι → ι} {cell : Nat → ι} {length : Nat} {keys : List κ}
    (h : Holds heads links cell length keys) (hlength : 0 < length)
    (hcell : ∀ q, q < keys.length → keys.length < q + length → cell q ≠ cell keys.length) (new : κ) :
    Holds (Function.update heads new (cell keys.length)) (Function.update links (cell keys.length) (heads new)) cell
      length (keys ++ [new]) := by
  intro key
  rw [recent_append keys hlength]
  have hold := (h key).filter (recent_sorted keys length key) (keys.length + 1 - length)
  have hrest : Leads (Function.update links (cell keys.length) (heads new)) (heads key)
      (((recent keys length key).filter fun q => keys.length + 1 - length ≤ q).map cell) := by
    refine hold.congr fun i hi => ?_
    obtain ⟨q, hq, rfl⟩ := List.mem_map.1 hi
    obtain ⟨hmem, hbound⟩ := List.mem_filter.1 hq
    have hlt := (List.getElem?_eq_some_iff.1 (mem_recent.1 hmem).1).1
    rw [decide_eq_true_eq] at hbound
    exact Function.update_of_ne (hcell q hlt (by omega)) _ _
  by_cases hkey : new = key
  · subst hkey
    rw [if_pos rfl, Function.update_self]
    refine ⟨rfl, ?_⟩
    rw [Function.update_self]
    exact hrest
  · have hother : key ≠ new := fun he => hkey he.symm
    rw [if_neg hkey, Function.update_of_ne hother]
    exact hrest

end WindowChain
