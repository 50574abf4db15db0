/-
Doubly linked lists in a store of nodes, over any type of node addresses.

`Linked before order after`: the nodes of `order` are linked both ways, the
first one back to `before` and the last one on to `after`. Appending splits
it, so a node is taken out or put in between by two writes at its
neighbours.
-/
import Mathlib.Data.List.Nodup
import Mathlib.Logic.Function.Iterate

namespace DoublyLinked

variable {ι : Type*} [DecidableEq ι]

/-- `links[node] = target`, and nothing for no node. -/
def relink (links : ι → Option ι) (node target : Option ι) : ι → Option ι :=
  match node with
  | some i => Function.update links i target
  | none => links

theorem relink_self (links : ι → Option ι) (i : ι) (target : Option ι) : relink links (some i) target i = target := by
  simp [relink]

theorem relink_of_ne {links : ι → Option ι} {node : Option ι} {i : ι} (h : node ≠ some i) (target : Option ι) :
    relink links node target i = links i := by
  rcases node with _ | j
  · rfl
  · have hij : i ≠ j := fun he => h (by rw [he])
    simp [relink, hij]

def Linked (prev next : ι → Option ι) : Option ι → List ι → Option ι → Prop
  | _, [], _ => True
  | before, i :: rest, after => prev i = before ∧ next i = rest.head?.or after ∧ Linked prev next (some i) rest after

variable {prev next prev' next' : ι → Option ι} {before after : Option ι} {order : List ι}

omit [DecidableEq ι] in
theorem Linked.congr (h : Linked prev next before order after) (hprev : ∀ i ∈ order, prev' i = prev i)
    (hnext : ∀ i ∈ order, next' i = next i) : Linked prev' next' before order after := by
  induction order generalizing before with
  | nil => trivial
  | cons i rest ih =>
    obtain ⟨hi, hn, hrest⟩ := h
    refine ⟨(hprev i (by simp)).trans hi, (hnext i (by simp)).trans hn, ?_⟩
    exact ih hrest (fun j hj => hprev j (by simp [hj])) fun j hj => hnext j (by simp [hj])

omit [DecidableEq ι] in
theorem linked_append {l r : List ι} :
    Linked prev next before (l ++ r) after ↔
      Linked prev next before l (r.head?.or after) ∧ Linked prev next (l.getLast?.or before) r after := by
  induction l generalizing before with
  | nil => simp [Linked]
  | cons i l ih =>
    have hhead : ((l ++ r).head?).or after = l.head?.or (r.head?.or after) := by
      rw [List.head?_append, Option.or_assoc]
    have hlast : ((i :: l).getLast?).or before = l.getLast?.or (some i) := by
      rcases l with _ | ⟨j, l⟩
      · rfl
      · rw [List.getLast?_cons_cons, List.getLast?_eq_some_getLast (List.cons_ne_nil _ _)]
        rfl
    rw [List.cons_append, Linked, Linked, ih, hhead, hlast, and_assoc, and_assoc]

/-- The last node is linked on to another one. -/
theorem Linked.setAfter (h : Linked prev next before order after) (hnodup : order.Nodup) (after' : Option ι) :
    Linked prev (relink next order.getLast? after') before order after' := by
  induction order generalizing before with
  | nil => trivial
  | cons i rest ih =>
    obtain ⟨hi, hn, hrest⟩ := h
    obtain ⟨hnotin, hnodup'⟩ := List.nodup_cons.1 hnodup
    rcases rest with _ | ⟨j, rest⟩
    · exact ⟨hi, relink_self next i after', trivial⟩
    · rw [List.getLast?_cons_cons]
      refine ⟨hi, ?_, ih hrest hnodup'⟩
      have hne : (j :: rest).getLast? ≠ some i := fun he => hnotin (List.mem_of_getLast? he)
      rw [relink_of_ne hne]
      exact hn

/-- The first node is linked back to another one. -/
theorem Linked.setBefore (h : Linked prev next before order after) (hnodup : order.Nodup) (before' : Option ι) :
    Linked (relink prev order.head? before') next before' order after := by
  rcases order with _ | ⟨i, rest⟩
  · trivial
  · obtain ⟨hi, hn, hrest⟩ := h
    have hnotin := (List.nodup_cons.1 hnodup).1
    refine ⟨relink_self prev i before', hn, hrest.congr (fun j hj => relink_of_ne (fun he => ?_) _) fun _ _ => rfl⟩
    cases he
    exact hnotin hj

/-- **A node linked in at the end.** -/
theorem Linked.push (h : Linked prev next none order none) (hnodup : order.Nodup) {i : ι} (hi : i ∉ order) :
    Linked (Function.update prev i order.getLast?) (relink (Function.update next i none) order.getLast? (some i)) none
      (order ++ [i]) none := by
  have hne : order.getLast? ≠ some i := fun he => hi (List.mem_of_getLast? he)
  have hother : ∀ (links : ι → Option ι) target, ∀ j ∈ order, Function.update links i target j = links j := by
    intro links target j hj
    have hne : j ≠ i := fun he => hi (he ▸ hj)
    exact Function.update_of_ne hne _ _
  rw [linked_append]
  constructor
  · exact (h.congr (hother prev _) (hother next _)).setAfter hnodup (some i)
  · refine ⟨by rw [Function.update_self, Option.or_none], ?_, trivial⟩
    rw [relink_of_ne hne, Function.update_self]
    rfl

/-- **A node taken out**: its neighbours are linked to each other. -/
theorem Linked.unlink {l r : List ι} {i : ι} (h : Linked prev next none (l ++ i :: r) none)
    (hnodup : (l ++ i :: r).Nodup) :
    prev i = l.getLast? ∧ next i = r.head? ∧
      Linked (relink prev (next i) (prev i)) (relink next (prev i) (next i)) none (l ++ r) none := by
  obtain ⟨hl, hi, hn, hr⟩ := linked_append.1 h
  rw [Option.or_none] at hi hn
  obtain ⟨hnodupl, hnodupr, hdisjoint⟩ := List.nodup_append.1 hnodup
  obtain ⟨hnotin, hnodupr⟩ := List.nodup_cons.1 hnodupr
  refine ⟨hi, hn, ?_⟩
  rw [hi, hn, linked_append, Option.or_none, Option.or_none]
  constructor
  · refine (hl.setAfter hnodupl r.head?).congr (fun j hj => relink_of_ne (fun he => ?_) _) fun _ _ => rfl
    exact hdisjoint j hj j (List.mem_cons_of_mem i (List.mem_of_head? he)) rfl
  · refine (hr.setBefore hnodupr l.getLast?).congr (fun _ _ => rfl) fun j hj => relink_of_ne (fun he => ?_) _
    exact hdisjoint j (List.mem_of_getLast? he) j (List.mem_cons_of_mem i hj) rfl

/-! ## Following the links -/

/-- Where `steps` links lead. -/
def follow (links : ι → Option ι) (steps : ℕ) (start : Option ι) : Option ι := (fun node => node.bind links)^[steps] start

omit [DecidableEq ι] in
theorem follow_none (links : ι → Option ι) (steps : ℕ) : follow links steps none = none :=
  Function.iterate_fixed rfl steps

omit [DecidableEq ι] in
/-- **Along `next`**: the nodes in order, and nothing after them. -/
theorem Linked.follow_next (h : Linked prev next before order none) (steps : ℕ) :
    follow next steps order.head? = order[steps]? := by
  induction order generalizing before steps with
  | nil => exact follow_none next steps
  | cons i rest ih =>
    obtain ⟨-, hn, hrest⟩ := h
    rw [Option.or_none] at hn
    cases steps with
    | zero => rfl
    | succ steps =>
      rw [List.getElem?_cons_succ, ← ih hrest, ← hn]
      rfl

omit [DecidableEq ι] in
/-- Seen from the other side. -/
theorem Linked.reverse (h : Linked prev next before order after) : Linked next prev after order.reverse before := by
  induction order generalizing before with
  | nil => trivial
  | cons i rest ih =>
    obtain ⟨hi, hn, hrest⟩ := h
    rw [List.reverse_cons, linked_append, List.getLast?_reverse]
    exact ⟨ih hrest, hn, hi, trivial⟩

omit [DecidableEq ι] in
/-- **Along `prev`**: the nodes in reverse. -/
theorem Linked.follow_prev (h : Linked prev next none order after) (steps : ℕ) :
    follow prev steps order.getLast? = order.reverse[steps]? := by
  rw [← List.head?_reverse]
  exact h.reverse.follow_next steps

/-! ## The ends -/

/-- The first node, after one was taken out. -/
theorem head?_unlink {l r : List ι} {i : ι} (hi : i ∉ l) :
    (if (l ++ i :: r).head? = some i then r.head? else (l ++ i :: r).head?) = (l ++ r).head? := by
  rcases l with _ | ⟨first, l⟩
  · simp
  · have hne : first ≠ i := fun he => hi (by simp [he])
    simp [hne]

/-- The last node, after one was taken out. -/
theorem getLast?_unlink {l r : List ι} {i : ι} (hi : i ∉ r) :
    (if (l ++ i :: r).getLast? = some i then l.getLast? else (l ++ i :: r).getLast?) = (l ++ r).getLast? := by
  rcases List.eq_nil_or_concat r with rfl | ⟨r', last, rfl⟩
  · simp
  · have hne : last ≠ i := fun he => hi (by simp [he])
    have hlast : (l ++ i :: r'.concat last).getLast? = some last := by
      rw [List.getLast?_append, List.concat_eq_append, ← List.cons_append, List.getLast?_concat]
      rfl
    rw [hlast, if_neg (fun he => hne (Option.some.inj he))]
    simp

end DoublyLinked
