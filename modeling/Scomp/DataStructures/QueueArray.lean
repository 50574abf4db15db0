/-
The growable queue as `queue.c` keeps it: a cyclic array of a power-of-two
length in which one slot stays free. It refines `Queue`, the list of values,
through any number of growths at any rotation.

The bytes of an element are one value here. Memory that an allocation hands
out holds whatever it holds; an allocation that fails is `none`.
-/
import Scomp.DataStructures.Queue
import Mathlib.Algebra.Order.Group.Nat
import Mathlib.Data.Nat.Bits
import Mathlib.Logic.Function.Basic

namespace Scomp

structure QueueArray (α : Type) where
  values : Nat → α
  /-- Length of `values`, always a power of two. -/
  length : Nat
  lengthMask : Nat
  /-- The last occupied slot. -/
  head : Nat
  /-- The first free slot. -/
  tail : Nat

variable {α : Type}

/-- `none`: the allocation failed. The shift of `1` is one of an `int`, which C
defines below 31. -/
def queueArrayInit (allocation : Option (Nat → α)) (startingLengthShift : Nat) : Option (QueueArray α) := do
  let length := 1 <<< startingLengthShift
  return { values := ← allocation, length := length, lengthMask := length - 1, head := 0, tail := 0 }

def queueArrayReset (q : QueueArray α) : QueueArray α := { q with head := 0, tail := 0 }

def queueArrayGetCount (q : QueueArray α) : Nat :=
  if q.head ≤ q.tail then q.tail - q.head else q.tail + q.length - q.head

def queueArrayIncrement (q : QueueArray α) (i : Nat) : Nat := (i + 1) &&& q.lengthMask

/-- The loop that copies from `pointer` to the tail; `none` when the turns
run out. -/
def queueArrayCopy (q : QueueArray α) : Nat → Nat → Nat → (Nat → α) → Option ((Nat → α) × Nat)
  | 0, _, _, _ => none
  | turns + 1, pointer, i, newValues =>
    if pointer = q.tail then some (newValues, i)
    else queueArrayCopy q turns (queueArrayIncrement q pointer) (i + 1) (Function.update newValues i (q.values pointer))

/-- Whether there is room for one more value; `allocation` is what the new
array would hold. -/
def queueArrayMaybeGrow (q : QueueArray α) (allocation : Option (Nat → α)) : Option (Bool × QueueArray α) :=
  if queueArrayGetCount q < q.length - 1 then some (true, q)
  else
    let newLength := q.length * 2
    match allocation with
    | none => some (false, q)
    | some newValues => do
      let (newValues, i) ← queueArrayCopy q q.length q.head 0 newValues
      return (true, { values := newValues, length := newLength, lengthMask := newLength - 1, head := 0, tail := i })

/-- The slot that is now occupied, or NULL. -/
def queueArrayPush (q : QueueArray α) (allocation : Option (Nat → α)) : Option (Option Nat × QueueArray α) := do
  let (hasRoom, q) ← queueArrayMaybeGrow q allocation
  if hasRoom then return (some q.tail, { q with tail := queueArrayIncrement q q.tail })
  else return (none, q)

/-- "Queue underflow on pop()". -/
def queueArrayPop (q : QueueArray α) : Option (α × QueueArray α) :=
  if queueArrayGetCount q > 0 then some (q.values q.head, { q with head := queueArrayIncrement q q.head })
  else none

/-- "Queue should not underflow on peek_at()". -/
def queueArrayPeekAt (q : QueueArray α) (offset : Nat) : Option α :=
  if queueArrayGetCount q > offset then some (q.values ((q.head + offset) &&& q.lengthMask)) else none

def queueArrayPeekTailAt (q : QueueArray α) (offset : Nat) : Option α :=
  if queueArrayGetCount q > offset then some (q.values ((q.tail + q.length - 1 - offset) &&& q.lengthMask))
  else none

/-- A write to the value at `slot`. -/
def QueueArray.store (q : QueueArray α) (slot : Nat) (value : α) : QueueArray α :=
  { q with values := Function.update q.values slot value }

/-! ## What the array holds -/

structure QueueArray.Holds (q : QueueArray α) (contents : Queue α) : Prop where
  power : ∃ shift, q.length = 2 ^ shift
  mask : q.lengthMask = q.length - 1
  head : q.head < q.length
  tail : q.tail = (q.head + contents.length) % q.length
  fits : contents.length < q.length
  values : ∀ i < contents.length, contents[i]? = some (q.values ((q.head + i) % q.length))

/-- Slots less than a length apart are different. -/
theorem queueArray_slot_ne {head length i j : Nat} (hij : i < j) (hj : j < length) :
    (head + i) % length ≠ (head + j) % length := by
  intro he
  have hdvd := (Nat.modEq_iff_dvd' (show head + i ≤ head + j by omega)).1 he
  have hle := Nat.le_of_dvd (by omega) hdvd
  omega

/-- Only a whole turn comes back to the head. -/
theorem queueArray_slot_ne_head {head length k : Nat} (hhead : head < length) (hk : k ≤ length) :
    (head + k) % length ≠ head ↔ 0 < k ∧ k < length := by
  constructor
  · intro hne
    refine ⟨Nat.pos_of_ne_zero fun hzero => hne ?_, lt_of_le_of_ne hk fun hturn => hne ?_⟩
    · rw [hzero, Nat.add_zero, Nat.mod_eq_of_lt hhead]
    · rw [hturn, Nat.add_mod_right, Nat.mod_eq_of_lt hhead]
  · rintro ⟨hpos, hlt⟩ he
    have hne := @queueArray_slot_ne head length 0 k hpos hlt
    rw [Nat.add_zero, Nat.mod_eq_of_lt hhead] at hne
    exact hne he.symm

section

variable {q : QueueArray α} {contents : Queue α} (h : q.Holds contents)
include h

/-- The mask takes the remainder by the length. -/
theorem QueueArray.Holds.and_mask (i : Nat) : i &&& q.lengthMask = i % q.length := by
  obtain ⟨shift, hshift⟩ := h.power
  rw [h.mask, hshift, Nat.and_two_pow_sub_one_eq_mod]

theorem QueueArray.Holds.increment (i : Nat) : queueArrayIncrement q i = (i + 1) % q.length := h.and_mask _

theorem QueueArray.Holds.count : queueArrayGetCount q = queueGetCount contents := by
  have hhead := h.head
  have hfits := h.fits
  have htail := h.tail
  rw [queueArrayGetCount, queueGetCount]
  by_cases hwraps : q.head + contents.length < q.length
  · rw [Nat.mod_eq_of_lt hwraps] at htail
    rw [if_pos (by omega)]
    omega
  · rw [Nat.mod_eq_sub_mod (by omega), Nat.mod_eq_of_lt (by omega)] at htail
    rw [if_neg (by omega)]
    omega

theorem QueueArray.Holds.peekAt (offset : Nat) : queueArrayPeekAt q offset = queuePeekAt contents offset := by
  rw [queueArrayPeekAt, h.count, queueGetCount, queuePeekAt, h.and_mask]
  by_cases hlt : offset < contents.length
  · rw [if_pos hlt, h.values offset hlt]
  · rw [if_neg hlt, List.getElem?_eq_none (by omega)]

theorem QueueArray.Holds.peekTailAt (offset : Nat) :
    queueArrayPeekTailAt q offset = queuePeekTailAt contents offset := by
  rw [queueArrayPeekTailAt, h.count, queueGetCount, queuePeekTailAt, h.and_mask]
  by_cases hlt : offset < contents.length
  · have hfits := h.fits
    have hindex : (q.tail + q.length - 1 - offset) % q.length =
        (q.head + (contents.length - 1 - offset)) % q.length := by
      have hsum : q.tail + q.length - 1 - offset = q.tail + (q.length - 1 - offset) := by omega
      rw [hsum, h.tail, Nat.mod_add_mod,
        show q.head + contents.length + (q.length - 1 - offset) =
          q.head + (contents.length - 1 - offset) + q.length by omega, Nat.add_mod_right]
    rw [if_pos hlt, if_pos hlt, hindex, h.values _ (by omega)]
  · rw [if_neg hlt, if_neg hlt]

theorem QueueArray.Holds.pop :
    (∃ value q' rest, queuePop contents = some (value, rest) ∧ queueArrayPop q = some (value, q') ∧ q'.Holds rest) ∨
      contents = [] ∧ queueArrayPop q = none := by
  rw [queueArrayPop, h.count, queueGetCount]
  rcases contents with _ | ⟨value, rest⟩
  · exact .inr ⟨rfl, rfl⟩
  · have hpos := Nat.lt_of_le_of_lt (Nat.zero_le _) h.head
    have hfirst := h.values 0 (Nat.succ_pos _)
    rw [Nat.add_zero, Nat.mod_eq_of_lt h.head, List.getElem?_cons_zero, Option.some.injEq] at hfirst
    refine .inl ⟨value, { q with head := queueArrayIncrement q q.head }, rest, rfl, ?_,
      ⟨h.power, h.mask, ?_, ?_, Nat.lt_of_succ_lt h.fits, fun i hi => ?_⟩⟩
    · rw [if_pos (show (value :: rest).length > 0 from Nat.succ_pos _), hfirst]
    · show queueArrayIncrement q q.head < q.length
      rw [h.increment]
      exact Nat.mod_lt _ hpos
    · show q.tail = (queueArrayIncrement q q.head + rest.length) % q.length
      rw [h.increment, Nat.mod_add_mod, h.tail, List.length_cons, Nat.add_assoc, Nat.add_comm 1]
    · show rest[i]? = some (q.values ((queueArrayIncrement q q.head + i) % q.length))
      have hnext := h.values (i + 1) (Nat.succ_lt_succ hi)
      rw [h.increment, Nat.mod_add_mod, Nat.add_assoc, Nat.add_comm 1, ← hnext, List.getElem?_cons_succ]

theorem QueueArray.Holds.reset : (queueArrayReset q).Holds [] :=
  ⟨h.power, h.mask, Nat.lt_of_le_of_lt (Nat.zero_le _) h.head, by simp [queueArrayReset],
    Nat.lt_of_le_of_lt (Nat.zero_le _) h.head, by simp⟩

/-- The copy takes up the values in order, from index 0. -/
theorem QueueArray.Holds.copy {turns k : Nat} {newValues : Nat → α} (hk : k ≤ contents.length)
    (hturns : contents.length - k < turns) (hcopied : ∀ i < k, contents[i]? = some (newValues i)) :
    ∃ newValues', queueArrayCopy q turns ((q.head + k) % q.length) k newValues = some (newValues', contents.length) ∧
      ∀ i < contents.length, contents[i]? = some (newValues' i) := by
  induction turns generalizing k newValues with
  | zero => omega
  | succ turns ih =>
    rw [queueArrayCopy]
    by_cases hdone : k = contents.length
    · rw [if_pos (by rw [h.tail, hdone]), hdone]
      exact ⟨newValues, rfl, hdone ▸ hcopied⟩
    · have hne : (q.head + k) % q.length ≠ q.tail := by
        rw [h.tail]
        exact queueArray_slot_ne (by omega) h.fits
      rw [if_neg hne, h.increment, Nat.mod_add_mod, Nat.add_assoc]
      refine ih (by omega) (by omega) fun i hi => ?_
      by_cases hlast : i = k
      · rw [hlast, Function.update_self, h.values k (by omega)]
      · rw [Function.update_of_ne hlast, hcopied i (by omega)]

/-- Growth keeps the contents, and a failed one the array. -/
theorem QueueArray.Holds.maybeGrow (allocation : Option (Nat → α)) :
    (∃ q', queueArrayMaybeGrow q allocation = some (true, q') ∧ q'.Holds contents ∧
        contents.length + 1 < q'.length) ∨
      allocation = none ∧ queueArrayMaybeGrow q allocation = some (false, q) := by
  have hfits := h.fits
  rw [queueArrayMaybeGrow, h.count, queueGetCount]
  by_cases hroom : contents.length < q.length - 1
  · rw [if_pos hroom]
    exact .inl ⟨q, rfl, h, by omega⟩
  rw [if_neg hroom]
  rcases allocation with _ | newValues
  · exact .inr ⟨rfl, rfl⟩
  obtain ⟨newValues', hcopy, hvalues⟩ := @QueueArray.Holds.copy α q contents h q.length 0 newValues
    (Nat.zero_le _) (by omega) (by omega)
  rw [Nat.add_zero, Nat.mod_eq_of_lt h.head] at hcopy
  obtain ⟨shift, hshift⟩ := h.power
  refine .inl ⟨⟨newValues', q.length * 2, q.length * 2 - 1, 0, contents.length⟩, ?_,
    ⟨⟨shift + 1, ?_⟩, rfl, ?_, ?_, ?_, fun i hi => ?_⟩, ?_⟩
  · simp only [hcopy, Option.bind_eq_bind, Option.bind_some]
    rfl
  · show q.length * 2 = 2 ^ (shift + 1)
    rw [hshift, Nat.pow_succ]
  · show 0 < q.length * 2
    omega
  · show contents.length = (0 + contents.length) % (q.length * 2)
    rw [Nat.zero_add, Nat.mod_eq_of_lt (by omega)]
  · show contents.length < q.length * 2
    omega
  · show contents[i]? = some (newValues' ((0 + i) % (q.length * 2)))
    rw [Nat.zero_add, Nat.mod_eq_of_lt (by omega), hvalues i hi]
  · show contents.length + 1 < q.length * 2
    omega

/-- A value in the slot at the tail is one more value. -/
theorem QueueArray.Holds.fill (hroom : contents.length + 1 < q.length) (value : α) :
    (({ q with tail := queueArrayIncrement q q.tail } : QueueArray α).store q.tail value).Holds
      (queuePush contents value) := by
  have hlength : (queuePush contents value).length = contents.length + 1 := by simp [queuePush]
  refine ⟨h.power, h.mask, h.head, ?_, by rw [hlength]; exact hroom, fun i hi => ?_⟩
  · show queueArrayIncrement q q.tail = (q.head + (queuePush contents value).length) % q.length
    rw [h.increment, h.tail, Nat.mod_add_mod, hlength, Nat.add_assoc]
  · rw [hlength] at hi
    show (contents ++ [value])[i]? = some (Function.update q.values q.tail value ((q.head + i) % q.length))
    by_cases hlast : i = contents.length
    · rw [hlast, ← h.tail, Function.update_self, List.getElem?_concat_length]
    · have hne : (q.head + i) % q.length ≠ q.tail := by
        rw [h.tail]
        exact queueArray_slot_ne (by omega) h.fits
      rw [Function.update_of_ne hne, List.getElem?_append_left (by omega), h.values i (by omega)]

/-- A push appends a value, or returns NULL and leaves the array as it is. -/
theorem QueueArray.Holds.push (allocation : Option (Nat → α)) (value : α) :
    (∃ slot q', queueArrayPush q allocation = some (some slot, q') ∧
        (q'.store slot value).Holds (queuePush contents value)) ∨
      allocation = none ∧ queueArrayPush q allocation = some (none, q) := by
  rcases h.maybeGrow allocation with ⟨q', hgrow, h', hroom⟩ | ⟨hnone, hgrow⟩
  · refine .inl ⟨q'.tail, { q' with tail := queueArrayIncrement q' q'.tail }, ?_, h'.fill hroom value⟩
    simp only [queueArrayPush, hgrow, Option.bind_eq_bind, Option.bind_some]
    rfl
  · refine .inr ⟨hnone, ?_⟩
    simp only [queueArrayPush, hgrow, Option.bind_eq_bind, Option.bind_some]
    rfl

/-- NULL is returned where the array is full and does not grow. -/
theorem QueueArray.Holds.push_null (allocation : Option (Nat → α)) :
    (∃ q', queueArrayPush q allocation = some (none, q')) ↔
      allocation = none ∧ queueArrayGetCount q = q.length - 1 := by
  have hfits := h.fits
  have hcount : queueArrayGetCount q = contents.length := h.count
  by_cases hroom : queueArrayGetCount q < q.length - 1
  · refine iff_of_false (fun ⟨q', hpush⟩ => ?_) (by omega)
    simp [queueArrayPush, queueArrayMaybeGrow, hroom] at hpush
  · rcases allocation with _ | newValues
    · refine iff_of_true ⟨q, ?_⟩ ⟨rfl, by omega⟩
      simp [queueArrayPush, queueArrayMaybeGrow, hroom]
    · refine iff_of_false (fun ⟨q', hpush⟩ => ?_) (by simp)
      rcases h.maybeGrow (some newValues) with ⟨q'', hgrow, -⟩ | ⟨hnone, -⟩
      · simp [queueArrayPush, hgrow] at hpush
      · cases hnone

end

theorem QueueArray.Holds.init (newValues : Nat → α) (startingLengthShift : Nat) :
    ∃ q, queueArrayInit (some newValues) startingLengthShift = some q ∧ q.Holds [] := by
  have hlength : 1 <<< startingLengthShift = 2 ^ startingLengthShift := Nat.one_shiftLeft _
  have hpos := Nat.two_pow_pos startingLengthShift
  refine ⟨_, rfl, ⟨startingLengthShift, hlength⟩, rfl, ?_, ?_, ?_, by simp⟩
  · show 0 < 1 <<< startingLengthShift
    omega
  · show 0 = (0 + 0) % (1 <<< startingLengthShift)
    rw [Nat.zero_add, Nat.zero_mod]
  · show 0 < 1 <<< startingLengthShift
    omega

/-! ## Runs -/

/-- A push stores its value in the slot it is given; `allocation` is what the
allocator answers if the queue asks. -/
inductive QueueOp (α : Type)
  | push (value : α) (allocation : Option (Nat → α))
  | pop
  | reset

inductive QueueResult (α : Type)
  | pushed
  | null
  | popped (value : α)
  | done

def queueArrayApply (q : QueueArray α) : QueueOp α → Option (QueueResult α × QueueArray α)
  | .push value allocation => do
    let (slot, q) ← queueArrayPush q allocation
    match slot with
    | some slot => return (.pushed, q.store slot value)
    | none => return (.null, q)
  | .pop => do
    let (value, q) ← queueArrayPop q
    return (.popped value, q)
  | .reset => some (.done, queueArrayReset q)

def queueArrayRun : QueueArray α → List (QueueOp α) → Option (List (QueueResult α) × QueueArray α)
  | q, [] => some ([], q)
  | q, op :: ops => do
    let (result, q) ← queueArrayApply q op
    let (results, q) ← queueArrayRun q ops
    return (result :: results, q)

/-- What a FIFO does: push order, and a refused push only where the allocator
failed. -/
inductive QueueStep : Queue α → QueueOp α → QueueResult α → Queue α → Prop
  | push {contents value allocation} :
      QueueStep contents (.push value allocation) .pushed (queuePush contents value)
  | refused {contents value} : QueueStep contents (.push value none) .null contents
  | pop {contents value rest} : queuePop contents = some (value, rest) →
      QueueStep contents .pop (.popped value) rest
  | reset {contents} : QueueStep contents .reset .done []

inductive QueueSteps : Queue α → List (QueueOp α) → List (QueueResult α) → Queue α → Prop
  | nil {contents} : QueueSteps contents [] [] contents
  | cons {contents contents' contents'' op ops result results} : QueueStep contents op result contents' →
      QueueSteps contents' ops results contents'' → QueueSteps contents (op :: ops) (result :: results) contents''

/-- An operation is a step of the FIFO; only a pop of nothing fails. -/
theorem QueueArray.Holds.apply {q : QueueArray α} {contents : Queue α} (h : q.Holds contents) (op : QueueOp α) :
    (∃ result q' contents', queueArrayApply q op = some (result, q') ∧ QueueStep contents op result contents' ∧
        q'.Holds contents') ∨
      op = .pop ∧ contents = [] ∧ queueArrayApply q op = none := by
  cases op with
  | push value allocation =>
    rcases h.push allocation value with ⟨slot, q', hpush, h'⟩ | ⟨rfl, hpush⟩
    · exact .inl ⟨.pushed, q'.store slot value, _, by simp only [queueArrayApply, hpush, Option.bind_eq_bind, Option.bind_some]; rfl,
        .push, h'⟩
    · exact .inl ⟨.null, q, contents, by simp only [queueArrayApply, hpush, Option.bind_eq_bind, Option.bind_some]; rfl,
        .refused, h⟩
  | pop =>
    rcases h.pop with ⟨value, q', rest, hspec, hpop, h'⟩ | ⟨hnil, hpop⟩
    · exact .inl ⟨.popped value, q', rest, by simp only [queueArrayApply, hpop, Option.bind_eq_bind, Option.bind_some]; rfl,
        .pop hspec, h'⟩
    · exact .inr ⟨rfl, hnil, by simp only [queueArrayApply, hpop, Option.bind_eq_bind, Option.bind_none]⟩
  | reset => exact .inl ⟨.done, queueArrayReset q, [], rfl, .reset, h.reset⟩

theorem QueueArray.Holds.run {q q' : QueueArray α} {contents : Queue α} {ops : List (QueueOp α)}
    {results : List (QueueResult α)} (h : q.Holds contents) (hrun : queueArrayRun q ops = some (results, q')) :
    ∃ contents', QueueSteps contents ops results contents' ∧ q'.Holds contents' := by
  induction ops generalizing q contents results with
  | nil =>
    cases hrun
    exact ⟨contents, .nil, h⟩
  | cons op ops ih =>
    rcases h.apply op with ⟨result, q₁, contents₁, happly, hstep, h₁⟩ | ⟨-, -, happly⟩
    · simp only [queueArrayRun, happly, Option.bind_eq_bind, Option.bind_some] at hrun
      obtain ⟨⟨results', q₂⟩, hrest, hrun⟩ := Option.bind_eq_some_iff.1 hrun
      cases hrun
      obtain ⟨contents', hsteps, h'⟩ := ih h₁ hrest
      exact ⟨contents', .cons hstep hsteps, h'⟩
    · simp [queueArrayRun, happly] at hrun

/-- **The growable queue is a FIFO**, from any starting length and with
allocations that fail at any time: after any run its contents are those of
the list, at both ends and in between, the next operation fails only if it
pops nothing, and a push returns NULL only for want of memory. -/
theorem queue_fifo (startingLengthShift : Nat) (newValues : Nat → α) :
    ∃ q₀, queueArrayInit (some newValues) startingLengthShift = some q₀ ∧
      ∀ ops results q, queueArrayRun q₀ ops = some (results, q) →
        ∃ contents, QueueSteps [] ops results contents ∧
          queueArrayGetCount q = queueGetCount contents ∧
          (∀ offset, queueArrayPeekAt q offset = contents[offset]?) ∧
          (∀ offset, queueArrayPeekTailAt q offset = contents.reverse[offset]?) ∧
          (∀ op, queueArrayApply q op = none ↔ op = .pop ∧ contents = []) ∧
          ∀ allocation, (∃ q', queueArrayPush q allocation = some (none, q')) ↔
            allocation = none ∧ queueArrayGetCount q = q.length - 1 := by
  obtain ⟨q₀, hinit, h₀⟩ := QueueArray.Holds.init newValues startingLengthShift
  refine ⟨q₀, hinit, fun ops results q hrun => ?_⟩
  obtain ⟨contents, hsteps, h⟩ := h₀.run hrun
  refine ⟨contents, hsteps, h.count, h.peekAt, fun offset => ?_, fun op => ⟨fun hnone => ?_, ?_⟩, h.push_null⟩
  · rw [h.peekTailAt, queuePeekTailAt_eq]
  · rcases h.apply op with ⟨result, q', contents', happly, -⟩ | ⟨hop, hnil, -⟩
    · rw [happly] at hnone
      cases hnone
    · exact ⟨hop, hnil⟩
  · rintro ⟨rfl, rfl⟩
    rcases h.apply .pop with ⟨result, q', contents', -, hstep, -⟩ | ⟨-, -, happly⟩
    · cases hstep with
      | pop hpop => cases hpop
    · exact happly

/-- An array of two slots: the second push finds it full and no memory, the
third one grows it. -/
theorem queue_fifo_grows :
    ∃ q₀ q contents, queueArrayInit (some fun _ => 0) 1 = some q₀ ∧
      queueArrayRun q₀ [.push 5 none, .push 6 none, .push 7 (some fun _ => 0), .pop, .push 8 none] =
        some ([.pushed, .null, .pushed, .popped 5, .pushed], q) ∧
      QueueSteps [] [.push 5 none, .push 6 none, .push 7 (some fun _ => 0), .pop, .push 8 none]
        [.pushed, .null, .pushed, .popped 5, .pushed] contents ∧
      queueArrayPeekAt q 0 = contents[0]? ∧ queueArrayPeekTailAt q 0 = contents.reverse[0]? := by
  obtain ⟨q₀, hinit, hall⟩ := queue_fifo 1 fun _ => 0
  cases hinit
  obtain ⟨contents, hsteps, -, hpeek, hpeekTail, -⟩ := hall
    [.push 5 none, .push 6 none, .push 7 (some fun _ => 0), .pop, .push 8 none]
    [.pushed, .null, .pushed, .popped 5, .pushed] _ rfl
  exact ⟨_, _, contents, rfl, rfl, hsteps, hpeek 0, hpeekTail 0⟩

end Scomp
