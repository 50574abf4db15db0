/-
A cyclic array as a window over a history that only grows.

The history is everything ever pushed; the array keeps the last entries of
it. Before its start the history reads as defaults, which is what a fresh
array is filled with.
-/
import Mathlib.Data.Int.ModEq
import Mathlib.Data.List.GetD
import Mathlib.Logic.Function.Basic

namespace Window

variable {α : Type*} [Inhabited α]

/-- The entry at a position of a history. -/
def entry (history : List α) (position : Int) : α :=
  if position < 0 then default else history.getD position.toNat default

theorem entry_append_left {history more : List α} {position : Int} (h : position < history.length) :
    entry (history ++ more) position = entry history position := by
  unfold entry
  split
  · rfl
  · rw [List.getD_append _ _ _ _ (by omega)]

theorem entry_append_right (history more : List α) (i : Nat) :
    entry (history ++ more) (history.length + i) = more.getD i default := by
  have hpos : ¬ (history.length : Int) + i < 0 := by omega
  rw [entry, if_neg hpos, List.getD_append_right _ _ _ _ (by omega)]
  congr 1
  omega

/-- The cyclic array carries the last `length` entries of the history. -/
def Holds (content : Nat → α) (length : Nat) (history : List α) : Prop :=
  ∀ position : Int, history.length - length ≤ position → position < history.length →
    content (position % length).toNat = entry history position

theorem Holds.init (length : Nat) : Holds (fun _ => (default : α)) length [] := by
  intro position _ hlt
  rw [entry, if_pos (by simpa using hlt)]

/-- Positions less than a length apart have cells of their own. -/
theorem cell_ne {length : Nat} {position later : Int} (hlt : position < later) (hnear : later < position + length) :
    position % length ≠ later % length := by
  intro heq
  have hdvd : (length : Int) ∣ later - position := Int.ModEq.dvd heq
  have hle := Int.le_of_dvd (by omega) hdvd
  omega

/-- **A push overwrites the oldest entry only.** -/
theorem Holds.push {content : Nat → α} {length : Nat} {history : List α} (h : Holds content length history)
    (hlength : 0 < length) (a : α) :
    Holds (Function.update content (history.length % length) a) length (history ++ [a]) := by
  intro position hlow hhigh
  rw [List.length_append, List.length_singleton] at hlow hhigh
  have hcell : ((history.length : Int) % length).toNat = history.length % length := rfl
  by_cases hlast : position = history.length
  · rw [hlast, hcell, Function.update_self]
    exact (entry_append_right history [a] 0).symm
  · have hlt : position < history.length := by omega
    have hne := @cell_ne length _ _ hlt (by omega)
    have hpos : 0 ≤ position % length := Int.emod_nonneg _ (by omega)
    have hneNat : (position % length).toNat ≠ history.length % length := by omega
    rw [Function.update_of_ne hneNat, entry_append_left hlt]
    exact h position (by omega) hlt

/-- What lies `distance` back reads on as `next`. -/
def Repeats (history : List α) (distance : Nat) (next : List α) : Prop :=
  ∀ i : Nat, i < next.length → entry history (history.length - distance + i) = next.getD i default

/-- The next entry to copy is the same after the first ones were copied: the
distance is at least the length of the copy. -/
theorem Repeats.copy {history next : List α} {distance i : Nat} (h : Repeats history distance next)
    (hdistance : next.length ≤ distance) (hi : i < next.length) :
    entry (history ++ next.take i) (history.length - distance + i) = next.getD i default := by
  rw [entry_append_left (by omega), h i hi]

end Window
