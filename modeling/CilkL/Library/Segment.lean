/-
Module: CilkL.Library.Segment
Layer: Library
Purpose: A list laid out in consecutive slots of an array that is indexed by integers. The two ends of
  a queue in an array are an index and a length, so pushing, popping at the tail and taking from the head
  are statements about one segment.
Imports: Mathlib.Data.Int.Order.Basic, Mathlib.Data.List.Basic
Trusted boundary: none
Main exports: Segment, Segment.push, Segment.dropLast, Segment.tail, Segment.first
Open obligations: none
-/
import Mathlib.Data.Int.Order.Basic
import Mathlib.Data.List.Basic

namespace CilkL

variable {α : Type*} {slots slots' : Int → Option α} {lo : Int} {xs : List α}

/-- The slots from `lo` on hold the elements of the list. -/
def Segment (slots : Int → Option α) (lo : Int) (xs : List α) : Prop :=
  ∀ i, (inside : i < xs.length) → slots (lo + i) = some xs[i]

theorem Segment.nil : Segment slots lo [] := by
  intro i inside
  simp at inside

/-- Only the slots of the segment matter. -/
theorem Segment.congr (segment : Segment slots lo xs)
    (same : ∀ i, lo ≤ i → i < lo + xs.length → slots' i = slots i) : Segment slots' lo xs := by
  intro i inside
  rw [same (lo + i) (by omega) (by omega)]
  exact segment i inside

/-- A store into the slot behind the segment extends it. -/
theorem Segment.push (segment : Segment slots lo xs) {x : α}
    (stored : slots (lo + xs.length) = some x) : Segment slots lo (xs ++ [x]) := by
  intro i inside
  rcases Nat.lt_or_ge i xs.length with old | new
  · rw [List.getElem_append_left old]
    exact segment i old
  · have last : i = xs.length := by
      simp only [List.length_append, List.length_singleton] at inside
      omega
    subst last
    simpa using stored

/-- Giving up the last element. -/
theorem Segment.dropLast (segment : Segment slots lo xs) : Segment slots lo xs.dropLast := by
  intro i inside
  rw [List.length_dropLast] at inside
  rw [List.getElem_dropLast]
  exact segment i (by omega)

/-- Giving up the first element. -/
theorem Segment.tail {x : α} (segment : Segment slots lo (x :: xs)) : Segment slots (lo + 1) xs := by
  intro i inside
  have next := segment (i + 1) (by simpa using inside)
  rw [List.getElem_cons_succ] at next
  rw [← next]
  congr 1
  push_cast
  omega

/-- The first slot holds the first element. -/
theorem Segment.first {x : α} (segment : Segment slots lo (x :: xs)) : slots lo = some x := by
  have found := segment 0 (by simp)
  rw [List.getElem_cons_zero] at found
  simpa using found

/-- The last slot holds the last element. -/
theorem Segment.last {x : α} (segment : Segment slots lo (xs ++ [x])) :
    slots (lo + xs.length) = some x := by
  have found := segment xs.length (by simp)
  rw [List.getElem_concat_length rfl] at found
  exact found

end CilkL
