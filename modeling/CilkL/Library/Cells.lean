/-
Module: CilkL.Library.Cells
Layer: Library
Purpose: Arrays in fresh memory: a cell is not initialised, or null, or holds an item. The items of an array
  are the prefix that a list gives; loops that stop at the first null cell read exactly that list, and never
  a cell that is not initialised, where a null cell follows it.
Imports: Mathlib.Tactic.TypeStar
Trusted boundary: none
Main exports: Cell, items, getElem?_items, findNull, readItems
Open obligations: none
-/
import Mathlib.Tactic.TypeStar

namespace CilkL

/-- One place of an array. -/
inductive Cell (α : Type*) where
  | uninitialised
  | null
  | item (x : α)
deriving DecidableEq, Repr

variable {α : Type*}

/-- The cells of some items. -/
def items (l : List α) : List (Cell α) := l.map .item

@[simp] theorem length_items (l : List α) : (items l).length = l.length := List.length_map ..

@[simp] theorem items_nil : items ([] : List α) = [] := rfl

@[simp] theorem items_cons (x : α) (l : List α) : items (x :: l) = .item x :: items l := rfl

@[simp] theorem items_append (l l' : List α) : items (l ++ l') = items l ++ items l' := List.map_append

theorem items_set (l : List α) (i : Nat) (x : α) : items (l.set i x) = (items l).set i (.item x) :=
  List.map_set

/-- What a cell of the prefix holds. -/
theorem getElem?_items {l : List α} {rest : List (Cell α)} {i : Nat} (inside : i < l.length) :
    (items l ++ rest)[i]? = some (.item l[i]) := by
  rw [List.getElem?_append_left (by simpa using inside)]
  simp [items, inside]

/-- Cells of the prefix hold the items of the list. -/
theorem getElem?_items_iff {l : List α} {rest : List (Cell α)} {i : Nat} {x : α} (inside : i < l.length) :
    (items l ++ rest)[i]? = some (.item x) ↔ l[i]? = some x := by
  rw [getElem?_items inside, List.getElem?_eq_getElem inside]
  simp

/-- The index of the first null cell, if there is one; no result where the search reads a cell that is not
initialised. -/
def findNull : List (Cell α) → Option (Option Nat)
  | [] => some none
  | .null :: _ => some (some 0)
  | .item _ :: cells => (findNull cells).map (·.map (· + 1))
  | .uninitialised :: _ => none

/-- The search passes the items. -/
theorem findNull_items (l : List α) (cells : List (Cell α)) :
    findNull (items l ++ cells) = (findNull cells).map (·.map (· + l.length)) := by
  induction l with
  | nil => simp
  | cons x l ih =>
    simp only [items_cons, List.cons_append, findNull, ih, Option.map_map, List.length_cons]
    congr 1
    funext found
    cases found <;> simp [Nat.add_assoc]

/-- The items up to the first null cell; no result without one, or where a cell before it is not
initialised. -/
def readItems : List (Cell α) → Option (List α)
  | .null :: _ => some []
  | .item x :: cells => (readItems cells).map (x :: ·)
  | _ => none

theorem readItems_items (l : List α) (rest : List (Cell α)) :
    readItems (items l ++ .null :: rest) = some l := by
  induction l with
  | nil => rfl
  | cons x l ih => simp [readItems, ih]

end CilkL
