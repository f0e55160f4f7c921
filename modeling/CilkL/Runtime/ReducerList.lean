/-
Module: CilkL.Runtime.ReducerList
Layer: Runtime
Purpose: The views of the list reducers (`list_view_base`, `op_list_append_view`, `op_list_prepend_view`) with
  what they use of `std::list`. A container has its elements and its allocator; allocators do not go with an
  assignment, and allocators that compare equal are one. An iterator is the number of elements before it.
  What the standard leaves undefined (an invalid iterator, a splice or a swap of containers with unequal
  allocators) has no result.
Imports: Mathlib.Tactic.TypeStar
Trusted boundary: human-reviewed spec (translated from reducer_list.h)
Main exports: StdContainer, ListViewOperation, ListViewOperation.run, ListViewOperation.stdList
Open obligations: none
-/
import Mathlib.Tactic.TypeStar

namespace CilkL

/-- A container of the standard library: a list, a vector or a string. -/
structure StdContainer (α A : Type) where
  elements : List α
  allocator : A
deriving DecidableEq, Repr

namespace StdContainer

variable {α A : Type}

def clear (c : StdContainer α A) : StdContainer α A := { c with elements := [] }

/-- `c = d`. -/
def assign (c d : StdContainer α A) : StdContainer α A := { c with elements := d.elements }

/-- `insert`, before the iterator `position`. -/
def insert (c : StdContainer α A) (position : Nat) (xs : List α) : StdContainer α A :=
  { c with elements := c.elements.take position ++ xs ++ c.elements.drop position }

/-- The elements between two iterators. -/
def range (c : StdContainer α A) (first last : Nat) : Option (List α) :=
  if first ≤ last ∧ last ≤ c.elements.length then some ((c.elements.take last).drop first) else none

/-- `erase(first, last)`. -/
def erase (c : StdContainer α A) (first last : Nat) : Option (StdContainer α A) :=
  if first ≤ last ∧ last ≤ c.elements.length then
    some { c with elements := c.elements.take first ++ c.elements.drop last }
  else none

variable [DecidableEq A]

abbrev sameAllocator (c d : StdContainer α A) : Prop := c.allocator = d.allocator

/-- `swap`. -/
def swap (c d : StdContainer α A) : Option (StdContainer α A × StdContainer α A) :=
  if c.sameAllocator d then some ({ c with elements := d.elements }, { d with elements := c.elements }) else none

/-- `splice(position, x, first, last)`; without the iterators it is all of `x`, with one of them that element. -/
def splice (c : StdContainer α A) (position : Nat) (x : StdContainer α A) (first last : Nat) :
    Option (StdContainer α A × StdContainer α A) :=
  if c.sameAllocator x then do
    let xs ← x.range first last
    let rest ← x.erase first last
    pure (c.insert position xs, rest)
  else none

end StdContainer

variable {α A : Type} [DecidableEq A]

/-! ### The functions of the views -/

/-- `view_move_in`. -/
def listViewMoveIn (view v : StdContainer α A) : Option (StdContainer α A × StdContainer α A) :=
  if view.sameAllocator v then (view.swap v).map fun (view, v) => (view, v.clear)
  else some (view.assign v, v.clear)

/-- `view_move_out`. -/
def listViewMoveOut (view v : StdContainer α A) : Option (StdContainer α A × StdContainer α A) :=
  if view.sameAllocator v then (view.swap v).map fun (view, v) => (view.clear, v)
  else some (view.clear, v.assign view)

/-- `insert_back` of what is between two iterators. -/
def insertBack (view : StdContainer α A) (xs : List α) : StdContainer α A := view.insert view.elements.length xs

/-- `insert_front` of what is between two iterators. -/
def insertFront (view : StdContainer α A) (xs : List α) : StdContainer α A := view.insert 0 xs

/-- `splice_back(x)`. -/
def spliceBack (view x : StdContainer α A) : Option (StdContainer α A × StdContainer α A) :=
  if x.sameAllocator view then view.splice view.elements.length x 0 x.elements.length
  else (x.range 0 x.elements.length).map fun xs => (insertBack view xs, x.clear)

/-- `splice_back(x, i)`. -/
def spliceBackAt (view x : StdContainer α A) (i : Nat) : Option (StdContainer α A × StdContainer α A) :=
  if x.sameAllocator view then view.splice view.elements.length x i (i + 1)
  else do
    let element ← x.elements[i]?
    let rest ← x.erase i (i + 1)
    pure (view.insert view.elements.length [element], rest)

/-- `splice_back(x, first, last)`. -/
def spliceBackRange (view x : StdContainer α A) (first last : Nat) :
    Option (StdContainer α A × StdContainer α A) :=
  if x.sameAllocator view then view.splice view.elements.length x first last
  else do
    let xs ← x.range first last
    let rest ← x.erase first last
    pure (insertBack view xs, rest)

/-- `splice_front(x)`; the copy is that of `insert_front(x.begin(), x.begin())`. -/
def spliceFront (view x : StdContainer α A) : Option (StdContainer α A × StdContainer α A) :=
  if x.sameAllocator view then view.splice 0 x 0 x.elements.length
  else (x.range 0 0).map fun xs => (insertFront view xs, x.clear)

/-- `splice_front(x, i)`. -/
def spliceFrontAt (view x : StdContainer α A) (i : Nat) : Option (StdContainer α A × StdContainer α A) :=
  if x.sameAllocator view then view.splice 0 x i (i + 1)
  else do
    let element ← x.elements[i]?
    let rest ← x.erase i (i + 1)
    pure (view.insert 0 [element], rest)

/-- `splice_front(x, first, last)`. -/
def spliceFrontRange (view x : StdContainer α A) (first last : Nat) :
    Option (StdContainer α A × StdContainer α A) :=
  if x.sameAllocator view then view.splice 0 x first last
  else do
    let xs ← x.range first last
    let rest ← x.erase first last
    pure (insertFront view xs, rest)

/-! ### All of them -/

/-- The functions that have a path for equal allocators and one for unequal ones. -/
inductive ListViewOperation where
  | viewMoveIn
  | viewMoveOut
  | spliceBack
  | spliceBackAt (i : Nat)
  | spliceBackRange (first last : Nat)
  | spliceFront
  | spliceFrontAt (i : Nat)
  | spliceFrontRange (first last : Nat)
deriving DecidableEq, Repr

namespace ListViewOperation

/-- The view and the other list after a call. -/
def run (view x : StdContainer α A) : ListViewOperation → Option (StdContainer α A × StdContainer α A)
  | viewMoveIn => listViewMoveIn view x
  | viewMoveOut => listViewMoveOut view x
  | spliceBack => CilkL.spliceBack view x
  | spliceBackAt i => CilkL.spliceBackAt view x i
  | spliceBackRange first last => CilkL.spliceBackRange view x first last
  | spliceFront => CilkL.spliceFront view x
  | spliceFrontAt i => CilkL.spliceFrontAt view x i
  | spliceFrontRange first last => CilkL.spliceFrontRange view x first last

/-- The iterators that are passed are iterators into the list. -/
def Valid (xs : List α) : ListViewOperation → Prop
  | spliceBackAt i | spliceFrontAt i => i < xs.length
  | spliceBackRange first last | spliceFrontRange first last => first ≤ last ∧ last ≤ xs.length
  | _ => True

/-- The elements of both lists after the operation of `std::list` that the comment on the function names. -/
def stdList (view xs : List α) : ListViewOperation → List α × List α
  | viewMoveIn => (xs, [])
  | viewMoveOut => ([], view)
  | spliceBack => (view ++ xs, [])
  | spliceBackAt i => (view ++ (xs.drop i).take 1, xs.eraseIdx i)
  | spliceBackRange first last => (view ++ (xs.take last).drop first, xs.take first ++ xs.drop last)
  | spliceFront => (xs ++ view, [])
  | spliceFrontAt i => ((xs.drop i).take 1 ++ view, xs.eraseIdx i)
  | spliceFrontRange first last => ((xs.take last).drop first ++ view, xs.take first ++ xs.drop last)

end ListViewOperation

end CilkL
