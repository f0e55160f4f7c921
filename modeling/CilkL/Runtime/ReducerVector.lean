/-
Module: CilkL.Runtime.ReducerVector
Layer: Runtime
Purpose: The views of the vector and the string reducers (`op_vector_view`, `op_basic_string_view`), and any
  number of views and of vectors or strings of the program, with the calls of a program in any order. The two
  classes have the same text but for `view_move_out`. A swap or a splice of containers with unequal allocators
  has no result, nor has a reduction of a view with itself.
Imports: CilkL.Library.Machine, CilkL.Runtime.Future, CilkL.Runtime.ReducerList
Trusted boundary: human-reviewed spec (translated from reducer_vector.h and reducer_string.h)
Main exports: PieceView, ViewClass, PieceOperation, pieceStep, pieceMachine
Open obligations: none
-/
import CilkL.Library.Machine
import CilkL.Runtime.Future
import CilkL.Runtime.ReducerList

namespace CilkL

/-- A view: the pieces that reductions collected in `m_list`, and `m_vector` or `m_string`. -/
structure PieceView (α A : Type) where
  list : List (List α)
  current : StdContainer α A
deriving DecidableEq, Repr

/-- The two classes. -/
inductive ViewClass where
  | vector
  | string
deriving DecidableEq, Repr

variable {α A ι κ : Type}

namespace PieceView

/-- `flatten`. -/
def flatten (view : PieceView α A) : PieceView α A :=
  if view.list.isEmpty then view
  else ⟨[], { view.current with elements := view.list.flatten ++ view.current.elements }⟩

/-- `push_back`, `append`, `insert_back` and `+=`. -/
def append (view : PieceView α A) (xs : List α) : PieceView α A :=
  { view with current := { view.current with elements := view.current.elements ++ xs } }

/-- `view_set_value`. -/
def viewSetValue (view : PieceView α A) (v : StdContainer α A) : PieceView α A := ⟨[], view.current.assign v⟩

/-- `view_get_value`, which flattens the view it returns the value of. -/
def viewGetValue (view : PieceView α A) : PieceView α A × List α := (view.flatten, view.flatten.current.elements)

variable [DecidableEq A]

/-- `reduce`. -/
def reduce (left other : PieceView α A) : Option (PieceView α A × PieceView α A) :=
  if other.current.elements.isEmpty ∧ other.list.isEmpty then some (left, other)
  else
    -- (list, vector) + (other list, other vector) => (list + {vector} + other list, other vector)
    let left := if left.current.elements.isEmpty then left
      else ⟨left.list ++ [left.current.elements], left.current.clear⟩
    (left.current.swap other.current).map fun (current, otherCurrent) =>
      (⟨left.list ++ other.list, current⟩, ⟨[], otherCurrent⟩)

/-- `view_move_in`. -/
def viewMoveIn (view : PieceView α A) (v : StdContainer α A) : Option (PieceView α A × StdContainer α A) :=
  if view.current.sameAllocator v then (view.current.swap v).map fun (current, v) => (⟨[], current⟩, v.clear)
  else some (⟨[], view.current.assign v⟩, v.clear)

/-- `op_vector_view::view_move_out`. -/
def vectorMoveOut (view : PieceView α A) (v : StdContainer α A) : Option (PieceView α A × StdContainer α A) :=
  let view := view.flatten
  if view.current.sameAllocator v then
    (view.current.swap v).map fun (current, v) => ({ view with current := current }, v)
  else some ({ view with current := view.current.clear }, v.assign view.current)

/-- `op_basic_string_view::view_move_out`. -/
def stringMoveOut (view : PieceView α A) (s : StdContainer α A) : Option (PieceView α A × StdContainer α A) :=
  let view := view.flatten
  if view.current.sameAllocator s then
    (view.current.swap s).map fun (current, s) => ({ view with current := current.clear }, s)
  else some ({ view with current := view.current.clear }, s.assign view.current)

/-- `view_move_out`. -/
def viewMoveOut : ViewClass → PieceView α A → StdContainer α A → Option (PieceView α A × StdContainer α A)
  | .vector => vectorMoveOut
  | .string => stringMoveOut

end PieceView

/-- Views, and the vectors or strings that values are moved from and to. -/
structure PieceState (ι κ α A : Type) where
  view : ι → PieceView α A
  container : κ → StdContainer α A
  /-- What `get_value` returned, where that was the last call. -/
  returned : Option (List α)

/-- The calls. -/
inductive PieceOperation (ι κ α : Type) where
  | append (v : ι) (xs : List α)
  | reduce (left right : ι)
  /-- Part of `get_value` and `move_out`. -/
  | flatten (v : ι)
  | getValue (v : ι)
  | setValue (v : ι) (c : κ)
  | moveIn (v : ι) (c : κ)
  | moveOut (v : ι) (c : κ)
deriving DecidableEq, Repr

variable [DecidableEq ι] [DecidableEq κ]

namespace PieceState

abbrev setView (s : PieceState ι κ α A) (v : ι) (view : PieceView α A) : PieceState ι κ α A :=
  { s with view := setAt s.view v view, returned := none }

abbrev setContainer (s : PieceState ι κ α A) (c : κ) (container : StdContainer α A) : PieceState ι κ α A :=
  { s with container := setAt s.container c container }

end PieceState

variable [DecidableEq A]

/-- One call on the views of one class. -/
def pieceStep (viewClass : ViewClass) (s : PieceState ι κ α A) :
    PieceOperation ι κ α → Option (PieceState ι κ α A)
  | .append v xs => some (s.setView v ((s.view v).append xs))
  | .reduce left right =>
      if left = right then none
      else ((s.view left).reduce (s.view right)).map fun (left', right') =>
        (s.setView left left').setView right right'
  | .flatten v => some (s.setView v (s.view v).flatten)
  | .getValue v =>
      let (view, value) := (s.view v).viewGetValue
      some { s.setView v view with returned := some value }
  | .setValue v c => some (s.setView v ((s.view v).viewSetValue (s.container c)))
  | .moveIn v c => ((s.view v).viewMoveIn (s.container c)).map fun (view, container) =>
      (s.setView v view).setContainer c container
  | .moveOut v c => ((s.view v).viewMoveOut viewClass (s.container c)).map fun (view, container) =>
      (s.setView v view).setContainer c container

variable (ι κ α A) in
/-- The views may hold anything at the start. -/
def pieceMachine (viewClass : ViewClass) : Machine (PieceState ι κ α A) (PieceOperation ι κ α) where
  start _ := True
  step := pieceStep viewClass

end CilkL
