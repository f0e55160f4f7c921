/-
Module: CilkL.Runtime.ReducerMap
Layer: Runtime
Purpose: Reducer maps (`reducer_impl.cpp`): the elements of the buckets as an association list from keys to
  views, one operation for all keys. A pointer to a map is an option, `NULL` is `none`. Every key of the
  leftmost map has its view from the creation of the reducer on, as for C++ reducers; the lazy creation
  of leftmost views is left out.
Imports: Mathlib.Algebra.Group.Pi.Basic, Mathlib.Data.List.AList
Trusted boundary: human-reviewed spec (translated from reducer_impl.cpp)
Main exports: ReducerMap, MergeKind, ReducerMap.merge, mergeReducerMaps, repeatedMergeReducerMaps,
  updateView
Open obligations: none
-/
import Mathlib.Algebra.Group.Pi.Basic
import Mathlib.Data.List.AList

namespace CilkL

/-- A `cilkred_map`. -/
structure ReducerMap (κ M : Type) where
  isLeftmost : Bool
  elems : AList fun _ : κ => M

/-- Whose object survives a merge: the left operand's or the right operand's. -/
inductive MergeKind where
  | intoLeft
  | intoRight
deriving DecidableEq, Repr

variable {κ M : Type}

/-- The number of elements. -/
def ReducerMap.nelem (map : ReducerMap κ M) : Nat := map.elems.keys.length

/-- `__cilkrts_make_reducer_map`. -/
def makeReducerMap : ReducerMap κ M := { isLeftmost := false, elems := ∅ }

variable [DecidableEq κ] [Monoid M]

/-- A strand looks its view up, creating the map and an identity view where they are missing, and applies
    the reducer's operation to it from the right. -/
def updateView (map : Option (ReducerMap κ M)) (key : κ) (value : M) : ReducerMap κ M :=
  let map := map.getD makeReducerMap
  { map with elems := map.elems.insert key ((map.elems.lookup key).getD 1 * value) }

/-- One element of the other map in `cilkred_map::merge`. -/
def mergeElem (kind : MergeKind) (this : AList fun _ : κ => M) (other : Sigma fun _ : κ => M) :
    AList fun _ : κ => M :=
  match this.lookup other.1, kind with
  | none, _ => this.insert other.1 other.2
  | some view, .intoLeft => this.insert other.1 (view * other.2)
  | some view, .intoRight => this.insert other.1 (other.2 * view)

/-- `cilkred_map::merge`. -/
def ReducerMap.merge (this other : ReducerMap κ M) (kind : MergeKind) : ReducerMap κ M :=
  { isLeftmost := this.isLeftmost || other.isLeftmost
    elems := other.elems.entries.foldl (mergeElem kind) this.elems }

/-- `merge_reducer_maps`. -/
def mergeReducerMaps (left right : Option (ReducerMap κ M)) : Option (ReducerMap κ M) :=
  match left, right with
  | none, right => right
  | left, none => left
  | some left, some right =>
      if left.isLeftmost ∨ left.nelem > right.nelem then some (left.merge right .intoLeft)
      else some (right.merge left .intoRight)

/-- `repeated_merge_reducer_maps`, with the maps that the reduce functions leave in `w->reducer_map`. -/
def repeatedMergeReducerMaps (left right : Option (ReducerMap κ M)) :
    List (ReducerMap κ M) → Option (ReducerMap κ M)
  | [] => mergeReducerMaps left right
  | new :: created => repeatedMergeReducerMaps (mergeReducerMaps left right) (some new) created

end CilkL
