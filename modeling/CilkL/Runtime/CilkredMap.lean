/-
Module: CilkL.Runtime.CilkredMap
Layer: Runtime
Purpose: The hash table behind a reducer map (`reducer_impl.cpp`) with the identities of its views: a
  view is an address, what it holds is in a store, and the calls of `reduce_fn`, of `destroy_fn` with
  `deallocate_fn` and of the functions that free a map are effects on that store. `merge` walks the
  buckets of the other map, moves or reduces its views, and destroys what is left in it.
  Left out: the fields `hb` (the hyperobject behind a key), `g` and `merging`, and the capacities of the
  buckets.
Imports: CilkL.Runtime.ReducerMap
Trusted boundary: human-reviewed spec (translated from reducer_impl.cpp)
Main exports: Elem, CilkredMap, CilkredMap.lookup, CilkredMap.rehashAndInsert, ViewStore,
  CilkredMap.merge, CilkredMap.mergeReducerMaps
Open obligations: none
-/
import CilkL.Runtime.ReducerMap

namespace CilkL

/-! ### The table -/

/-- `elem`: the key and the address of the view; `none` is a view that was moved elsewhere. -/
structure Elem where
  key : Nat
  view : Option Nat
deriving DecidableEq, Repr

/-- `get_leftmost_view`: the address of the leftmost view is the key. -/
def getLeftmostView (key : Nat) : Nat := key

/-- `elem::is_leftmost`. -/
def Elem.isLeftmost (el : Elem) : Bool := el.view = some (getLeftmostView el.key)

/-- `cilkred_map`. A bucket is the list of its elements up to the first null key. -/
structure CilkredMap where
  /-- The address of the map. -/
  self : Nat
  nelem : Nat
  buckets : List (List Elem)
  isLeftmost : Bool
deriving DecidableEq, Repr

/-- `nbuckets`. -/
def CilkredMap.nbuckets (map : CilkredMap) : Nat := map.buckets.length

/-- The elements in the order in which the loops over the buckets meet them. -/
def CilkredMap.elems (map : CilkredMap) : List Elem := map.buckets.flatten

/-- `hashfun` for a table of `nbuckets` buckets. -/
def hashfun (nbuckets key : Nat) : Nat :=
  let k := key
  let k := k ^^^ (k >>> 21)
  let k := k ^^^ (k >>> 8)
  let k := k ^^^ (k >>> 3)
  k &&& (nbuckets - 1)

/-- `minsz`. -/
def minsz (nelem : Nat) : Nat := 1 + nelem + nelem / 8

/-- `nextsz`. -/
def nextsz (nelem : Nat) : Nat := 2 * nelem

/-- `need_rehash_p`. -/
def CilkredMap.needRehashP (map : CilkredMap) : Bool := map.nbuckets < minsz map.nelem

/-- `make_buckets`. -/
def CilkredMap.makeBuckets (map : CilkredMap) (newNbuckets : Nat) : CilkredMap :=
  { map with buckets := List.replicate newNbuckets [], nelem := 0 }

/-- `insert_no_rehash`: `grow` makes room at the end of the bucket. -/
def CilkredMap.insertNoRehash (map : CilkredMap) (el : Elem) : CilkredMap :=
  { map with
    buckets := map.buckets.modify (hashfun map.nbuckets el.key) (· ++ [el])
    nelem := map.nelem + 1 }

/-- `rehash`. -/
def CilkredMap.rehash (map : CilkredMap) : CilkredMap :=
  map.elems.foldl insertNoRehash (map.makeBuckets (nextsz map.nbuckets))

/-- `rehash_and_insert`. -/
def CilkredMap.rehashAndInsert (map : CilkredMap) (el : Elem) : CilkredMap :=
  if map.needRehashP then map.rehash.insertNoRehash el else map.insertNoRehash el

/-- `lookup`. -/
def CilkredMap.lookup (map : CilkredMap) (key : Nat) : Option Elem :=
  (map.buckets[hashfun map.nbuckets key]?.getD []).find? fun el => el.key = key

/-- The store `this_el->view = view` through the element that `lookup` found for the key. -/
def CilkredMap.setView (map : CilkredMap) (key view : Nat) : CilkredMap :=
  { map with
    buckets := map.buckets.map fun bucket =>
      bucket.map fun el => if el.key = key then { el with view := some view } else el }

/-! ### Merging -/

/-- What the views hold, the views that `destroy_fn` and `deallocate_fn` were called on and the maps
    that were freed, each in the order of the calls. -/
structure ViewStore (M : Type) where
  value : Nat → M
  destroyed : List Nat
  freed : List Nat

section Merge

variable {M : Type} (reduceFn : Nat → M → M → M × M)

/-- A call of `reduce_fn` for the reducer `key`: it leaves the result in the left view and something in
    the right one. -/
def ViewStore.reduce (store : ViewStore M) (key left right : Nat) : ViewStore M :=
  let result := reduceFn key (store.value left) (store.value right)
  { store with
    value := Function.update (Function.update store.value right result.2) left result.1 }

/-- `elem::destroy`: the leftmost view belongs to the program. -/
def ViewStore.destroy (store : ViewStore M) (el : Elem) : ViewStore M :=
  match el.view with
  | some view =>
      if el.isLeftmost then store else { store with destroyed := store.destroyed ++ [view] }
  | none => store

/-- `__cilkrts_destroy_reducer_map`, for the elements the map has at the end of a merge. -/
def destroyReducerMap (store : ViewStore M) (map : CilkredMap) (elems : List Elem) : ViewStore M :=
  let store := elems.foldl ViewStore.destroy store
  { store with freed := store.freed ++ [map.self] }

/-- The part of the loop body of `merge` before the `switch`, on an element of the other map with the
    view `otherView`: the map and the view that this map then has for the key, `none` when the view was
    moved. -/
def CilkredMap.mergeLookup (this : CilkredMap) (key otherView : Nat) : CilkredMap × Option Nat :=
  match (this.lookup key).bind Elem.view with
  | some view => (this, some view)
  | none =>
      if this.isLeftmost ∧ getLeftmostView key ≠ otherView then
        (this.rehashAndInsert ⟨key, some (getLeftmostView key)⟩, some (getLeftmostView key))
      else (this.rehashAndInsert ⟨key, some otherView⟩, none)

/-- The loop body of `merge`: this map, the element of the other map and the store after it. -/
def CilkredMap.mergeElem (kind : MergeKind) (this : CilkredMap) (store : ViewStore M)
    (otherEl : Elem) : CilkredMap × Elem × ViewStore M :=
  match otherEl.view with
  -- The assertion that the element has a view fails.
  | none => (this, otherEl, store)
  | some otherView =>
      match this.mergeLookup otherEl.key otherView, kind with
      | (this, none), _ => (this, { otherEl with view := none }, store)
      | (this, some thisView), .intoLeft =>
          (this, otherEl, store.reduce reduceFn otherEl.key thisView otherView)
      | (this, some thisView), .intoRight =>
          -- Swap the views in order to preserve object identity.
          (this.setView otherEl.key otherView, { otherEl with view := some thisView },
            store.reduce reduceFn otherEl.key otherView thisView)

/-- The two nested loops of `merge`. -/
def CilkredMap.mergeElems (kind : MergeKind) (this : CilkredMap) (store : ViewStore M) :
    List Elem → CilkredMap × List Elem × ViewStore M
  | [] => (this, [], store)
  | otherEl :: rest =>
      let (this, otherEl, store) := this.mergeElem reduceFn kind store otherEl
      let (this, rest, store) := mergeElems kind this store rest
      (this, otherEl :: rest, store)

/-- `cilkred_map::merge`. -/
def CilkredMap.merge (this other : CilkredMap) (kind : MergeKind) (store : ViewStore M) :
    CilkredMap × ViewStore M :=
  let (merged, elems, store) := this.mergeElems reduceFn kind store other.elems
  ({ merged with isLeftmost := this.isLeftmost || other.isLeftmost },
    destroyReducerMap store other elems)

/-- `merge_reducer_maps`. A pointer to a map is an option. -/
def CilkredMap.mergeReducerMaps (left right : Option CilkredMap) (store : ViewStore M) :
    Option CilkredMap × ViewStore M :=
  match left, right with
  | none, right => (right, store)
  | some left, none => (some left, store)
  | some left, some right =>
      let (map, store) :=
        if left.isLeftmost ∨ left.nelem > right.nelem then
          left.merge reduceFn right .intoLeft store
        else right.merge reduceFn left .intoRight store
      (some map, store)

end Merge

end CilkL
