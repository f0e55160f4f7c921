/-
Module: CilkL.Runtime.ReducerTable
Layer: Runtime
Purpose: The hash table of a reducer map as it is in memory: a bucket is an array of `nmax + 1` elements in
  a block of the frame allocator, and the key 0 ends the elements of a bucket. A failed assertion, an access
  outside an array and a test of a key that was never written have no result. An element with the key 0 is a
  null cell, whatever else it holds. The field `hb` and the flag `merging` are left out.
Imports: CilkL.Library.Cells, CilkL.Library.Machine, CilkL.Runtime.CilkredMap, CilkL.Runtime.FrameMalloc
Trusted boundary: human-reviewed spec (translated from reducer_impl.cpp and frame_malloc.c)
Main exports: ReducerBucket, ReducerTable, ReducerTable.grow, ReducerTable.rehashAndInsert,
  ReducerTable.lookup, ReducerTable.hyperDestroy, tableMachine
Open obligations: none
-/
import CilkL.Library.Cells
import CilkL.Library.Machine
import CilkL.Runtime.CilkredMap
import CilkL.Runtime.FrameMalloc

namespace CilkL

/-- `bucket`. -/
structure ReducerBucket where
  nmax : Nat
  el : List (Cell Elem)
deriving DecidableEq, Repr

/-- `cilkred_map`. A null pointer to a bucket is `none`. -/
structure ReducerTable where
  nelem : Nat
  buckets : List (Option ReducerBucket)
deriving DecidableEq, Repr

/-- `nbuckets`. -/
def ReducerTable.nbuckets (table : ReducerTable) : Nat := table.buckets.length

/-- `sizeof(elem)`: three pointers. -/
def sizeofElem : Nat := 24

/-- `sizeof_bucket`: `nmax`, one element, and `nmax` more. -/
def sizeofBucket (nmax : Nat) : Nat := 8 + sizeofElem + nmax * sizeofElem

/-- `__cilkrts_frame_malloc_roundup`. -/
def frameMallocRoundup (size : Nat) : Option Nat :=
  if 2048 < size then some size else (bucketOfSize size).map bucketSize

/-- `roundup`. -/
def roundupBucket (nmax : Nat) : Option Nat :=
  (frameMallocRoundup (sizeofBucket nmax)).map fun size => (size - sizeofBucket 0) / sizeofElem

/-- `is_power_of_2`. -/
def isPowerOf2 (n : Nat) : Bool := n &&& (n - 1) = 0

namespace ReducerTable

/-- `make_buckets`. -/
def makeBuckets (newNbuckets : Nat) : Option ReducerTable :=
  if isPowerOf2 newNbuckets then some { nelem := 0, buckets := .replicate newNbuckets none } else none

/-- `need_rehash_p`. -/
def needRehashP (table : ReducerTable) : Bool := table.nbuckets < minsz table.nelem

/-- The reallocation in `grow`: the `nmax` elements of the old bucket, then null keys up to `nnmax`. -/
def reallocate (nmax : Nat) (el : List (Cell Elem)) : Option (ReducerBucket × Nat) :=
  (roundupBucket (2 * nmax)).bind fun nnmax =>
    -- the block holds `nnmax + 1` elements; both loops and the last store stay within it
    if nmax ≤ nnmax then
      some (⟨nnmax, el.take nmax ++ .replicate (nnmax - nmax) .null ++ [.null]⟩, nmax)
    else none

/-- `grow`: the bucket, and the index of the element it returns. -/
def grow (bp : Option ReducerBucket) : Option (ReducerBucket × Nat) :=
  match bp with
  | some b =>
      -- the last element is not used even if it is empty
      match findNull (b.el.take b.nmax) with
      | some (some i) => some (b, i)
      | some none => reallocate b.nmax b.el
      | none => none
  | none => reallocate 0 []

/-- `insert_no_rehash`. -/
def insertNoRehash (table : ReducerTable) (el : Elem) : Option ReducerTable :=
  let i := hashfun table.nbuckets el.key
  if el.key ≠ 0 ∧ el.view ≠ none then
    match table.buckets[i]? with
    | some bp =>
        match grow bp with
        | some (b, j) =>
            if j < b.el.length then
              some {
                nelem := table.nelem + 1
                buckets := table.buckets.set i (some { b with el := b.el.set j (.item el) }) }
            else none
        | none => none
    | none => none
  else none

/-- The inner loop of `rehash`, on one bucket of the old table. -/
def rehashBucket (table : ReducerTable) (bp : Option ReducerBucket) : Option ReducerTable :=
  match bp with
  | some b => (readItems b.el).bind fun els => els.foldlM insertNoRehash table
  | none => some table

/-- `rehash`. -/
def rehash (table : ReducerTable) : Option ReducerTable :=
  (makeBuckets (nextsz table.nbuckets)).bind fun fresh =>
    (table.buckets.foldlM rehashBucket fresh).bind fun rehashed =>
      -- `CILK_ASSERT(nelem == onelem)`
      if rehashed.nelem = table.nelem then some rehashed else none

/-- `rehash_and_insert`. -/
def rehashAndInsert (table : ReducerTable) (el : Elem) : Option ReducerTable :=
  if table.needRehashP then table.rehash.bind (insertNoRehash · el) else table.insertNoRehash el

/-- The loop of `lookup`: the index and the element that are found, up to the first null key. -/
def findKey (key : Nat) : List (Cell Elem) → Option (Option (Nat × Elem))
  | .null :: _ => some none
  | .item el :: cells =>
      if el.key = key then
        -- `CILK_ASSERT(el->view)`
        if el.view ≠ none then some (some (0, el)) else none
      else (findKey key cells).map (·.map fun found => (found.1 + 1, found.2))
  | _ => none

/-- `lookup`. -/
def lookup (table : ReducerTable) (key : Nat) : Option (Option (Nat × Elem)) :=
  match table.buckets[hashfun table.nbuckets key]? with
  | some (some b) => findKey key b.el
  | some none => some none
  | none => none

/-- The loop of `__cilkrts_hyper_destroy` from the element `el` on: `el[0] = el[1]`, then `++el`, while
there is a key. -/
def shiftDown : List (Cell Elem) → Option (List (Cell Elem))
  | _ :: .null :: cells => some (.null :: .null :: cells)
  | _ :: .item el :: cells => (shiftDown (.item el :: cells)).map (.item el :: ·)
  | _ => none

/-- `__cilkrts_hyper_destroy`, for a key whose element has the leftmost view; an error otherwise. -/
def hyperDestroy (table : ReducerTable) (key : Nat) : Option ReducerTable :=
  match table.lookup key, table.buckets[hashfun table.nbuckets key]? with
  | some (some (i, el)), some (some b) =>
      if el.isLeftmost then
        (shiftDown (b.el.drop i)).map fun cells =>
          { nelem := table.nelem - 1
            buckets := table.buckets.set (hashfun table.nbuckets key)
              (some { b with el := b.el.take i ++ cells }) }
      else none
  | _, _ => none

end ReducerTable

/-- A table and the elements inserted and not removed since, the last one first; no code reads these. -/
structure TableState where
  table : ReducerTable
  live : List Elem
deriving DecidableEq, Repr

/-- The operations. -/
inductive TableLabel where
  | insertNoRehash (el : Elem)
  | rehashAndInsert (el : Elem)
  | lookup (key : Nat)
  | hyperDestroy (key : Nat)
deriving DecidableEq, Repr

def tableStep (s : TableState) : TableLabel → Option TableState
  | .insertNoRehash el => (s.table.insertNoRehash el).map fun table => ⟨table, el :: s.live⟩
  | .rehashAndInsert el => (s.table.rehashAndInsert el).map fun table => ⟨table, el :: s.live⟩
  | .lookup key => (s.table.lookup key).map fun _ => s
  | .hyperDestroy key =>
      (s.table.hyperDestroy key).map fun table => ⟨table, s.live.filter fun el => el.key ≠ key⟩

/-- The operations on one map, from `__cilkrts_make_reducer_map` on. -/
def tableMachine : Machine TableState TableLabel where
  start s := ReducerTable.makeBuckets 1 = some s.table ∧ s.live = []
  step := tableStep

end CilkL
