/-
Module: CilkL.Proofs.CilkredMap
Layer: Proofs
Purpose: The hash table of a reducer map implements a finite map from keys to views, and a merge in either
  direction gives each key the reduction of its two views in order. Insertions and rehashes permute the
  elements, so the table is read through the membership of its elements only.
Imports: CilkL.Proofs.ReducerMap, CilkL.Runtime.CilkredMap
Trusted boundary: none (fully proved)
Main exports: CilkredMap.WellFormed, CilkredMap.view, MergeOperands, mergeElems_spec, merge_spec,
  merge_reducer_maps_in_order, mergeReducerMaps_refines
Open obligations: none
-/
import CilkL.Proofs.ReducerMap
import CilkL.Runtime.CilkredMap

namespace CilkL

/-! ### The table as a finite map -/

theorem hashfun_lt {nbuckets : Nat} (nonempty : 0 < nbuckets) (key : Nat) :
    hashfun nbuckets key < nbuckets :=
  lt_of_le_of_lt Nat.and_le_right (Nat.sub_lt nonempty Nat.one_pos)

/-- Every element is in the bucket its key hashes to. -/
def CilkredMap.Hashed (map : CilkredMap) : Prop :=
  ∀ i bucket, map.buckets[i]? = some bucket → ∀ el ∈ bucket, hashfun map.nbuckets el.key = i

/-- What holds of a map between two operations. -/
structure CilkredMap.WellFormed (map : CilkredMap) : Prop where
  nonempty : 0 < map.nbuckets
  hashed : map.Hashed
  distinct : (map.elems.map Elem.key).Nodup
  present : ∀ el ∈ map.elems, el.view ≠ none
  count : map.nelem = map.elems.length

/-- The view of a key. -/
def CilkredMap.view (map : CilkredMap) (key : Nat) : Option Nat := (map.lookup key).bind Elem.view

/-- Appending to one list of a list of lists adds one element to the concatenation. -/
theorem flatten_modify_perm {α : Type} (x : α) :
    ∀ (lists : List (List α)) (i : Nat), i < lists.length →
      ((lists.modify i (· ++ [x])).flatten).Perm (x :: lists.flatten)
  | [], i, inside => absurd inside (Nat.not_lt_zero i)
  | list :: lists, 0, _ => by
      simp only [List.modify_zero_cons, List.flatten_cons, List.append_assoc, List.singleton_append]
      exact List.perm_middle
  | list :: lists, i + 1, inside => by
      simp only [List.modify_succ_cons, List.flatten_cons]
      have tail := flatten_modify_perm x lists i (Nat.lt_of_succ_lt_succ inside)
      exact (List.Perm.append_left list tail).trans List.perm_middle

@[simp] theorem nbuckets_insertNoRehash (map : CilkredMap) (el : Elem) :
    (map.insertNoRehash el).nbuckets = map.nbuckets := List.length_modify ..

theorem elems_insertNoRehash {map : CilkredMap} (nonempty : 0 < map.nbuckets) (el : Elem) :
    (map.insertNoRehash el).elems.Perm (el :: map.elems) :=
  flatten_modify_perm el map.buckets _ (hashfun_lt nonempty el.key)

theorem CilkredMap.Hashed.insertNoRehash {map : CilkredMap} (hashed : map.Hashed) (el : Elem) :
    (map.insertNoRehash el).Hashed := by
  intro i bucket found other member
  rw [nbuckets_insertNoRehash]
  simp only [CilkredMap.insertNoRehash, List.getElem?_modify] at found
  obtain ⟨old, oldFound, rfl⟩ := Option.map_eq_some_iff.1 found
  by_cases same : hashfun map.nbuckets el.key = i
  · rw [if_pos same] at member
    rcases List.mem_append.1 member with inOld | isNew
    · exact hashed i old oldFound other inOld
    · rw [List.mem_singleton.1 isNew, same]
  · rw [if_neg same] at member
    exact hashed i old oldFound other member

/-- Inserting a list of elements one after the other. -/
theorem foldl_insertNoRehash (els : List Elem) :
    ∀ (map : CilkredMap), 0 < map.nbuckets → map.Hashed →
      let inserted := els.foldl CilkredMap.insertNoRehash map
      inserted.nbuckets = map.nbuckets ∧ inserted.Hashed ∧
        inserted.elems.Perm (els ++ map.elems) ∧ inserted.nelem = map.nelem + els.length ∧
        inserted.isLeftmost = map.isLeftmost ∧ inserted.self = map.self := by
  induction els with
  | nil =>
      intro map nonempty hashed
      exact ⟨rfl, hashed, List.Perm.refl _, rfl, rfl, rfl⟩
  | cons el els ih =>
      intro map nonempty hashed
      have step := ih (map.insertNoRehash el) (by simpa using nonempty) (hashed.insertNoRehash el)
      obtain ⟨size, hashed', perm, count, leftmost, self⟩ := step
      refine ⟨by simpa using size, hashed', ?_, ?_, leftmost, self⟩
      · have added := List.Perm.append_left els (elems_insertNoRehash nonempty el)
        exact perm.trans (added.trans List.perm_middle)
      · rw [List.foldl_cons, count, List.length_cons]
        simp only [CilkredMap.insertNoRehash]
        omega

/-- A rehash keeps the elements. -/
theorem CilkredMap.WellFormed.rehash {map : CilkredMap} (valid : map.WellFormed) :
    0 < map.rehash.nbuckets ∧ map.rehash.Hashed ∧ map.rehash.elems.Perm map.elems ∧
      map.rehash.nelem = map.nelem ∧ map.rehash.isLeftmost = map.isLeftmost ∧
      map.rehash.self = map.self := by
  have nonempty : 0 < (map.makeBuckets (nextsz map.nbuckets)).nbuckets := by
    simp only [CilkredMap.nbuckets, CilkredMap.makeBuckets, List.length_replicate]
    exact Nat.mul_pos Nat.two_pos valid.nonempty
  have empty : (map.makeBuckets (nextsz map.nbuckets)).elems = [] := by
    simp [CilkredMap.elems, CilkredMap.makeBuckets]
  have hashed : (map.makeBuckets (nextsz map.nbuckets)).Hashed := by
    intro i bucket found el member
    have isEmpty := List.mem_of_getElem? found
    simp only [CilkredMap.makeBuckets] at isEmpty
    rw [List.eq_of_mem_replicate isEmpty] at member
    exact absurd member List.not_mem_nil
  obtain ⟨size, hashed', perm, count, leftmost, self⟩ :=
    foldl_insertNoRehash map.elems _ nonempty hashed
  rw [empty, List.append_nil] at perm
  refine ⟨by rw [CilkredMap.rehash, size]; exact nonempty, hashed', perm, ?_, leftmost, self⟩
  rw [CilkredMap.rehash, count, valid.count]
  simp [CilkredMap.makeBuckets]

/-- `rehash_and_insert` adds one element. -/
theorem CilkredMap.WellFormed.rehashAndInsert_elems {map : CilkredMap} (valid : map.WellFormed)
    (el : Elem) :
    let inserted := map.rehashAndInsert el
    0 < inserted.nbuckets ∧ inserted.Hashed ∧ inserted.elems.Perm (el :: map.elems) ∧
      inserted.nelem = map.nelem + 1 ∧ inserted.isLeftmost = map.isLeftmost ∧
      inserted.self = map.self := by
  unfold CilkredMap.rehashAndInsert
  split
  · obtain ⟨nonempty, hashed, perm, count, leftmost, self⟩ := valid.rehash
    exact ⟨by simpa using nonempty, hashed.insertNoRehash el,
      (elems_insertNoRehash nonempty el).trans (perm.cons el), congrArg (· + 1) count, leftmost, self⟩
  · exact ⟨by simpa using valid.nonempty, valid.hashed.insertNoRehash el,
      elems_insertNoRehash valid.nonempty el, rfl, rfl, rfl⟩

/-- `lookup` finds the element with the key. -/
theorem CilkredMap.WellFormed.lookup_eq_some {map : CilkredMap} (valid : map.WellFormed) {key : Nat}
    {el : Elem} : map.lookup key = some el ↔ el ∈ map.elems ∧ el.key = key := by
  have inBucket : ∀ found ∈ map.buckets[hashfun map.nbuckets key]?.getD [], found ∈ map.elems := by
    intro found member
    cases bucketEq : map.buckets[hashfun map.nbuckets key]? with
    | none => simp [bucketEq] at member
    | some bucket =>
        rw [bucketEq] at member
        exact List.mem_flatten.2 ⟨bucket, List.mem_of_getElem? bucketEq, member⟩
  constructor
  · intro found
    exact ⟨inBucket el (List.mem_of_find?_eq_some found), by simpa using List.find?_some found⟩
  · rintro ⟨member, keyEq⟩
    obtain ⟨bucket, bucketMember, inside⟩ := List.mem_flatten.1 member
    obtain ⟨i, bucketEq⟩ := List.getElem?_of_mem bucketMember
    have place := valid.hashed i bucket bucketEq el inside
    rw [keyEq] at place
    unfold CilkredMap.lookup
    rw [place, bucketEq, Option.getD_some]
    cases found : bucket.find? fun el => decide (el.key = key) with
    | none => exact absurd (List.find?_eq_none.1 found el inside) (by simp [keyEq])
    | some other =>
        have otherMember : other ∈ map.elems :=
          List.mem_flatten.2 ⟨bucket, bucketMember, List.mem_of_find?_eq_some found⟩
        have otherKey : other.key = key := by simpa using List.find?_some found
        rw [List.inj_on_of_nodup_map valid.distinct otherMember member (otherKey.trans keyEq.symm)]

theorem CilkredMap.WellFormed.view_eq_some {map : CilkredMap} (valid : map.WellFormed)
    {key view : Nat} : map.view key = some view ↔ ⟨key, some view⟩ ∈ map.elems := by
  constructor
  · intro found
    obtain ⟨el, lookupEq, viewEq⟩ := Option.bind_eq_some_iff.1 found
    obtain ⟨member, keyEq⟩ := valid.lookup_eq_some.1 lookupEq
    obtain ⟨elKey, elView⟩ := el
    simp only at keyEq viewEq
    rwa [keyEq, viewEq] at member
  · intro member
    rw [CilkredMap.view, valid.lookup_eq_some.2 ⟨member, rfl⟩, Option.bind_some]

theorem CilkredMap.WellFormed.view_eq_none {map : CilkredMap} (valid : map.WellFormed) {key : Nat} :
    map.view key = none ↔ ∀ el ∈ map.elems, el.key ≠ key := by
  constructor
  · rintro absent ⟨elKey, view⟩ member rfl
    cases view with
    | none => exact valid.present _ member rfl
    | some view => simp [valid.view_eq_some.2 member] at absent
  · intro absent
    cases found : map.view key with
    | none => rfl
    | some view => exact absurd rfl (absent _ (valid.view_eq_some.1 found))

/-- Maps with the same elements have the same views. -/
theorem CilkredMap.WellFormed.view_congr {map map' : CilkredMap} (valid : map.WellFormed)
    (valid' : map'.WellFormed) {key key' : Nat}
    (same : ∀ view, (⟨key, some view⟩ : Elem) ∈ map.elems ↔ ⟨key', some view⟩ ∈ map'.elems) :
    map.view key = map'.view key' := by
  ext view
  rw [valid.view_eq_some, valid'.view_eq_some]
  exact same view

/-- An insertion of a new key. -/
theorem CilkredMap.WellFormed.rehashAndInsert {map : CilkredMap} (valid : map.WellFormed)
    {key : Nat} (absent : map.view key = none) (view : Nat) :
    (map.rehashAndInsert ⟨key, some view⟩).WellFormed ∧
      (map.rehashAndInsert ⟨key, some view⟩).view = Function.update map.view key (some view) ∧
      (map.rehashAndInsert ⟨key, some view⟩).isLeftmost = map.isLeftmost ∧
      (map.rehashAndInsert ⟨key, some view⟩).self = map.self := by
  obtain ⟨nonempty, hashed, perm, count, leftmost, self⟩ :=
    valid.rehashAndInsert_elems ⟨key, some view⟩
  have fresh := valid.view_eq_none.1 absent
  have valid' : (map.rehashAndInsert ⟨key, some view⟩).WellFormed := by
    refine ⟨nonempty, hashed, ?_, ?_, ?_⟩
    · rw [(perm.map Elem.key).nodup_iff, List.map_cons, List.nodup_cons]
      refine ⟨?_, valid.distinct⟩
      intro member
      obtain ⟨el, elMember, keyEq⟩ := List.mem_map.1 member
      exact fresh el elMember keyEq
    · intro el member
      rcases List.mem_cons.1 (perm.mem_iff.1 member) with rfl | old
      · simp
      · exact valid.present el old
    · rw [count, perm.length_eq, List.length_cons, valid.count]
  refine ⟨valid', ?_, leftmost, self⟩
  funext other
  by_cases same : other = key
  · subst same
    rw [Function.update_self, valid'.view_eq_some]
    exact perm.mem_iff.2 List.mem_cons_self
  · rw [Function.update_of_ne same]
    apply valid'.view_congr valid
    intro view'
    rw [perm.mem_iff, List.mem_cons]
    simp [same]

/-- Storing the view of a key that the map has. -/
theorem CilkredMap.WellFormed.setView {map : CilkredMap} (valid : map.WellFormed) {key old : Nat}
    (had : map.view key = some old) (view : Nat) :
    (map.setView key view).WellFormed ∧
      (map.setView key view).view = Function.update map.view key (some view) := by
  let store : Elem → Elem := fun el => if el.key = key then { el with view := some view } else el
  have storeKey : ∀ el, (store el).key = el.key := by
    intro el
    simp only [store]
    split <;> rfl
  have elemsEq : (map.setView key view).elems = map.elems.map store := by
    simp only [CilkredMap.elems, CilkredMap.setView, List.map_flatten, store]
  have size : (map.setView key view).nbuckets = map.nbuckets := List.length_map ..
  have valid' : (map.setView key view).WellFormed := by
    refine ⟨size ▸ valid.nonempty, ?_, ?_, ?_, ?_⟩
    · intro i bucket found el member
      simp only [CilkredMap.setView, List.getElem?_map] at found
      obtain ⟨oldBucket, oldFound, rfl⟩ := Option.map_eq_some_iff.1 found
      obtain ⟨oldEl, oldMember, rfl⟩ := List.mem_map.1 member
      rw [size]
      have place := valid.hashed i oldBucket oldFound oldEl oldMember
      rw [← storeKey oldEl] at place
      exact place
    · rw [elemsEq, List.map_map]
      have keys : Elem.key ∘ store = Elem.key := funext storeKey
      rw [keys]
      exact valid.distinct
    · intro el member
      rw [elemsEq] at member
      obtain ⟨oldEl, oldMember, rfl⟩ := List.mem_map.1 member
      by_cases same : oldEl.key = key
      · simp [store, same]
      · simp only [store, if_neg same]
        exact valid.present oldEl oldMember
    · rw [elemsEq, List.length_map]
      exact valid.count
  refine ⟨valid', ?_⟩
  funext other
  by_cases same : other = key
  · subst same
    rw [Function.update_self, valid'.view_eq_some, elemsEq]
    exact List.mem_map.2 ⟨_, valid.view_eq_some.1 had, by simp [store]⟩
  · rw [Function.update_of_ne same]
    apply valid'.view_congr valid
    intro view'
    rw [elemsEq, List.mem_map]
    constructor
    · rintro ⟨oldEl, oldMember, storeEq⟩
      have keyEq : oldEl.key = other := by rw [← storeKey oldEl, storeEq]
      have kept : store oldEl = oldEl := if_neg (by rw [keyEq]; exact same)
      rw [kept] at storeEq
      rwa [← storeEq]
    · intro oldMember
      exact ⟨_, oldMember, if_neg same⟩

/-! ### What a merge computes for one key -/

/-- The left operand of a reduction when this map has `this` and the other map has `other`. -/
def MergeKind.left {α : Type} (kind : MergeKind) (this other : α) : α :=
  match kind with
  | .intoLeft => this
  | .intoRight => other

/-- The right operand of a reduction. -/
def MergeKind.right {α : Type} (kind : MergeKind) (this other : α) : α :=
  match kind with
  | .intoLeft => other
  | .intoRight => this

/-- The view that the merged map has for a key with the views `left` and `right`. -/
def mergedView (leftmost : Bool) (key : Nat) (left right : Option Nat) : Option Nat :=
  match left, right with
  | some view, _ => some view
  | none, some view => if leftmost then some (getLeftmostView key) else some view
  | none, none => none

/-- The view that is reduced into another one. -/
def consumedView (leftmost : Bool) (key : Nat) (left right : Option Nat) : Option Nat :=
  match left, right with
  | some _, some view => some view
  | none, some view => if leftmost ∧ getLeftmostView key ≠ view then some view else none
  | _, none => none

section Merge

variable {M : Type} (reduceFn : Nat → M → M → M × M)

/-- What the merged view holds: the left value reduced with the right one where there are two, for a
    leftmost left map also when only the right map has the key, but never a view with itself. -/
def mergedValue (value : Nat → M) (leftmost : Bool) (key : Nat) (left right : Option Nat) : Option M :=
  match left, right with
  | some left, some right => some (reduceFn key (value left) (value right)).1
  | some left, none => some (value left)
  | none, some right =>
      if leftmost ∧ getLeftmostView key ≠ right then
        some (reduceFn key (value (getLeftmostView key)) (value right)).1
      else some (value right)
  | none, none => none

variable {reduceFn}

theorem ViewStore.reduce_left (store : ViewStore M) (key left right : Nat) :
    (store.reduce reduceFn key left right).value left =
      (reduceFn key (store.value left) (store.value right)).1 := by
  simp [ViewStore.reduce]

theorem ViewStore.reduce_other (store : ViewStore M) (key : Nat) {left right addr : Nat}
    (notLeft : addr ≠ left) (notRight : addr ≠ right) :
    (store.reduce reduceFn key left right).value addr = store.value addr := by
  simp [ViewStore.reduce, notLeft, notRight]

/-- Every view of the map belongs to the reducer it is found under. -/
def CilkredMap.Owned (reducerOf : Nat → Nat) (map : CilkredMap) : Prop :=
  ∀ key view, map.view key = some view → reducerOf view = key

/-- An element that a merge may meet in the other map. -/
structure Mergeable (reducerOf : Nat → Nat) (this : CilkredMap) (el : Elem) (view : Nat) : Prop where
  hasView : el.view = some view
  owned : reducerOf view = el.key
  leftmost_owned : reducerOf (getLeftmostView el.key) = el.key
  separate : this.view el.key ≠ some view

/-- What one round of the loop of `merge` has done. -/
structure ElemMerged (reduceFn : Nat → M → M → M × M) (kind : MergeKind) (reducerOf : Nat → Nat)
    (this : CilkredMap) (store : ViewStore M) (el : Elem) (this' : CilkredMap) (out : Elem)
    (store' : ViewStore M) : Prop where
  valid : this'.WellFormed
  isLeftmost : this'.isLeftmost = this.isLeftmost
  self : this'.self = this.self
  view : this'.view = Function.update this.view el.key (mergedView this.isLeftmost el.key
    (kind.left (this.view el.key) el.view) (kind.right (this.view el.key) el.view))
  value : (this'.view el.key).map store'.value = mergedValue reduceFn store.value this.isLeftmost el.key
    (kind.left (this.view el.key) el.view) (kind.right (this.view el.key) el.view)
  out : out = ⟨el.key, consumedView this.isLeftmost el.key
    (kind.left (this.view el.key) el.view) (kind.right (this.view el.key) el.view)⟩
  others : ∀ addr, reducerOf addr ≠ el.key → store'.value addr = store.value addr
  destroyed : store'.destroyed = store.destroyed
  freed : store'.freed = store.freed

variable (reduceFn) in
theorem mergeElem_spec {kind : MergeKind} {reducerOf : Nat → Nat} {this : CilkredMap}
    (store : ViewStore M) {el : Elem} {view : Nat} (valid : this.WellFormed)
    (owned : this.Owned reducerOf) (mergeable : Mergeable reducerOf this el view)
    (direction : kind = .intoRight → this.isLeftmost = false) :
    ElemMerged reduceFn kind reducerOf this store el (this.mergeElem reduceFn kind store el).1
      (this.mergeElem reduceFn kind store el).2.1 (this.mergeElem reduceFn kind store el).2.2 := by
  obtain ⟨key, elView⟩ := el
  obtain ⟨hasView, viewOwned, leftmostOwned, separate⟩ := mergeable
  simp only at hasView viewOwned leftmostOwned separate
  subst hasView
  have lookupEq : (this.lookup key).bind Elem.view = this.view key := rfl
  cases found : this.view key with
  | none =>
      obtain ⟨inserted, insertedView, insertedLeftmost, insertedSelf⟩ :=
        valid.rehashAndInsert found view
      by_cases lazily : this.isLeftmost = true ∧ getLeftmostView key ≠ view
      · -- The leftmost view is created and the other view reduced into it.
        obtain ⟨inserted, insertedView, insertedLeftmost, insertedSelf⟩ :=
          valid.rehashAndInsert found (getLeftmostView key)
        cases kind with
        | intoRight => simp [direction rfl] at lazily
        | intoLeft =>
            simp only [CilkredMap.mergeElem, CilkredMap.mergeLookup, lookupEq, found, if_pos lazily]
            refine ⟨inserted, insertedLeftmost, insertedSelf, ?_, ?_, ?_, ?_, rfl, rfl⟩
            · simp [insertedView, MergeKind.left, MergeKind.right, mergedView, found, lazily.1]
            · simp [insertedView, MergeKind.left, MergeKind.right, mergedValue, found, lazily,
                ViewStore.reduce_left]
            · simp [MergeKind.left, MergeKind.right, consumedView, found, lazily]
            · intro addr other
              apply ViewStore.reduce_other
              · rintro rfl
                exact other leftmostOwned
              · rintro rfl
                exact other viewOwned
      · -- The view moves.
        simp only [CilkredMap.mergeElem, CilkredMap.mergeLookup, lookupEq, found, if_neg lazily]
        have sameView : this.isLeftmost = true → getLeftmostView key = view := by
          intro leftmost
          by_contra differ
          exact lazily ⟨leftmost, differ⟩
        refine ⟨inserted, insertedLeftmost, insertedSelf, ?_, ?_, ?_, fun _ _ => rfl, rfl, rfl⟩
        · rw [insertedView]
          cases kind with
          | intoLeft =>
              by_cases leftmost : this.isLeftmost = true
              · simp [MergeKind.left, MergeKind.right, mergedView, found, leftmost, sameView leftmost]
              · simp [MergeKind.left, MergeKind.right, mergedView, found, leftmost]
          | intoRight => simp [MergeKind.left, mergedView]
        · rw [insertedView]
          cases kind with
          | intoLeft => simp [MergeKind.left, MergeKind.right, mergedValue, found, lazily]
          | intoRight => simp [MergeKind.left, MergeKind.right, mergedValue, found]
        · cases kind with
          | intoLeft => simp [MergeKind.left, MergeKind.right, consumedView, found, lazily]
          | intoRight => simp [MergeKind.left, MergeKind.right, consumedView, found]
  | some thisView =>
      have thisOwned : reducerOf thisView = key := owned key thisView found
      have differ : thisView ≠ view := by
        rintro rfl
        exact separate found
      cases kind with
      | intoLeft =>
          simp only [CilkredMap.mergeElem, CilkredMap.mergeLookup, lookupEq, found]
          refine ⟨valid, rfl, rfl, ?_, ?_, ?_, ?_, rfl, rfl⟩
          · simp only [MergeKind.left, mergedView, found]
            rw [← found, Function.update_eq_self]
          · simp [MergeKind.left, MergeKind.right, mergedValue, found, ViewStore.reduce_left]
          · simp [MergeKind.left, MergeKind.right, consumedView, found]
          · intro addr other
            apply ViewStore.reduce_other
            · rintro rfl
              exact other thisOwned
            · rintro rfl
              exact other viewOwned
      | intoRight =>
          obtain ⟨stored, storedView⟩ := valid.setView found view
          simp only [CilkredMap.mergeElem, CilkredMap.mergeLookup, lookupEq, found]
          refine ⟨stored, rfl, rfl, ?_, ?_, ?_, ?_, rfl, rfl⟩
          · simp [storedView, MergeKind.left, mergedView]
          · simp [storedView, MergeKind.left, MergeKind.right, mergedValue, found,
              ViewStore.reduce_left]
          · simp [MergeKind.left, MergeKind.right, consumedView, found]
          · intro addr other
            apply ViewStore.reduce_other
            · rintro rfl
              exact other viewOwned
            · rintro rfl
              exact other thisOwned

/-! ### The loops of `merge` -/

/-- The view of a key among the elements the loops still have to meet. -/
def viewIn (els : List Elem) (key : Nat) : Option Nat :=
  (els.find? fun el => el.key = key).bind Elem.view

theorem viewIn_cons_self (el : Elem) (els : List Elem) : viewIn (el :: els) el.key = el.view := by
  simp [viewIn]

theorem viewIn_cons_of_ne {el : Elem} {key : Nat} (differ : key ≠ el.key) (els : List Elem) :
    viewIn (el :: els) key = viewIn els key := by
  simp [viewIn, differ.symm]

theorem viewIn_eq_none {els : List Elem} {key : Nat} (absent : ∀ el ∈ els, el.key ≠ key) :
    viewIn els key = none := by
  have notFound : els.find? (fun el => decide (el.key = key)) = none := by
    simpa [List.find?_eq_none] using absent
  simp [viewIn, notFound]

theorem viewIn_eq_some {els : List Elem} {key view : Nat} (found : viewIn els key = some view) :
    ∃ el ∈ els, el.key = key ∧ el.view = some view := by
  obtain ⟨el, findEq, viewEq⟩ := Option.bind_eq_some_iff.1 found
  exact ⟨el, List.mem_of_find?_eq_some findEq, by simpa using List.find?_some findEq, viewEq⟩

/-- What the loops of `merge` have done after the elements `els`. -/
structure ElemsMerged (reduceFn : Nat → M → M → M × M) (kind : MergeKind) (reducerOf : Nat → Nat)
    (this : CilkredMap) (store : ViewStore M) (els : List Elem) (this' : CilkredMap)
    (outs : List Elem) (store' : ViewStore M) : Prop where
  valid : this'.WellFormed
  isLeftmost : this'.isLeftmost = this.isLeftmost
  self : this'.self = this.self
  view : ∀ key, this'.view key = mergedView this.isLeftmost key
    (kind.left (this.view key) (viewIn els key)) (kind.right (this.view key) (viewIn els key))
  value : ∀ key, (this'.view key).map store'.value = mergedValue reduceFn store.value this.isLeftmost
    key (kind.left (this.view key) (viewIn els key)) (kind.right (this.view key) (viewIn els key))
  outs : outs = els.map fun el => ⟨el.key, consumedView this.isLeftmost el.key
    (kind.left (this.view el.key) el.view) (kind.right (this.view el.key) el.view)⟩
  others : ∀ addr, (∀ el ∈ els, reducerOf addr ≠ el.key) → store'.value addr = store.value addr
  destroyed : store'.destroyed = store.destroyed
  freed : store'.freed = store.freed

/-- The merged value depends on the views of one reducer. -/
theorem mergedValue_congr {value value' : Nat → M} {reducerOf : Nat → Nat} {leftmost : Bool}
    {key : Nat} {left right : Option Nat}
    (same : ∀ addr, reducerOf addr = key → value' addr = value addr)
    (leftOwned : ∀ view, left = some view → reducerOf view = key)
    (rightOwned : ∀ view, right = some view → reducerOf view = key)
    (leftmostOwned : leftmost = true → right ≠ none → reducerOf (getLeftmostView key) = key) :
    mergedValue reduceFn value' leftmost key left right =
      mergedValue reduceFn value leftmost key left right := by
  cases left with
  | some left =>
      have leftSame := same left (leftOwned left rfl)
      cases right with
      | some right => simp [mergedValue, leftSame, same right (rightOwned right rfl)]
      | none => simp [mergedValue, leftSame]
  | none =>
      cases right with
      | none => rfl
      | some right =>
          have rightSame := same right (rightOwned right rfl)
          by_cases lazily : leftmost = true ∧ getLeftmostView key ≠ right
          · have leftmostSame := same _ (leftmostOwned lazily.1 (by simp))
            simp [mergedValue, lazily, rightSame, leftmostSame]
          · simp [mergedValue, lazily, rightSame]

theorem MergeKind.operands_some_none {kind : MergeKind} {leftmost : Bool}
    (direction : kind = .intoRight → leftmost = false) (key view : Nat) :
    mergedView leftmost key (kind.left (some view) none) (kind.right (some view) none) =
      some view := by
  cases kind with
  | intoLeft => rfl
  | intoRight => simp [MergeKind.left, MergeKind.right, mergedView, direction rfl]

theorem MergeKind.value_some_none {kind : MergeKind} {leftmost : Bool}
    (direction : kind = .intoRight → leftmost = false) (value : Nat → M) (key view : Nat) :
    mergedValue reduceFn value leftmost key (kind.left (some view) none)
      (kind.right (some view) none) = some (value view) := by
  cases kind with
  | intoLeft => rfl
  | intoRight => simp [MergeKind.left, MergeKind.right, mergedValue, direction rfl]

theorem MergeKind.left_or_right {α : Type} (kind : MergeKind) (this other : α) :
    kind.left this other = this ∧ kind.right this other = other ∨
      kind.left this other = other ∧ kind.right this other = this := by
  cases kind with
  | intoLeft => exact .inl ⟨rfl, rfl⟩
  | intoRight => exact .inr ⟨rfl, rfl⟩

/-- A merged key has a view. -/
theorem mergedView_isSome (kind : MergeKind) (leftmost : Bool) (key : Nat) (this : Option Nat)
    (view : Nat) :
    ∃ merged, mergedView leftmost key (kind.left this (some view)) (kind.right this (some view)) =
      some merged := by
  cases kind <;> cases this <;> cases leftmost <;>
    simp [MergeKind.left, MergeKind.right, mergedView]

/-- The merged view belongs to its reducer. -/
theorem mergedView_owned {kind : MergeKind} {reducerOf : Nat → Nat} {this : CilkredMap} {el : Elem}
    {view : Nat} (leftmost : Bool) (owned : this.Owned reducerOf)
    (mergeable : Mergeable reducerOf this el view) {merged : Nat}
    (isMerged : mergedView leftmost el.key (kind.left (this.view el.key) el.view)
      (kind.right (this.view el.key) el.view) = some merged) :
    reducerOf merged = el.key := by
  have thisOwned := owned el.key
  have viewOwned := mergeable.owned
  have leftmostOwned := mergeable.leftmost_owned
  rw [mergeable.hasView] at isMerged
  cases kind <;> cases found : this.view el.key <;> cases leftmost <;>
    simp [MergeKind.left, MergeKind.right, mergedView, found] at isMerged <;> subst isMerged <;>
    first | exact viewOwned | exact leftmostOwned | exact thisOwned _ found

variable (reduceFn) in
theorem mergeElems_spec (kind : MergeKind) {reducerOf : Nat → Nat} :
    ∀ (els : List Elem) (this : CilkredMap) (store : ViewStore M), this.WellFormed →
      this.Owned reducerOf → (els.map Elem.key).Nodup →
      (∀ el ∈ els, ∃ view, Mergeable reducerOf this el view) →
      (kind = .intoRight → this.isLeftmost = false) →
      ElemsMerged reduceFn kind reducerOf this store els (this.mergeElems reduceFn kind store els).1
        (this.mergeElems reduceFn kind store els).2.1
        (this.mergeElems reduceFn kind store els).2.2 := by
  intro els
  induction els with
  | nil =>
      intro this store valid _ _ _ direction
      refine ⟨valid, rfl, rfl, ?_, ?_, rfl, fun _ _ => rfl, rfl, rfl⟩
      · intro key
        simp only [CilkredMap.mergeElems, viewIn, List.find?_nil, Option.bind_none]
        cases found : this.view key with
        | none => cases kind <;> rfl
        | some view => rw [MergeKind.operands_some_none direction]
      · intro key
        simp only [CilkredMap.mergeElems, viewIn, List.find?_nil, Option.bind_none]
        cases found : this.view key with
        | none => cases kind <;> rfl
        | some view => rw [MergeKind.value_some_none direction, Option.map_some]
  | cons el els ih =>
      intro this store valid owned distinct mergeable direction
      obtain ⟨view, elMergeable⟩ := mergeable el List.mem_cons_self
      have first := mergeElem_spec reduceFn store valid owned elMergeable direction
      generalize stepEq : this.mergeElem reduceFn kind store el = step at first
      obtain ⟨this₁, out, store₁⟩ := step
      simp only at first
      obtain ⟨fresh, distinct⟩ := List.nodup_cons.1 distinct
      have freshKey : ∀ other ∈ els, other.key ≠ el.key := fun other member same =>
        fresh (List.mem_map.2 ⟨other, member, same⟩)
      have keptView : ∀ key, key ≠ el.key → this₁.view key = this.view key := by
        intro key differ
        rw [first.view, Function.update_of_ne differ]
      obtain ⟨merged, mergedEq⟩ := mergedView_isSome kind this.isLeftmost el.key
        (this.view el.key) view
      rw [← elMergeable.hasView] at mergedEq
      have newView : this₁.view el.key = some merged := by
        rw [first.view, Function.update_self, mergedEq]
      have owned₁ : this₁.Owned reducerOf := by
        intro key keyView found
        by_cases same : key = el.key
        · subst same
          rw [newView, Option.some.injEq] at found
          subst found
          exact mergedView_owned this.isLeftmost owned elMergeable mergedEq
        · rw [keptView key same] at found
          exact owned key keyView found
      have mergeable₁ : ∀ other ∈ els, ∃ view, Mergeable reducerOf this₁ other view := by
        intro other member
        obtain ⟨otherView, otherMergeable⟩ := mergeable other (List.mem_cons_of_mem el member)
        refine ⟨otherView, otherMergeable.hasView, otherMergeable.owned,
          otherMergeable.leftmost_owned, ?_⟩
        rw [keptView _ (freshKey other member)]
        exact otherMergeable.separate
      have direction₁ : kind = .intoRight → this₁.isLeftmost = false := by
        rw [first.isLeftmost]
        exact direction
      have rest := ih this₁ store₁ first.valid owned₁ distinct mergeable₁ direction₁
      simp only [CilkredMap.mergeElems, stepEq]
      refine ⟨rest.valid, rest.isLeftmost.trans first.isLeftmost, rest.self.trans first.self,
        ?_, ?_, ?_, ?_, rest.destroyed.trans first.destroyed, rest.freed.trans first.freed⟩
      · intro key
        rw [rest.view key]
        by_cases same : key = el.key
        · subst same
          rw [viewIn_eq_none freshKey, viewIn_cons_self, newView,
            MergeKind.operands_some_none direction₁, mergedEq]
        · rw [keptView key same, viewIn_cons_of_ne same, first.isLeftmost]
      · intro key
        rw [rest.value key]
        by_cases same : key = el.key
        · subst same
          rw [viewIn_eq_none freshKey, viewIn_cons_self, newView,
            MergeKind.value_some_none direction₁, ← first.value, newView, Option.map_some]
        · rw [keptView key same, viewIn_cons_of_ne same, first.isLeftmost]
          have inOwned : ∀ view, viewIn els key = some view → reducerOf view = key := by
            intro view found
            obtain ⟨other, member, keyEq, viewEq⟩ := viewIn_eq_some found
            obtain ⟨otherView, otherMergeable⟩ := mergeable other (List.mem_cons_of_mem el member)
            rw [otherMergeable.hasView, Option.some.injEq] at viewEq
            rw [← viewEq, otherMergeable.owned, keyEq]
          have sameValue : ∀ addr, reducerOf addr = key → store₁.value addr = store.value addr := by
            intro addr addrOwned
            exact first.others addr (by rw [addrOwned]; exact same)
          apply mergedValue_congr sameValue
          · rcases kind.left_or_right (this.view key) (viewIn els key) with ⟨eq, -⟩ | ⟨eq, -⟩
            · rw [eq]
              exact owned key
            · rw [eq]
              exact inOwned
          · rcases kind.left_or_right (this.view key) (viewIn els key) with ⟨-, eq⟩ | ⟨-, eq⟩
            · rw [eq]
              exact inOwned
            · rw [eq]
              exact owned key
          · intro leftmost hasRight
            cases kind with
            | intoRight => simp [direction rfl] at leftmost
            | intoLeft =>
                obtain ⟨view, found⟩ := Option.ne_none_iff_exists'.1 hasRight
                obtain ⟨other, member, keyEq, -⟩ := viewIn_eq_some found
                obtain ⟨otherView, otherMergeable⟩ :=
                  mergeable other (List.mem_cons_of_mem el member)
                rw [← keyEq]
                exact otherMergeable.leftmost_owned
      · rw [rest.outs, first.out, List.map_cons]
        congr 1
        apply List.map_congr_left
        intro other member
        rw [keptView _ (freshKey other member), first.isLeftmost]
      · intro addr foreign
        rw [rest.others addr fun other member => foreign other (List.mem_cons_of_mem el member)]
        exact first.others addr (foreign el List.mem_cons_self)

/-! ### `merge` and `merge_reducer_maps` -/

/-- The view that `elem::destroy` destroys. -/
def Elem.destroyedView (el : Elem) : Option Nat := if el.isLeftmost then none else el.view

theorem foldl_destroy (els : List Elem) (store : ViewStore M) :
    els.foldl ViewStore.destroy store =
      { store with destroyed := store.destroyed ++ els.filterMap Elem.destroyedView } := by
  induction els generalizing store with
  | nil => simp
  | cons el els ih =>
      rw [List.foldl_cons, ih]
      cases viewEq : el.view with
      | none => simp [ViewStore.destroy, Elem.destroyedView, viewEq]
      | some view =>
          by_cases leftmost : el.isLeftmost = true
          · simp [ViewStore.destroy, Elem.destroyedView, viewEq, leftmost]
          · simp [ViewStore.destroy, Elem.destroyedView, viewEq, leftmost]

/-- Two maps that `merge_reducer_maps` is called with. Every view is an object of its own and belongs to
    one reducer, as the leftmost view at the reducer's key does. -/
structure MergeOperands where
  left : CilkredMap
  right : CilkredMap
  /-- The reducer a view belongs to. -/
  reducerOf : Nat → Nat
  left_wellFormed : left.WellFormed
  right_wellFormed : right.WellFormed
  right_not_leftmost : right.isLeftmost = false
  left_owned : left.Owned reducerOf
  right_owned : right.Owned reducerOf
  leftmost_owned : ∀ key, left.view key ≠ none ∨ right.view key ≠ none →
    reducerOf (getLeftmostView key) = key
  separate : ∀ key view, left.view key = some view → right.view key ≠ some view

/-- The object that survives and the one that is destroyed. -/
def MergeOperands.this (operands : MergeOperands) (kind : MergeKind) : CilkredMap :=
  kind.left operands.left operands.right

def MergeOperands.other (operands : MergeOperands) (kind : MergeKind) : CilkredMap :=
  kind.right operands.left operands.right

/-- What a merge in either direction has done. -/
structure Merged (reduceFn : Nat → M → M → M × M) (operands : MergeOperands) (kind : MergeKind)
    (store : ViewStore M) (map : CilkredMap) (store' : ViewStore M) : Prop where
  direction : kind = .intoRight → operands.left.isLeftmost = false
  valid : map.WellFormed
  isLeftmost : map.isLeftmost = operands.left.isLeftmost
  self : map.self = (operands.this kind).self
  view : ∀ key, map.view key = mergedView operands.left.isLeftmost key (operands.left.view key)
    (operands.right.view key)
  value : ∀ key, (map.view key).map store'.value = mergedValue reduceFn store.value
    operands.left.isLeftmost key (operands.left.view key) (operands.right.view key)
  destroyed : store'.destroyed = store.destroyed ++
    (operands.other kind).elems.filterMap fun el => Elem.destroyedView ⟨el.key,
      consumedView operands.left.isLeftmost el.key (operands.left.view el.key)
        (operands.right.view el.key)⟩
  freed : store'.freed = store.freed ++ [(operands.other kind).self]

end Merge

theorem CilkredMap.WellFormed.viewIn_elems {map : CilkredMap} (valid : map.WellFormed) (key : Nat) :
    viewIn map.elems key = map.view key := by
  ext view
  rw [valid.view_eq_some]
  constructor
  · intro found
    obtain ⟨⟨elKey, elView⟩, member, keyEq, viewEq⟩ := viewIn_eq_some found
    simp only at keyEq viewEq
    rwa [keyEq, viewEq] at member
  · intro member
    have isSome : (map.elems.find? fun el => decide (el.key = key)).isSome := by
      rw [List.find?_isSome]
      exact ⟨_, member, by simp⟩
    obtain ⟨el, found⟩ := Option.isSome_iff_exists.1 isSome
    have sameKey : el.key = key := by simpa using List.find?_some found
    have same := List.inj_on_of_nodup_map valid.distinct (List.mem_of_find?_eq_some found) member
      sameKey
    simp [viewIn, found, same]

section Merge

variable {M : Type} {reduceFn : Nat → M → M → M × M}

variable (reduceFn) in
/-- A merge in the direction that `merge_reducer_maps` may choose. -/
theorem merge_spec (operands : MergeOperands) (kind : MergeKind) (store : ViewStore M)
    (direction : kind = .intoRight → operands.left.isLeftmost = false) :
    Merged reduceFn operands kind store
      ((operands.this kind).merge reduceFn (operands.other kind) kind store).1
      ((operands.this kind).merge reduceFn (operands.other kind) kind store).2 := by
  have thisValid : (operands.this kind).WellFormed := by
    cases kind
    · exact operands.left_wellFormed
    · exact operands.right_wellFormed
  have otherValid : (operands.other kind).WellFormed := by
    cases kind
    · exact operands.right_wellFormed
    · exact operands.left_wellFormed
  have thisOwned : (operands.this kind).Owned operands.reducerOf := by
    cases kind
    · exact operands.left_owned
    · exact operands.right_owned
  have leftView : ∀ key, kind.left ((operands.this kind).view key) ((operands.other kind).view key) =
      operands.left.view key := by
    cases kind <;> exact fun _ => rfl
  have rightView : ∀ key,
      kind.right ((operands.this kind).view key) ((operands.other kind).view key) =
        operands.right.view key := by
    cases kind <;> exact fun _ => rfl
  have thisLeftmost : (operands.this kind).isLeftmost = operands.left.isLeftmost := by
    cases kind
    · rfl
    · exact operands.right_not_leftmost.trans (direction rfl).symm
  have mergeable : ∀ el ∈ (operands.other kind).elems,
      ∃ view, Mergeable operands.reducerOf (operands.this kind) el view := by
    rintro ⟨key, elView⟩ member
    obtain ⟨view, rfl⟩ := Option.ne_none_iff_exists'.1 (otherValid.present _ member)
    have found := otherValid.view_eq_some.2 member
    refine ⟨view, rfl, ?_, ?_, ?_⟩
    · cases kind
      · exact operands.right_owned key view found
      · exact operands.left_owned key view found
    · apply operands.leftmost_owned
      cases kind
      · exact .inr (by rw [show operands.right.view key = some view from found]; simp)
      · exact .inl (by rw [show operands.left.view key = some view from found]; simp)
    · cases kind
      · exact fun same => operands.separate key view same found
      · exact operands.separate key view found
  have loops := mergeElems_spec reduceFn kind (operands.other kind).elems (operands.this kind) store thisValid thisOwned otherValid.distinct mergeable
    (fun isRight => thisLeftmost.trans (direction isRight))
  unfold CilkredMap.merge
  generalize (operands.this kind).mergeElems reduceFn kind store (operands.other kind).elems =
    result at loops
  obtain ⟨map, outs, store₁⟩ := result
  simp only at loops
  simp only [destroyReducerMap, foldl_destroy, loops.outs]
  refine ⟨direction, ⟨loops.valid.nonempty, loops.valid.hashed, loops.valid.distinct,
    loops.valid.present, loops.valid.count⟩, ?_, loops.self, ?_, ?_, ?_, ?_⟩
  · cases kind
    · simp [MergeOperands.this, MergeOperands.other, MergeKind.left, MergeKind.right,
        operands.right_not_leftmost]
    · simp [MergeOperands.this, MergeOperands.other, MergeKind.left, MergeKind.right,
        operands.right_not_leftmost]
  · intro key
    have merged := loops.view key
    rw [otherValid.viewIn_elems, leftView, rightView, thisLeftmost] at merged
    exact merged
  · intro key
    have merged := loops.value key
    rw [otherValid.viewIn_elems, leftView, rightView, thisLeftmost] at merged
    exact merged
  · rw [loops.destroyed, List.filterMap_map]
    apply congrArg (store.destroyed ++ ·)
    apply List.filterMap_congr
    rintro ⟨key, elView⟩ member
    obtain ⟨view, rfl⟩ := Option.ne_none_iff_exists'.1 (otherValid.present _ member)
    have found := otherValid.view_eq_some.2 member
    simp only [Function.comp_apply]
    rw [← found, leftView, rightView, thisLeftmost]
  · rw [loops.freed]

/-- The view of a key was taken out of its map and is not in the merged one. -/
def MergeOperands.Consumed (operands : MergeOperands) (map : CilkredMap) (key view : Nat) : Prop :=
  (operands.left.view key = some view ∨ operands.right.view key = some view) ∧
    ∀ key', map.view key' ≠ some view

theorem Merged.owned {operands : MergeOperands} {kind : MergeKind} {store store' : ViewStore M}
    {map : CilkredMap} (merged : Merged reduceFn operands kind store map store') :
    map.Owned operands.reducerOf := by
  intro key view found
  rw [merged.view] at found
  cases leftEq : operands.left.view key with
  | some left =>
      rw [leftEq] at found
      cases found
      exact operands.left_owned key _ leftEq
  | none =>
      cases rightEq : operands.right.view key with
      | none => simp [leftEq, rightEq, mergedView] at found
      | some right =>
          rw [leftEq, rightEq, mergedView] at found
          split at found
          · cases found
            exact operands.leftmost_owned key (.inr (by simp [rightEq]))
          · cases found
            exact operands.right_owned key _ rightEq

/-- The consumed views are those the merge reduced into others. -/
theorem Merged.consumed_iff {operands : MergeOperands} {kind : MergeKind} {store store' : ViewStore M}
    {map : CilkredMap} (merged : Merged reduceFn operands kind store map store') (key view : Nat) :
    operands.Consumed map key view ↔ consumedView operands.left.isLeftmost key
      (operands.left.view key) (operands.right.view key) = some view := by
  have own : ∀ view, operands.left.view key = some view ∨ operands.right.view key = some view →
      operands.reducerOf view = key := by
    rintro view (found | found)
    · exact operands.left_owned key view found
    · exact operands.right_owned key view found
  have onlyHere : (operands.left.view key = some view ∨ operands.right.view key = some view) →
      ((∀ key', map.view key' ≠ some view) ↔ map.view key ≠ some view) := by
    intro present
    refine ⟨fun absent => absent key, ?_⟩
    intro absent key' found
    rw [merged.owned key' view found |>.symm.trans (own view present)] at found
    exact absent found
  unfold MergeOperands.Consumed
  rw [and_congr_right onlyHere, merged.view key]
  have separate := operands.separate key
  cases leftEq : operands.left.view key with
  | none =>
      cases rightEq : operands.right.view key with
      | none => simp [mergedView, consumedView]
      | some right =>
          by_cases lazily : operands.left.isLeftmost = true ∧ getLeftmostView key ≠ right
          · simp only [mergedView, consumedView, if_pos lazily, if_pos lazily.1, Option.some.injEq,
              reduceCtorEq, false_or, ne_eq]
            refine ⟨And.left, ?_⟩
            rintro rfl
            exact ⟨rfl, lazily.2⟩
          · by_cases leftmost : operands.left.isLeftmost = true
            · have same : getLeftmostView key = right := by
                by_contra differ
                exact lazily ⟨leftmost, differ⟩
              simp [mergedView, consumedView, leftmost, same]
            · simp [mergedView, consumedView, leftmost]
  | some left =>
      have differ := separate left leftEq
      cases rightEq : operands.right.view key with
      | none => simp [mergedView, consumedView]
      | some right =>
          rw [rightEq] at differ
          simp only [mergedView, consumedView, Option.some.injEq, ne_eq]
          constructor
          · rintro ⟨rfl | rfl, absent⟩
            · exact absurd rfl absent
            · rfl
          · rintro rfl
            exact ⟨.inr rfl, fun same => differ (congrArg some same.symm)⟩

/-- A consumed view was reduced because the other map has the key. -/
theorem Merged.other_of_consumed {operands : MergeOperands} {kind : MergeKind}
    {store store' : ViewStore M} {map : CilkredMap}
    (merged : Merged reduceFn operands kind store map store') {key view : Nat}
    (reduced : consumedView operands.left.isLeftmost key (operands.left.view key)
      (operands.right.view key) = some view) :
    ∃ otherView, (operands.other kind).view key = some otherView := by
  cases rightEq : operands.right.view key with
  | none => cases leftEq : operands.left.view key <;> simp [leftEq, rightEq, consumedView] at reduced
  | some right =>
      cases kind with
      | intoLeft => exact ⟨right, rightEq⟩
      | intoRight =>
          cases leftEq : operands.left.view key with
          | some left => exact ⟨left, leftEq⟩
          | none => simp [leftEq, rightEq, consumedView, merged.direction rfl] at reduced

/-- The views that the merge destroys: one for each consumed view that is not a leftmost one. -/
theorem Merged.destroyed_spec {operands : MergeOperands} {kind : MergeKind}
    {store store' : ViewStore M} {map : CilkredMap}
    (merged : Merged reduceFn operands kind store map store') :
    ∃ views, store'.destroyed = store.destroyed ++ views ∧ views.Nodup ∧
      ∀ view, view ∈ views ↔
        ∃ key, operands.Consumed map key view ∧ view ≠ getLeftmostView key := by
  have otherValid : (operands.other kind).WellFormed := by
    cases kind
    · exact operands.right_wellFormed
    · exact operands.left_wellFormed
  refine ⟨_, merged.destroyed, ?_, ?_⟩
  · -- Two elements have different keys, so the views they destroy belong to different reducers.
    have keysDiffer := List.pairwise_map.1 otherValid.distinct
    apply List.Pairwise.filterMap _ _ keysDiffer
    intro el el' differ view inEl view' inEl' same
    subst same
    have ownerOf : ∀ el : Elem, Elem.destroyedView ⟨el.key, consumedView operands.left.isLeftmost
        el.key (operands.left.view el.key) (operands.right.view el.key)⟩ = some view →
        operands.reducerOf view = el.key := by
      intro el destroyed
      unfold Elem.destroyedView at destroyed
      split at destroyed
      · simp at destroyed
      · rcases ((merged.consumed_iff el.key view).2 destroyed).1 with found | found
        · exact operands.left_owned el.key view found
        · exact operands.right_owned el.key view found
    exact differ ((ownerOf el inEl).symm.trans (ownerOf el' inEl'))
  · intro view
    rw [List.mem_filterMap]
    constructor
    · rintro ⟨el, -, destroyed⟩
      unfold Elem.destroyedView at destroyed
      split at destroyed
      · simp at destroyed
      · rename_i notLeftmost
        refine ⟨el.key, (merged.consumed_iff el.key view).2 destroyed, ?_⟩
        rintro rfl
        exact notLeftmost (by simp only at destroyed; simp [Elem.isLeftmost, destroyed])
    · rintro ⟨key, consumed, notLeftmost⟩
      have reduced := (merged.consumed_iff key view).1 consumed
      obtain ⟨otherView, found⟩ := merged.other_of_consumed reduced
      refine ⟨⟨key, some otherView⟩, otherValid.view_eq_some.1 found, ?_⟩
      simp only [reduced]
      simp [Elem.destroyedView, Elem.isLeftmost, notLeftmost]

variable (reduceFn) in
/-- `merge_reducer_maps` merges in one of the directions, into a leftmost left map always. -/
theorem mergeReducerMaps_direction (left right : CilkredMap) (store : ViewStore M) :
    ∃ kind, (kind = .intoRight → left.isLeftmost = false) ∧
      CilkredMap.mergeReducerMaps reduceFn (some left) (some right) store =
        (some (CilkredMap.merge reduceFn (kind.left left right) (kind.right left right) kind store).1,
          (CilkredMap.merge reduceFn (kind.left left right) (kind.right left right) kind store).2) := by
  by_cases intoLeft : left.isLeftmost = true ∨ left.nelem > right.nelem
  · refine ⟨.intoLeft, by simp, ?_⟩
    simp only [CilkredMap.mergeReducerMaps, if_pos intoLeft]
    rfl
  · refine ⟨.intoRight, ?_, ?_⟩
    · intro _
      rw [not_or] at intoLeft
      simpa using intoLeft.1
    · simp only [CilkredMap.mergeReducerMaps, if_neg intoLeft]
      rfl

/-- `merge_reducer_maps`: every key of one of the maps has one view, which holds the left value reduced
    with the right one, left operand first, when both maps have the key (a leftmost left map has every
    key lazily, except that a view is never reduced with itself) and else the value of the single view.
    A merge in the other direction has the same views with the same values. `nelem` is exact. Each view
    that is consumed is destroyed once unless it is a leftmost view, which belongs to the program; no
    other view is destroyed, and the map that does not survive is freed once. -/
theorem merge_reducer_maps_in_order (reduceFn : Nat → M → M → M × M) (operands : MergeOperands)
    (store : ViewStore M) :
    ∃ map store', CilkredMap.mergeReducerMaps reduceFn (some operands.left) (some operands.right) store =
        (some map, store') ∧
      (∀ key, map.view key = mergedView operands.left.isLeftmost key (operands.left.view key)
        (operands.right.view key)) ∧
      (∀ key, (map.view key).map store'.value = mergedValue reduceFn store.value
        operands.left.isLeftmost key (operands.left.view key) (operands.right.view key)) ∧
      (operands.left.isLeftmost = false → ∀ kind key,
        let merged := (operands.this kind).merge reduceFn (operands.other kind) kind store
        merged.1.view key = map.view key ∧
          (merged.1.view key).map merged.2.value = (map.view key).map store'.value) ∧
      map.WellFormed ∧ map.isLeftmost = operands.left.isLeftmost ∧
      (∃ views, store'.destroyed = store.destroyed ++ views ∧ views.Nodup ∧
        ∀ view, view ∈ views ↔
          ∃ key, operands.Consumed map key view ∧ view ≠ getLeftmostView key) ∧
      (map.self = operands.left.self ∧ store'.freed = store.freed ++ [operands.right.self] ∨
        map.self = operands.right.self ∧ store'.freed = store.freed ++ [operands.left.self]) := by
  obtain ⟨kind, direction, mergeEq⟩ :=
    mergeReducerMaps_direction reduceFn operands.left operands.right store
  have merged := merge_spec reduceFn operands kind store direction
  refine ⟨_, _, mergeEq, merged.view, merged.value, ?_, merged.valid, merged.isLeftmost,
    merged.destroyed_spec, ?_⟩
  · intro notLeftmost kind' key
    have merged' := merge_spec reduceFn operands kind' store fun _ => notLeftmost
    exact ⟨(merged'.view key).trans (merged.view key).symm,
      (merged'.value key).trans (merged.value key).symm⟩
  · cases kind
    · exact .inl ⟨merged.self, merged.freed⟩
    · exact .inr ⟨merged.self, merged.freed⟩

/-- The merge of association lists is what the table computes, as long as no leftmost view is created
    lazily: the views of the two maps stand for the values of the two lists, and so do the results. -/
theorem mergeReducerMaps_refines [Monoid M] (rightAfter : M → M → M) (operands : MergeOperands)
    (store : ViewStore M) (left right : ReducerMap Nat M)
    (leftStands : ∀ key, mapValue (some left) key =
      ((operands.left.view key).map store.value).getD 1)
    (rightStands : ∀ key, mapValue (some right) key =
      ((operands.right.view key).map store.value).getD 1)
    (eager : operands.left.isLeftmost = true → ∀ key, operands.right.view key ≠ none →
      operands.left.view key ≠ none) :
    ∃ map store', CilkredMap.mergeReducerMaps (fun _ l r => (l * r, rightAfter l r))
        (some operands.left) (some operands.right) store = (some map, store') ∧
      ∀ key, mapValue (mergeReducerMaps (some left) (some right)) key =
        ((map.view key).map store'.value).getD 1 := by
  obtain ⟨kind, direction, mergeEq⟩ :=
    mergeReducerMaps_direction (fun _ l r => (l * r, rightAfter l r)) operands.left operands.right store
  have merged := merge_spec (fun _ l r => (l * r, rightAfter l r)) operands kind store direction
  refine ⟨_, _, mergeEq, ?_⟩
  intro key
  have value := merged.value key
  simp only [MergeOperands.this, MergeOperands.other] at value
  rw [mapValue_mergeReducerMaps, Pi.mul_apply, leftStands, rightStands, value]
  cases leftEq : operands.left.view key with
  | some leftView => cases rightEq : operands.right.view key <;> simp [mergedValue]
  | none =>
      cases rightEq : operands.right.view key with
      | none => simp [mergedValue]
      | some rightView =>
          have notLeftmost : operands.left.isLeftmost = false := by
            by_contra leftmost
            exact eager (by simpa using leftmost) key (by simp [rightEq]) leftEq
          simp [mergedValue, notLeftmost]

end Merge

/-- A map with one bucket and one element. -/
def singletonMap (self key view : Nat) : CilkredMap :=
  { self := self, nelem := 1, buckets := [[⟨key, some view⟩]], isLeftmost := false }

theorem singletonMap_wellFormed (self key view : Nat) : (singletonMap self key view).WellFormed where
  nonempty := Nat.one_pos
  hashed := by
    intro i bucket found el member
    rcases i with _ | i
    · exact Nat.and_zero _
    · simp [singletonMap] at found
  distinct := by simp [singletonMap, CilkredMap.elems]
  present := by simp [singletonMap, CilkredMap.elems]
  count := rfl

theorem singletonMap_view (self key view key' : Nat) :
    (singletonMap self key view).view key' = if key = key' then some view else none := by
  have bucket : hashfun 1 key' = 0 := Nat.and_zero _
  by_cases same : key = key'
  · simp [CilkredMap.view, CilkredMap.lookup, CilkredMap.nbuckets, singletonMap, bucket, same]
  · simp [CilkredMap.view, CilkredMap.lookup, CilkredMap.nbuckets, singletonMap, bucket, same]

/-- The reducer at address 16 was created in a strand that returned its map as the right one, with the
    leftmost view in it; the left map has the view 100 for the same reducer. -/
def leftmostOnTheRight : MergeOperands where
  left := singletonMap 1 16 100
  right := singletonMap 2 16 16
  reducerOf := fun _ => 16
  left_wellFormed := singletonMap_wellFormed 1 16 100
  right_wellFormed := singletonMap_wellFormed 2 16 16
  right_not_leftmost := rfl
  left_owned := by
    intro key view found
    rw [singletonMap_view] at found
    split at found
    · assumption
    · simp at found
  right_owned := by
    intro key view found
    rw [singletonMap_view] at found
    split at found
    · assumption
    · simp at found
  leftmost_owned := by
    intro key present
    by_contra differ
    simp [singletonMap_view, differ] at present
  separate := by
    intro key view found
    rw [singletonMap_view] at found ⊢
    split at found
    · cases found
      simp
    · simp at found

/-- A consumed leftmost view is not destroyed: the merge reduces the view at address 16 into the view at
    address 100 and destroys nothing. -/
theorem consumed_leftmost_view_kept :
    let merged := CilkredMap.mergeReducerMaps (fun _ left right => (left + right, right))
      (some leftmostOnTheRight.left) (some leftmostOnTheRight.right)
      { value := fun addr => addr, destroyed := [], freed := [] }
    ∃ map, merged.1 = some map ∧ leftmostOnTheRight.Consumed map 16 16 ∧
      merged.2.destroyed.count 16 ≠ 1 := by
  refine ⟨{ singletonMap 2 16 100 with isLeftmost := false }, rfl, ⟨.inr rfl, ?_⟩, by decide⟩
  intro key'
  have view := singletonMap_view 2 16 100 key'
  intro found
  rw [show ({ singletonMap 2 16 100 with isLeftmost := false } : CilkredMap) =
    singletonMap 2 16 100 from rfl, view] at found
  split at found
  · simp at found
  · simp at found

end CilkL
