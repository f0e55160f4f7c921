/-
Module: CilkL.Proofs.ReducerTable
Layer: Proofs
Purpose: The table in memory implements the list-level `CilkredMap`. A bucket that holds a list has its
  elements first and null keys behind them, one at least, because `roundup` never takes room away and
  `grow` does not use the last element. Each operation in memory is the one on the lists; removal is added
  there as the erasure from one bucket.
Imports: CilkL.Proofs.CilkredMap, CilkL.Runtime.ReducerTable, Mathlib
Trusted boundary: none
Main exports: HoldsBucket, Represents, CilkredMap.remove, TableFaithful, reducer_table_faithful
Open obligations: none
-/
import CilkL.Proofs.CilkredMap
import CilkL.Runtime.ReducerTable
import Mathlib

namespace CilkL

/-! ### One bucket -/

/-- A bucket holds a list of elements: they come first, and null keys fill the rest of the `nmax + 1`. -/
def HoldsBucket (bp : Option ReducerBucket) (els : List Elem) : Prop :=
  match bp with
  | none => els = []
  | some b => ∃ free, b.el = items els ++ .replicate (free + 1) .null ∧ els.length + free = b.nmax

theorem HoldsBucket.length {b : ReducerBucket} {els : List Elem} (holds : HoldsBucket (some b) els) :
    b.el.length = b.nmax + 1 := by
  obtain ⟨free, el, room⟩ := holds
  rw [el]
  simp only [List.length_append, length_items, List.length_replicate]
  omega

/-- Inverting the rounding of the allocator never takes room away, and leaves room for one element. -/
theorem roundupBucket_spec (nmax : Nat) :
    ∃ nnmax, roundupBucket nmax = some nnmax ∧ nmax ≤ nnmax ∧ 0 < nnmax := by
  have large : ∀ size, sizeofBucket nmax ≤ size → 64 ≤ size →
      nmax ≤ (size - sizeofBucket 0) / sizeofElem ∧ 0 < (size - sizeofBucket 0) / sizeofElem := by
    intro size enough block
    simp only [sizeofBucket, sizeofElem] at enough ⊢
    omega
  simp only [roundupBucket, frameMallocRoundup]
  split
  · rename_i beyond
    exact ⟨_, rfl, large _ (Nat.le_refl _) (by omega)⟩
  · rename_i within
    obtain ⟨bucket, found⟩ : ∃ bucket, bucketOfSize (sizeofBucket nmax) = some bucket := by
      rw [← Option.isSome_iff_exists, bucketOfSize, List.find?_isSome]
      exact ⟨5, List.mem_finRange 5, decide_eq_true (Nat.le_of_not_lt within)⟩
    have fits : sizeofBucket nmax ≤ bucketSize bucket := by
      simpa using List.find?_some found
    have block : ∀ bucket, 64 ≤ bucketSize bucket := by decide
    exact ⟨_, by simp [found], large _ fits (block bucket)⟩

/-- The reallocated bucket holds the same elements and has room for one more. -/
theorem reallocate_spec (els : List Elem) (rest : List (Cell Elem)) :
    ∃ b, ReducerTable.reallocate els.length (items els ++ rest) = some (b, els.length) ∧
      HoldsBucket (some b) els ∧ els.length < b.nmax := by
  obtain ⟨nnmax, rounded, double, positive⟩ := roundupBucket_spec (2 * els.length)
  have within : els.length ≤ nnmax := by omega
  have copied : (items els ++ rest).take els.length = items els := by
    rw [List.take_left' (by simp)]
  refine ⟨_, by rw [ReducerTable.reallocate, rounded, Option.bind_some, if_pos within], ?_, ?_⟩
  · refine ⟨nnmax - els.length, ?_, by show els.length + (nnmax - els.length) = nnmax; omega⟩
    rw [copied, List.append_assoc, ← List.replicate_succ']
  · show els.length < nnmax
    omega

/-- A store behind the last element, where there is room. -/
theorem HoldsBucket.push {b : ReducerBucket} {els : List Elem} (holds : HoldsBucket (some b) els)
    (room : els.length < b.nmax) (el : Elem) :
    HoldsBucket (some { b with el := b.el.set els.length (.item el) }) (els ++ [el]) := by
  obtain ⟨free, cells, nmax⟩ := holds
  obtain ⟨free, rfl⟩ : ∃ more, free = more + 1 := ⟨free - 1, by omega⟩
  refine ⟨free, ?_, by simp only [List.length_append, List.length_singleton]; omega⟩
  simp [cells, List.replicate_succ]

/-- `grow` makes room behind the last element. -/
theorem HoldsBucket.grow {bp : Option ReducerBucket} {els : List Elem} (holds : HoldsBucket bp els) :
    ∃ b, ReducerTable.grow bp = some (b, els.length) ∧ HoldsBucket (some b) els ∧
      els.length < b.nmax := by
  cases bp with
  | none =>
    have empty : els = [] := holds
    subst empty
    exact reallocate_spec [] []
  | some b =>
    obtain ⟨free, cells, nmax⟩ := holds
    have searched : b.el.take b.nmax = items els ++ .replicate free .null := by
      rw [cells, ← nmax, List.replicate_succ', ← List.append_assoc, List.take_left' (by simp)]
    cases free with
    | zero =>
      -- the bucket is full
      have scanned : findNull (b.el.take b.nmax) = some none := by
        rw [searched, findNull_items]
        rfl
      obtain ⟨grown, reallocated, held, room⟩ := reallocate_spec els [.null]
      refine ⟨grown, ?_, held, room⟩
      have full : b.nmax = els.length := by omega
      simp only [ReducerTable.grow, scanned]
      rw [full, cells]
      exact reallocated
    | succ free =>
      have scanned : findNull (b.el.take b.nmax) = some (some els.length) := by
        rw [searched, findNull_items, List.replicate_succ]
        simp [findNull]
      refine ⟨b, by simp only [ReducerTable.grow, scanned], ⟨free + 1, cells, nmax⟩, ?_⟩
      omega

/-- The loop of `lookup` stops at the element with the key. -/
theorem findKey_found {key : Nat} {before : List Elem} {el : Elem} (cells : List (Cell Elem))
    (others : ∀ other ∈ before, other.key ≠ key) (isKey : el.key = key) (present : el.view ≠ none) :
    ReducerTable.findKey key (items before ++ .item el :: cells) = some (some (before.length, el)) := by
  induction before with
  | nil => simp [ReducerTable.findKey, isKey, present]
  | cons other before ih =>
    have skipped := others other List.mem_cons_self
    have rest := ih fun other member => others other (List.mem_cons_of_mem _ member)
    simp [ReducerTable.findKey, skipped, rest]

/-- Without such an element it stops at the null key. -/
theorem findKey_absent {key : Nat} {els : List Elem} (cells : List (Cell Elem))
    (others : ∀ other ∈ els, other.key ≠ key) :
    ReducerTable.findKey key (items els ++ .null :: cells) = some none := by
  induction els with
  | nil => rfl
  | cons other els ih =>
    have skipped := others other List.mem_cons_self
    have rest := ih fun other member => others other (List.mem_cons_of_mem _ member)
    simp [ReducerTable.findKey, skipped, rest]

/-- The loop of `__cilkrts_hyper_destroy` moves the rest of the bucket down by one. -/
theorem shiftDown_spec (cell : Cell Elem) (els : List Elem) (free : Nat) :
    ReducerTable.shiftDown (cell :: (items els ++ .replicate (free + 1) .null)) =
      some (items els ++ .replicate (free + 2) .null) := by
  induction els generalizing cell with
  | nil => simp [ReducerTable.shiftDown, List.replicate_succ]
  | cons el els ih => simp [ReducerTable.shiftDown, ih]

/-! ### The buckets -/

theorem forall₂_getElem? {α β : Type} {R : α → β → Prop} {l : List α} {l' : List β}
    (related : List.Forall₂ R l l') {i : Nat} {x : α} (at_i : l[i]? = some x) :
    ∃ y, l'[i]? = some y ∧ R x y := by
  induction related generalizing i with
  | nil => simp at at_i
  | cons first _ ih =>
    cases i with
    | zero =>
      obtain rfl := Option.some.inj at_i
      exact ⟨_, rfl, first⟩
    | succ i => exact ih (by simpa using at_i)

theorem forall₂_set_modify {α β : Type} {R : α → β → Prop} {l : List α} {l' : List β}
    (related : List.Forall₂ R l l') {i : Nat} {x : α} {f : β → β}
    (new : ∀ y, l'[i]? = some y → R x (f y)) : List.Forall₂ R (l.set i x) (l'.modify i f) := by
  induction related generalizing i with
  | nil => simp
  | cons first rest ih =>
    cases i with
    | zero => exact .cons (new _ rfl) rest
    | succ i => exact .cons first (ih fun y at_i => new y (by simpa using at_i))

/-- The table in memory has the lists of a map in its buckets. -/
structure Represents (table : ReducerTable) (map : CilkredMap) : Prop where
  nelem : table.nelem = map.nelem
  buckets : List.Forall₂ HoldsBucket table.buckets map.buckets

namespace Represents

variable {table : ReducerTable} {map : CilkredMap}

theorem nbuckets (represents : Represents table map) : table.nbuckets = map.nbuckets :=
  represents.buckets.length_eq

/-- The bucket of a key, and the list it holds. -/
theorem bucket (represents : Represents table map) (nonempty : 0 < map.nbuckets) (key : Nat) :
    ∃ bp els, table.buckets[hashfun table.nbuckets key]? = some bp ∧
      map.buckets[hashfun map.nbuckets key]? = some els ∧ HoldsBucket bp els := by
  have inside : hashfun table.nbuckets key < table.buckets.length :=
    hashfun_lt (represents.nbuckets ▸ nonempty) key
  have at_key := List.getElem?_eq_getElem inside
  obtain ⟨els, listed, holds⟩ := forall₂_getElem? represents.buckets at_key
  rw [represents.nbuckets] at listed
  exact ⟨_, els, at_key, listed, holds⟩

/-- `insert_no_rehash` in memory is that on lists. -/
theorem insertNoRehash (represents : Represents table map) (nonempty : 0 < map.nbuckets) {el : Elem}
    (keyed : el.key ≠ 0) (present : el.view ≠ none) :
    ∃ table', table.insertNoRehash el = some table' ∧ Represents table' (map.insertNoRehash el) := by
  obtain ⟨bp, els, at_key, listed, holds⟩ := represents.bucket nonempty el.key
  obtain ⟨b, grown, held, room⟩ := holds.grow
  have length := held.length
  have stored : table.insertNoRehash el = some ⟨table.nelem + 1, table.buckets.set
      (hashfun table.nbuckets el.key) (some { b with el := b.el.set els.length (.item el) })⟩ := by
    simp only [ReducerTable.insertNoRehash, keyed, present, ne_eq, not_false_eq_true, and_self, if_true,
      at_key, grown, show els.length < b.el.length by omega]
  refine ⟨_, stored, ?_, ?_⟩
  · exact congrArg (· + 1) represents.nelem
  · rw [CilkredMap.insertNoRehash, ← represents.nbuckets]
    refine forall₂_set_modify represents.buckets fun els' listed' => ?_
    rw [represents.nbuckets, listed] at listed'
    obtain rfl := Option.some.inj listed'
    exact held.push room el

/-- A list of insertions. -/
theorem foldlM_insertNoRehash (els : List Elem) (valid : ∀ el ∈ els, el.key ≠ 0 ∧ el.view ≠ none)
    (represents : Represents table map) (nonempty : 0 < map.nbuckets) :
    ∃ table', els.foldlM ReducerTable.insertNoRehash table = some table' ∧
      Represents table' (els.foldl CilkredMap.insertNoRehash map) ∧
      (els.foldl CilkredMap.insertNoRehash map).nbuckets = map.nbuckets := by
  induction els generalizing table map with
  | nil => exact ⟨table, rfl, represents, rfl⟩
  | cons el els ih =>
    obtain ⟨keyed, present⟩ := valid el List.mem_cons_self
    obtain ⟨next, inserted, step⟩ := represents.insertNoRehash nonempty keyed present
    obtain ⟨table', all, holds, size⟩ := ih (fun el member => valid el (List.mem_cons_of_mem _ member))
      step (by simpa using nonempty)
    refine ⟨table', ?_, holds, by simpa using size⟩
    rw [List.foldlM_cons, inserted]
    exact all

/-- The loops of `rehash` insert the elements in their order. -/
theorem foldlM_rehashBucket {bps : List (Option ReducerBucket)} {lists : List (List Elem)}
    (held : List.Forall₂ HoldsBucket bps lists)
    (valid : ∀ el ∈ lists.flatten, el.key ≠ 0 ∧ el.view ≠ none)
    (represents : Represents table map) (nonempty : 0 < map.nbuckets) :
    ∃ table', bps.foldlM ReducerTable.rehashBucket table = some table' ∧
      Represents table' (lists.flatten.foldl CilkredMap.insertNoRehash map) := by
  induction held generalizing table map with
  | nil => exact ⟨table, rfl, represents⟩
  | @cons bp els bps lists holds held ih =>
    obtain ⟨next, inserted, step, size⟩ := represents.foldlM_insertNoRehash els
      (fun el member => valid el (List.mem_append_left _ member)) nonempty
    have bucket : ReducerTable.rehashBucket table bp = some next := by
      cases bp with
      | none =>
        have empty : els = [] := holds
        subst empty
        exact inserted
      | some b =>
        obtain ⟨free, cells, -⟩ := holds
        rw [ReducerTable.rehashBucket, cells, List.replicate_succ, readItems_items]
        exact inserted
    obtain ⟨table', all, rehashed⟩ := ih (fun el member => valid el (List.mem_append_right _ member))
      step (size ▸ nonempty)
    refine ⟨table', ?_, ?_⟩
    · rw [List.foldlM_cons, bucket]
      exact all
    · rw [List.flatten_cons, List.foldl_append]
      exact rehashed

/-- `lookup` in memory finds what the one on lists finds. -/
theorem lookup (represents : Represents table map) (valid : map.WellFormed) (key : Nat) :
    ∃ found, table.lookup key = some found ∧ found.map (·.2) = map.lookup key := by
  obtain ⟨bp, els, at_key, listed, holds⟩ := represents.bucket valid.nonempty key
  have present : ∀ el ∈ els, el.view ≠ none := fun el member =>
    valid.present el (List.mem_flatten.2 ⟨els, List.mem_of_getElem? listed, member⟩)
  rw [CilkredMap.lookup, listed, Option.getD_some]
  cases bp with
  | none =>
    have empty : els = [] := holds
    subst empty
    exact ⟨none, by simp [ReducerTable.lookup, at_key], rfl⟩
  | some b =>
    obtain ⟨free, cells, -⟩ := holds
    have walked : table.lookup key = ReducerTable.findKey key b.el := by
      simp [ReducerTable.lookup, at_key]
    rw [List.replicate_succ] at cells
    rw [walked, cells]
    cases search : els.find? fun el => el.key = key with
    | none =>
      have others : ∀ el ∈ els, el.key ≠ key := by simpa using search
      exact ⟨none, findKey_absent _ others, rfl⟩
    | some el =>
      obtain ⟨isKey, before, after, split, others⟩ := List.find?_eq_some_iff_append.1 search
      have walk := findKey_found (items after ++ .null :: .replicate free .null)
        (by simpa using others) (of_decide_eq_true isKey) (present el (by simp [split]))
      refine ⟨some (before.length, el), ?_, rfl⟩
      rw [split]
      simpa using walk

end Represents

/-! ### Removal -/

/-- Removal of the element with a key from its bucket. -/
def CilkredMap.remove (map : CilkredMap) (key : Nat) : CilkredMap :=
  { map with
    buckets := map.buckets.modify (hashfun map.nbuckets key) (·.eraseP fun el => el.key = key)
    nelem := map.nelem - 1 }

/-- Erasing from one list of a list of lists takes the erased element from the concatenation. -/
theorem flatten_modify_eraseP {α : Type} (p : α → Bool) {lists : List (List α)} {i : Nat} {l : List α}
    (at_i : lists[i]? = some l) {x : α} (member : x ∈ l) (holds : p x) :
    ∃ y, p y ∧ y ∈ l ∧ lists.flatten.Perm (y :: (lists.modify i (·.eraseP p)).flatten) := by
  induction lists generalizing i with
  | nil => simp at at_i
  | cons first lists ih =>
    cases i with
    | zero =>
      obtain rfl := Option.some.inj at_i
      obtain ⟨y, before, after, -, isP, split, erased⟩ := List.exists_of_eraseP member holds
      refine ⟨y, isP, by simp [split], ?_⟩
      simp only [List.modify_zero_cons, List.flatten_cons, erased]
      rw [split, List.append_assoc, List.append_assoc, List.cons_append]
      exact List.perm_middle
    | succ i =>
      obtain ⟨y, isP, inL, perm⟩ := ih (by simpa using at_i)
      refine ⟨y, isP, inL, ?_⟩
      simp only [List.modify_succ_cons, List.flatten_cons]
      exact (List.Perm.append_left first perm).trans List.perm_middle

/-- Removing a key that the map has. -/
theorem CilkredMap.WellFormed.remove {map : CilkredMap} (valid : map.WellFormed) {el : Elem}
    (member : el ∈ map.elems) :
    map.elems.Perm (el :: (map.remove el.key).elems) ∧ (map.remove el.key).WellFormed := by
  obtain ⟨bucket, bucketMember, inside⟩ := List.mem_flatten.1 member
  obtain ⟨i, at_i⟩ := List.getElem?_of_mem bucketMember
  have place := valid.hashed i bucket at_i el inside
  obtain ⟨y, isKey, inBucket, perm⟩ :=
    flatten_modify_eraseP (fun other : Elem => decide (other.key = el.key)) at_i inside (by simp)
  have same : y = el := List.inj_on_of_nodup_map valid.distinct
    (List.mem_flatten.2 ⟨bucket, bucketMember, inBucket⟩) member (of_decide_eq_true isKey)
  subst same
  have removed : map.elems.Perm (y :: (map.remove y.key).elems) := by
    rw [CilkredMap.elems, CilkredMap.elems, CilkredMap.remove, place]
    exact perm
  have size : (map.remove y.key).nbuckets = map.nbuckets := List.length_modify ..
  refine ⟨removed, size ▸ valid.nonempty, ?_, ?_, ?_, ?_⟩
  · intro j other at_j e inOther
    rw [size]
    simp only [CilkredMap.remove, List.getElem?_modify] at at_j
    obtain ⟨old, oldAt, rfl⟩ := Option.map_eq_some_iff.1 at_j
    refine valid.hashed j old oldAt e ?_
    split at inOther
    · exact List.mem_of_mem_eraseP inOther
    · exact inOther
  · have keys := removed.map Elem.key
    exact (List.nodup_cons.1 (keys.nodup_iff.1 valid.distinct)).2
  · exact fun e inMap => valid.present e (removed.mem_iff.2 (List.mem_cons_of_mem _ inMap))
  · have length := removed.length_eq
    have count := valid.count
    simp only [List.length_cons] at length
    show map.nelem - 1 = _
    omega

/-- `__cilkrts_hyper_destroy` in memory is the removal from the lists. -/
theorem Represents.hyperDestroy {table : ReducerTable} {map : CilkredMap}
    (represents : Represents table map) (valid : map.WellFormed) {el : Elem} (member : el ∈ map.elems)
    (leftmost : el.isLeftmost = true) :
    ∃ table', table.hyperDestroy el.key = some table' ∧ Represents table' (map.remove el.key) := by
  obtain ⟨bp, els, at_key, listed, holds⟩ := represents.bucket valid.nonempty el.key
  have search : els.find? (fun other => other.key = el.key) = some el := by
    have := valid.lookup_eq_some.2 ⟨member, rfl⟩
    rwa [CilkredMap.lookup, listed, Option.getD_some] at this
  obtain ⟨-, before, after, split, others⟩ := List.find?_eq_some_iff_append.1 search
  have others : ∀ other ∈ before, other.key ≠ el.key := by simpa using others
  have present := valid.present el member
  cases bp with
  | none =>
    have empty : els = [] := holds
    simp [empty] at split
  | some b =>
    obtain ⟨free, cells, nmax⟩ := holds
    have walked : table.lookup el.key = some (some (before.length, el)) := by
      have walk := findKey_found (items after ++ .replicate (free + 1) .null) others rfl present
      rw [ReducerTable.lookup, at_key]
      show ReducerTable.findKey el.key b.el = _
      rw [cells, split]
      simpa using walk
    have tail : b.el.drop before.length = .item el :: (items after ++ .replicate (free + 1) .null) := by
      rw [cells, split, items_append, List.append_assoc, List.drop_left' (by simp)]
      rfl
    have front : b.el.take before.length = items before := by
      rw [cells, split, items_append, List.append_assoc, List.take_left' (by simp)]
    have stored : table.hyperDestroy el.key = some ⟨table.nelem - 1, table.buckets.set
        (hashfun table.nbuckets el.key)
        (some { b with el := items before ++ (items after ++ .replicate (free + 2) .null) })⟩ := by
      simp only [ReducerTable.hyperDestroy, walked, at_key, leftmost, if_true, tail, shiftDown_spec, front,
        Option.map_some]
    refine ⟨_, stored, congrArg (· - 1) represents.nelem, ?_⟩
    rw [CilkredMap.remove, ← represents.nbuckets]
    refine forall₂_set_modify represents.buckets fun els' listed' => ?_
    rw [represents.nbuckets, listed] at listed'
    obtain rfl := Option.some.inj listed'
    have erased : els.eraseP (fun other => other.key = el.key) = before ++ after := by
      rw [split, List.eraseP_append_right _ (by simpa using others), List.eraseP_cons_of_pos (by simp)]
    refine ⟨free + 1, ?_, ?_⟩
    · rw [erased, items_append, List.append_assoc]
    · rw [erased, ← nmax, split]
      simp only [List.length_append, List.length_cons]
      omega

/-! ### Runs -/

/-- The table in memory represents a valid map of non-null keys, whose elements are the live ones. -/
structure TableHolds (s : TableState) (map : CilkredMap) : Prop where
  represents : Represents s.table map
  valid : map.WellFormed
  keyed : ∀ el ∈ map.elems, el.key ≠ 0
  power : ∃ k, map.nbuckets = 2 ^ k
  live : s.live.Perm map.elems

/-- An insertion is of a new key that is not null, with a view. -/
def InsertsNew (s : TableState) : TableLabel → Prop
  | .insertNoRehash el | .rehashAndInsert el =>
      el.key ≠ 0 ∧ el.view ≠ none ∧ ∀ other ∈ s.live, other.key ≠ el.key
  | _ => True

instance (s : TableState) : (a : TableLabel) → Decidable (InsertsNew s a)
  | .insertNoRehash el | .rehashAndInsert el =>
      inferInstanceAs (Decidable (el.key ≠ 0 ∧ el.view ≠ none ∧ ∀ other ∈ s.live, other.key ≠ el.key))
  | .lookup _ | .hyperDestroy _ => inferInstanceAs (Decidable True)

theorem isPowerOf2_pow (k : Nat) : isPowerOf2 (2 ^ k) = true := by
  simp [isPowerOf2, Nat.and_two_pow_sub_one_eq_mod]

/-- An insertion of a new key without a rehash. -/
theorem CilkredMap.WellFormed.insertNoRehash {map : CilkredMap} (valid : map.WellFormed) {el : Elem}
    (present : el.view ≠ none) (fresh : ∀ other ∈ map.elems, other.key ≠ el.key) :
    (map.insertNoRehash el).WellFormed := by
  have perm := elems_insertNoRehash valid.nonempty el
  refine ⟨by simpa using valid.nonempty, valid.hashed.insertNoRehash el, ?_, ?_, ?_⟩
  · have keys := perm.map Elem.key
    rw [keys.nodup_iff, List.map_cons, List.nodup_cons]
    refine ⟨fun member => ?_, valid.distinct⟩
    obtain ⟨other, inMap, same⟩ := List.mem_map.1 member
    exact fresh other inMap same
  · intro other inMap
    rcases List.mem_cons.1 (perm.mem_iff.1 inMap) with rfl | old
    · exact present
    · exact valid.present other old
  · rw [perm.length_eq, List.length_cons, ← valid.count]
    rfl

/-- A rehash keeps the map valid. -/
theorem CilkredMap.WellFormed.rehash_valid {map : CilkredMap} (valid : map.WellFormed) :
    map.rehash.WellFormed := by
  obtain ⟨nonempty, hashed, perm, count, -, -⟩ := valid.rehash
  refine ⟨nonempty, hashed, ?_, ?_, ?_⟩
  · exact (perm.map Elem.key).nodup_iff.2 valid.distinct
  · exact fun el member => valid.present el (perm.mem_iff.1 member)
  · rw [count, valid.count, perm.length_eq]

namespace TableHolds

variable {s : TableState} {map : CilkredMap}

/-- `insert_no_rehash` adds an element. -/
theorem insertNoRehash (holds : TableHolds s map) {el : Elem} (keyed : el.key ≠ 0)
    (present : el.view ≠ none) (fresh : ∀ other ∈ s.live, other.key ≠ el.key) :
    ∃ table, s.table.insertNoRehash el = some table ∧
      TableHolds ⟨table, el :: s.live⟩ (map.insertNoRehash el) := by
  obtain ⟨table, inserted, represents⟩ :=
    holds.represents.insertNoRehash holds.valid.nonempty keyed present
  have absent : ∀ other ∈ map.elems, other.key ≠ el.key := fun other member =>
    fresh other (holds.live.mem_iff.2 member)
  have perm := elems_insertNoRehash holds.valid.nonempty el
  refine ⟨table, inserted, represents, holds.valid.insertNoRehash present absent, ?_, ?_, ?_⟩
  · intro other member
    rcases List.mem_cons.1 (perm.mem_iff.1 member) with rfl | old
    · exact keyed
    · exact holds.keyed other old
  · obtain ⟨k, size⟩ := holds.power
    exact ⟨k, by simpa using size⟩
  · exact (holds.live.cons el).trans perm.symm

/-- `rehash` keeps the elements. -/
theorem rehash (holds : TableHolds s map) :
    ∃ table, s.table.rehash = some table ∧ TableHolds ⟨table, s.live⟩ map.rehash := by
  obtain ⟨k, size⟩ := holds.power
  have nbuckets := holds.represents.nbuckets
  have doubled : nextsz s.table.nbuckets = 2 ^ (k + 1) := by
    rw [nbuckets, size, nextsz, Nat.pow_succ, Nat.mul_comm]
  have fresh : ReducerTable.makeBuckets (nextsz s.table.nbuckets) =
      some ⟨0, .replicate (nextsz s.table.nbuckets) none⟩ := by
    rw [ReducerTable.makeBuckets, doubled, if_pos (isPowerOf2_pow _)]
  have empty : Represents ⟨0, .replicate (nextsz s.table.nbuckets) none⟩
      (map.makeBuckets (nextsz map.nbuckets)) := by
    refine ⟨rfl, ?_⟩
    rw [nbuckets, CilkredMap.makeBuckets]
    induction nextsz map.nbuckets with
    | zero => exact .nil
    | succ n ih => exact .cons rfl ih
  have positive : 0 < (map.makeBuckets (nextsz map.nbuckets)).nbuckets := by
    rw [CilkredMap.nbuckets, CilkredMap.makeBuckets, List.length_replicate, ← nbuckets, doubled]
    exact Nat.two_pow_pos _
  obtain ⟨table, all, represents⟩ := Represents.foldlM_rehashBucket holds.represents.buckets
    (fun el member => ⟨holds.keyed el member, holds.valid.present el member⟩) empty positive
  obtain ⟨-, -, perm, count, -, -⟩ := holds.valid.rehash
  have asserted : table.nelem = s.table.nelem := by
    rw [represents.nelem, holds.represents.nelem]
    exact count
  refine ⟨table, ?_, represents, holds.valid.rehash_valid, ?_, ⟨k + 1, ?_⟩, holds.live.trans perm.symm⟩
  · rw [ReducerTable.rehash, fresh, Option.bind_some, all, Option.bind_some, if_pos asserted]
  · exact fun el member => holds.keyed el (perm.mem_iff.1 member)
  · have kept := (foldl_insertNoRehash map.elems (map.makeBuckets (nextsz map.nbuckets)) positive ?_).1
    · rw [CilkredMap.rehash, kept, CilkredMap.nbuckets, CilkredMap.makeBuckets, List.length_replicate,
        ← nbuckets, doubled]
    · intro i bucket at_i el member
      simp only [CilkredMap.makeBuckets] at at_i
      rw [List.eq_of_mem_replicate (List.mem_of_getElem? at_i)] at member
      exact absurd member List.not_mem_nil

/-- `rehash_and_insert` adds an element. -/
theorem rehashAndInsert (holds : TableHolds s map) {el : Elem} (keyed : el.key ≠ 0)
    (present : el.view ≠ none) (fresh : ∀ other ∈ s.live, other.key ≠ el.key) :
    ∃ table map', s.table.rehashAndInsert el = some table ∧ TableHolds ⟨table, el :: s.live⟩ map' := by
  rw [ReducerTable.rehashAndInsert]
  split
  · obtain ⟨rehashed, enlarged, held⟩ := holds.rehash
    obtain ⟨table, inserted, after⟩ := held.insertNoRehash keyed present fresh
    exact ⟨table, _, by rw [enlarged, Option.bind_some, inserted], after⟩
  · obtain ⟨table, inserted, after⟩ := holds.insertNoRehash keyed present fresh
    exact ⟨table, _, inserted, after⟩

/-- `__cilkrts_hyper_destroy` removes an element with the leftmost view. -/
theorem hyperDestroy (holds : TableHolds s map) {el : Elem} (member : el ∈ s.live)
    (leftmost : el.isLeftmost = true) :
    ∃ table, s.table.hyperDestroy el.key = some table ∧
      TableHolds ⟨table, s.live.filter fun other => other.key ≠ el.key⟩ (map.remove el.key) := by
  have inMap := holds.live.mem_iff.1 member
  obtain ⟨table, destroyed, represents⟩ := holds.represents.hyperDestroy holds.valid inMap leftmost
  obtain ⟨perm, valid⟩ := holds.valid.remove inMap
  refine ⟨table, destroyed, represents, valid, ?_, ?_, ?_⟩
  · exact fun other kept => holds.keyed other (perm.mem_iff.2 (List.mem_cons_of_mem _ kept))
  · obtain ⟨k, size⟩ := holds.power
    exact ⟨k, (List.length_modify ..).trans size⟩
  · -- the other elements have other keys
    have distinct := (perm.map Elem.key).nodup_iff.1 holds.valid.distinct
    have others : ∀ other ∈ (map.remove el.key).elems, other.key ≠ el.key := by
      intro other kept same
      have listed := List.mem_map_of_mem (f := Elem.key) kept
      rw [same] at listed
      exact (List.nodup_cons.1 distinct).1 listed
    have filtered := (holds.live.trans perm).filter fun other => decide (other.key ≠ el.key)
    rw [List.filter_cons_of_neg (by simp),
      List.filter_eq_self.2 fun other kept => decide_eq_true (others other kept)] at filtered
    exact filtered

/-- An element with the leftmost view is what a removal that succeeds finds. -/
theorem of_hyperDestroy (holds : TableHolds s map) {key : Nat} {table : ReducerTable}
    (destroyed : s.table.hyperDestroy key = some table) :
    ∃ el ∈ s.live, el.key = key ∧ el.isLeftmost = true := by
  obtain ⟨found, looked, searched⟩ := holds.represents.lookup holds.valid key
  rw [ReducerTable.hyperDestroy, looked] at destroyed
  cases found with
  | none => simp at destroyed
  | some found =>
    obtain ⟨i, el⟩ := found
    obtain ⟨member, isKey⟩ := holds.valid.lookup_eq_some.1 searched.symm
    refine ⟨el, holds.live.mem_iff.2 member, isKey, ?_⟩
    split at destroyed
    · rename_i same _
      cases same
      split at destroyed
      · assumption
      · cases destroyed
    · cases destroyed

end TableHolds

/-- Each step keeps table and map together. -/
theorem TableHolds.step {s s' : TableState} {map : CilkredMap} (holds : TableHolds s map) {a : TableLabel}
    (allowed : InsertsNew s a) (taken : tableStep s a = some s') : ∃ map', TableHolds s' map' := by
  cases a with
  | insertNoRehash el =>
    obtain ⟨keyed, present, fresh⟩ := allowed
    obtain ⟨table, inserted, after⟩ := holds.insertNoRehash keyed present fresh
    rw [tableStep, inserted] at taken
    cases taken
    exact ⟨_, after⟩
  | rehashAndInsert el =>
    obtain ⟨keyed, present, fresh⟩ := allowed
    obtain ⟨table, map', inserted, after⟩ := holds.rehashAndInsert keyed present fresh
    rw [tableStep, inserted] at taken
    cases taken
    exact ⟨_, after⟩
  | lookup key =>
    obtain ⟨found, looked, -⟩ := holds.represents.lookup holds.valid key
    rw [tableStep, looked] at taken
    cases taken
    exact ⟨_, holds⟩
  | hyperDestroy key =>
    obtain ⟨table, destroyed, rfl⟩ := Option.map_eq_some_iff.1 taken
    obtain ⟨el, member, rfl, leftmost⟩ := holds.of_hyperDestroy destroyed
    obtain ⟨table', destroyed', after⟩ := holds.hyperDestroy member leftmost
    rw [destroyed] at destroyed'
    cases destroyed'
    exact ⟨_, after⟩

/-- In every run that inserts new keys only the table represents a map of the live elements. -/
theorem tableHolds_of_run {s : TableState} (run : tableMachine.GuardedRun InsertsNew s) :
    ∃ map, TableHolds s map := by
  refine @Machine.GuardedRun.invariant _ _ _ _ (fun s => ∃ map, TableHolds s map) ?_ ?_ _ run
  · rintro s ⟨made, none⟩
    rw [ReducerTable.makeBuckets, if_pos (by decide)] at made
    have table : s.table = ⟨0, [Option.none]⟩ := (Option.some.inj made).symm
    refine ⟨⟨0, 0, [[]], false⟩, ⟨?_, ?_⟩, ⟨by decide, ?_, ?_, ?_, rfl⟩, ?_, ⟨0, rfl⟩, ?_⟩
    · rw [table]
    · rw [table]
      exact .cons rfl .nil
    · intro i bucket at_i el member
      rw [List.mem_singleton.1 (List.mem_of_getElem? at_i)] at member
      exact absurd member List.not_mem_nil
    · exact List.nodup_nil
    · simp [CilkredMap.elems]
    · simp [CilkredMap.elems]
    · rw [none]
      exact .refl _
  · rintro s a s' ⟨map, holds⟩ allowed taken
    exact holds.step allowed taken

/-- The representation of a reducer map. -/
structure TableFaithful (s : TableState) : Prop where
  power : ∃ k, s.table.nbuckets = 2 ^ k
  /-- A live element is in the bucket of its key. -/
  stored : ∀ el ∈ s.live, ∃ (b : ReducerBucket) (i : Nat),
    s.table.buckets[hashfun s.table.nbuckets el.key]? = some (some b) ∧ b.el[i]? = some (.item el)
  /-- Nothing else is stored, and nothing twice. -/
  only : ∀ (j : Nat) (b : ReducerBucket) (i : Nat) (el : Elem),
    s.table.buckets[j]? = some (some b) → b.el[i]? = some (.item el) →
      el ∈ s.live ∧ j = hashfun s.table.nbuckets el.key
  once : ∀ (j : Nat) (b : ReducerBucket) (i i' : Nat) (el el' : Elem),
    s.table.buckets[j]? = some (some b) → b.el[i]? = some (.item el) →
      b.el[i']? = some (.item el') → el.key = el'.key → i = i'
  /-- The elements of a bucket are contiguous from slot 0 on, and a null key follows within its
      `nmax + 1` slots. -/
  shape : ∀ (j : Nat) (b : ReducerBucket), s.table.buckets[j]? = some (some b) → b.el.length = b.nmax + 1 ∧
    ∃ n ≤ b.nmax, (∀ i, i < n ↔ ∃ el, b.el[i]? = some (.item el)) ∧ b.el[n]? = some .null
  nelem : s.table.nelem = s.live.length ∧ (s.live.map Elem.key).Nodup
  lookup : ∀ key, ∃ found, s.table.lookup key = some found ∧
    found.map (·.2) = s.live.find? fun el => el.key = key
  /-- No insertion fails, and no removal of a live key with its leftmost view. -/
  inserts : ∀ el, InsertsNew s (.rehashAndInsert el) →
    (s.table.insertNoRehash el).isSome ∧ (s.table.rehashAndInsert el).isSome
  removes : ∀ el ∈ s.live, el.isLeftmost = true → (s.table.hyperDestroy el.key).isSome

/-- The items of a bucket that holds a list are those of the list. -/
theorem HoldsBucket.item_iff {b : ReducerBucket} {els : List Elem} (holds : HoldsBucket (some b) els)
    (i : Nat) (el : Elem) : b.el[i]? = some (.item el) ↔ els[i]? = some el := by
  obtain ⟨free, cells, -⟩ := holds
  rw [cells]
  rcases Nat.lt_or_ge i els.length with inside | behind
  · exact getElem?_items_iff inside
  · rw [List.getElem?_append_right (by simpa using behind), List.getElem?_eq_none_iff.2 behind,
      List.getElem?_replicate]
    simp

theorem TableHolds.faithful {s : TableState} {map : CilkredMap} (holds : TableHolds s map) :
    TableFaithful s := by
  have nbuckets := holds.represents.nbuckets
  -- a stored element and the list of its bucket
  have list : ∀ j b, s.table.buckets[j]? = some (some b) →
      ∃ els, map.buckets[j]? = some els ∧ HoldsBucket (some b) els := fun j b at_j =>
    forall₂_getElem? holds.represents.buckets at_j
  have distinct := (holds.live.map Elem.key).nodup_iff.2 holds.valid.distinct
  refine ⟨?_, ?_, ?_, ?_, ?_, ⟨?_, distinct⟩, ?_, ?_, ?_⟩
  · rw [nbuckets]
    exact holds.power
  · intro el member
    obtain ⟨els, inMap, inside⟩ := List.mem_flatten.1 (holds.live.mem_iff.1 member)
    obtain ⟨j, at_j⟩ := List.getElem?_of_mem inMap
    obtain ⟨bp, els', at_key, listed, held⟩ := holds.represents.bucket holds.valid.nonempty el.key
    rw [holds.valid.hashed j els at_j el inside, at_j] at listed
    obtain rfl := Option.some.inj listed
    cases bp with
    | none =>
      have empty : els = [] := held
      simp [empty] at inside
    | some b =>
      obtain ⟨i, at_i⟩ := List.getElem?_of_mem inside
      exact ⟨b, i, at_key, (held.item_iff i el).2 at_i⟩
  · intro j b i el at_j at_i
    obtain ⟨els, listed, held⟩ := list j b at_j
    have inside := List.mem_of_getElem? ((held.item_iff i el).1 at_i)
    have inMap : el ∈ map.elems := List.mem_flatten.2 ⟨els, List.mem_of_getElem? listed, inside⟩
    rw [nbuckets]
    exact ⟨holds.live.mem_iff.2 inMap, (holds.valid.hashed j els listed el inside).symm⟩
  · intro j b i i' el el' at_j at_i at_i' same
    obtain ⟨els, listed, held⟩ := list j b at_j
    have first := (held.item_iff i el).1 at_i
    have second := (held.item_iff i' el').1 at_i'
    -- the keys of one bucket are distinct
    have sub : List.Sublist els map.elems := List.sublist_flatten_of_mem (List.mem_of_getElem? listed)
    have keys : (els.map Elem.key).Nodup := holds.valid.distinct.sublist (sub.map Elem.key)
    have inside : i < (els.map Elem.key).length := by
      simpa using (List.getElem?_eq_some_iff.1 first).1
    refine (List.getElem?_inj inside keys).1 ?_
    rw [List.getElem?_map, List.getElem?_map, first, second]
    exact congrArg some same
  · intro j b at_j
    obtain ⟨els, listed, held⟩ := list j b at_j
    refine ⟨held.length, els.length, ?_, ?_, ?_⟩
    · obtain ⟨free, -, nmax⟩ := held
      omega
    · intro i
      simp only [held.item_iff, List.getElem?_eq_some_iff]
      constructor
      · exact fun inside => ⟨els[i], inside, rfl⟩
      · exact fun ⟨_, inside, _⟩ => inside
    · obtain ⟨free, cells, -⟩ := held
      rw [cells, List.getElem?_append_right (by simp)]
      simp
  · rw [holds.represents.nelem, holds.valid.count, holds.live.length_eq]
  · intro key
    obtain ⟨found, looked, searched⟩ := holds.represents.lookup holds.valid key
    refine ⟨found, looked, ?_⟩
    rw [searched]
    ext el
    rw [holds.valid.lookup_eq_some, ← holds.live.mem_iff]
    constructor
    · rintro ⟨member, rfl⟩
      cases search : s.live.find? fun other => other.key = el.key with
      | none => exact absurd (List.find?_eq_none.1 search el member) (by simp)
      | some other =>
        have isKey : other.key = el.key := by simpa using List.find?_some search
        rw [List.inj_on_of_nodup_map distinct (List.mem_of_find?_eq_some search) member isKey]
    · intro search
      exact ⟨List.mem_of_find?_eq_some search, by simpa using List.find?_some search⟩
  · rintro el ⟨keyed, present, fresh⟩
    obtain ⟨table, inserted, -⟩ := holds.insertNoRehash keyed present fresh
    obtain ⟨table', map', inserted', -⟩ := holds.rehashAndInsert keyed present fresh
    simp [inserted, inserted']
  · intro el member leftmost
    obtain ⟨table, destroyed, -⟩ := holds.hyperDestroy member leftmost
    simp [destroyed]

/-- In every run of insertions of new keys, lookups and removals the table is a faithful representation of
the live elements. -/
theorem reducer_table_faithful (s : TableState) (run : tableMachine.GuardedRun InsertsNew s) :
    TableFaithful s := by
  obtain ⟨map, holds⟩ := tableHolds_of_run run
  exact holds.faithful

theorem tableMachine_start : tableMachine.start ⟨⟨0, [none]⟩, []⟩ := by
  refine ⟨?_, rfl⟩
  decide

/-- Three keys of one bucket, with a rehash, and the removal of the first. -/
def insertAndDestroy : List TableLabel :=
  [.rehashAndInsert ⟨4, some 4⟩, .rehashAndInsert ⟨8, some 8⟩, .insertNoRehash ⟨16, some 2⟩, .lookup 8,
    .hyperDestroy 4]

theorem reducer_table_faithful_destroyed :
    (tableMachine.after ⟨⟨0, [none]⟩, []⟩ insertAndDestroy).live = [⟨16, some 2⟩, ⟨8, some 8⟩] ∧
      TableFaithful (tableMachine.after ⟨⟨0, [none]⟩, []⟩ insertAndDestroy) :=
  ⟨by decide, reducer_table_faithful _
    (.after (.start tableMachine_start) insertAndDestroy (by decide))⟩

end CilkL
