/-
Module: CilkL.Proofs.DequePoolArray
Layer: Proofs
Purpose: The arrays of the deque pools hold exactly the deques that were added and not removed. A pool's
  array is the list of its deques followed by what is not in use, and each operation is one on that list:
  adding appends, removing is `swapRemove`, and growing leaves it as it is.
Imports: CilkL.Library.SwapPool, CilkL.Runtime.DequePoolArray
Trusted boundary: none
Main exports: DequePool.Holds, PoolsFaithful, CallersKeep, deque_pools_faithful, chooseDeque_mem
Open obligations: none
-/
import CilkL.Library.SwapPool
import CilkL.Runtime.DequePoolArray

namespace CilkL

variable {ω δ : Type}

/-! ### One array -/

/-- The array holds the deques of a list, in its order. -/
structure DequePool.Holds (p : DequePool δ) (held : List δ) : Prop where
  size : p.size = held.length
  array : ∃ rest, p.array = items held ++ rest
  length : p.array.length = p.capacity
  fits : held.length ≤ p.capacity
  room : 0 < p.capacity
  empty : held = [] → p.array[0]? = some .null

namespace DequePool.Holds

variable {p : DequePool δ} {held : List δ}

/-- What a slot below `size` holds. -/
theorem get (holds : p.Holds held) {i : Nat} (inside : i < held.length) :
    p.array[i]? = some (.item held[i]) := by
  obtain ⟨rest, array⟩ := holds.array
  rw [array, getElem?_items inside]

/-- A slot that holds a deque below `size` holds that of the list. -/
theorem get_iff (holds : p.Holds held) {i : Nat} {d : δ} (inside : i < held.length) :
    p.array[i]? = some (.item d) ↔ held[i]? = some d := by
  obtain ⟨rest, array⟩ := holds.array
  rw [array, getElem?_items_iff inside]

theorem validate (holds : p.Holds held) : p.validate = true := by
  rw [DequePool.validate, List.all_eq_true]
  intro i inRange
  rw [holds.size, List.mem_range] at inRange
  rw [holds.get inRange]

/-- `resize` copies the deques. -/
theorem resize (holds : p.Holds held) {cap : Nat} (larger : held.length < cap) :
    ∃ p', p.resize cap = some p' ∧ p'.Holds held ∧ p'.capacity = cap := by
  have within : p.size < cap := holds.size ▸ larger
  refine ⟨_, if_pos within, ?_, rfl⟩
  obtain ⟨rest, array⟩ := holds.array
  have copied : p.array.take p.size = items held := by
    rw [array, holds.size, List.take_left' (by simp)]
  rw [copied]
  refine ⟨holds.size, ⟨_, rfl⟩, ?_, Nat.le_of_lt larger, Nat.lt_of_le_of_lt (Nat.zero_le _) larger, ?_⟩
  · simp only [List.length_append, length_items, List.length_cons, List.length_replicate, holds.size]
    omega
  · intro empty
    simp [empty]

/-- The store of a new deque behind the last one. -/
theorem push (holds : p.Holds held) (room : held.length < p.capacity) (d : δ) :
    ({ p with array := p.array.set p.size (.item d), size := p.size + 1 } : DequePool δ).Holds
      (held ++ [d]) := by
  obtain ⟨rest, array⟩ := holds.array
  have length := holds.length
  rw [array, List.length_append, length_items] at length
  refine ⟨by simp [holds.size], ⟨rest.tail, ?_⟩, by simpa using holds.length, ?_, holds.room, by simp⟩
  · cases rest with
    | nil =>
      simp only [List.length_nil] at length
      omega
    | cons cell rest =>
      simp [array, holds.size]
  · simp only [List.length_append, List.length_singleton]
    exact room

/-- The stores of `deque_pool_remove`. -/
theorem remove (holds : p.Holds held) {i : Nat} {d last : δ} (at_i : held[i]? = some d)
    (isLast : held.getLast? = some last) :
    ({ p with array := (p.array.set i (.item last)).set (p.size - 1) .null, size := p.size - 1 } :
        DequePool δ).Holds (swapRemove held i) := by
  obtain ⟨rest, array⟩ := holds.array
  obtain ⟨init, rfl⟩ := List.getLast?_eq_some_iff.1 isLast
  have inside := (List.getElem?_eq_some_iff.1 at_i).1
  have size := holds.size
  have fits := holds.fits
  simp only [List.length_append, List.length_singleton] at inside size fits
  have kept : (swapRemove (init ++ [last]) i).length = init.length := by
    rw [swapRemove_concat]
    split <;> simp
  have stored : (p.array.set i (.item last)).set (p.size - 1) .null =
      items (swapRemove (init ++ [last]) i) ++ .null :: rest := by
    rw [array, size, swapRemove_concat]
    split
    · rename_i wasLast
      subst wasLast
      simp
    · rename_i before
      have below : i < init.length := by omega
      simp [below, items_set]
  refine ⟨by rw [kept]; simp [size], ⟨_, stored⟩, ?_, by rw [kept]; show init.length ≤ p.capacity; omega,
    holds.room, ?_⟩
  · simpa using holds.length
  · intro empty
    show ((p.array.set i (.item last)).set (p.size - 1) .null)[0]? = some .null
    rw [stored, empty]
    rfl

end DequePool.Holds

/-! ### All pools -/

variable [DecidableEq ω] [DecidableEq δ] {ltqsize : Nat} {s s' : DequePoolsState ω δ}

/-- The pools hold the deques of a family of lists. -/
structure PoolsHold (s : DequePoolsState ω δ) (held : ω → PoolKind → List δ) : Prop where
  array : ∀ v kind, (s.pools v kind).Holds (held v kind)
  slots : ∀ v kind, Slots s.self (held v kind)
  nodup : ∀ v kind, (held v kind).Nodup
  content : ∀ v kind d, d ∈ held v kind ↔ s.history d = .held v kind
  owner : ∀ v kind, ∀ d ∈ held v kind, s.worker d = some v
  removed : ∀ d, s.history d = .removed → s.self d = invalidDequeIndex ∧ s.worker d = none

/-- The deque is in a pool. -/
def PoolHistory.inPool : PoolHistory ω → Bool
  | .held _ _ => true
  | _ => false

/-- What the callers of the pool's functions see to: a deque that is added is in no pool, its flag is that
of the pool and the caller owns the victim's lock; a deque that is removed is in that pool, under that lock;
and only deques in no pool are used otherwise. -/
def CallersKeep (s : DequePoolsState ω δ) : PoolArrayLabel ω δ → Prop
  | .add w victim kind d =>
      s.lock victim = some w ∧ kind = .of (s.resumable d) ∧ (s.history d).inPool = false
  | .remove victim kind d => s.lock victim ≠ none ∧ s.history d = .held victim kind
  | .use d _ _ => (s.history d).inPool = false
  | _ => True

instance (s : DequePoolsState ω δ) : (a : PoolArrayLabel ω δ) → Decidable (CallersKeep s a)
  | .lock _ _ | .unlock _ | .mark _ _ => inferInstanceAs (Decidable True)
  | .add w victim kind d =>
      inferInstanceAs (Decidable (s.lock victim = some w ∧ kind = .of (s.resumable d) ∧
        (s.history d).inPool = false))
  | .remove victim kind d =>
      inferInstanceAs (Decidable (s.lock victim ≠ none ∧ s.history d = .held victim kind))
  | .use d _ _ => inferInstanceAs (Decidable ((s.history d).inPool = false))

omit [DecidableEq ω] [DecidableEq δ] in
/-- A deque in no pool is in none of the lists. -/
theorem PoolsHold.absent {held : ω → PoolKind → List δ} (hold : PoolsHold s held) {d : δ}
    (outside : (s.history d).inPool = false) (v : ω) (kind : PoolKind) : d ∉ held v kind := by
  intro member
  rw [(hold.content v kind d).1 member] at outside
  cases outside

omit [DecidableEq ω] [DecidableEq δ] in
/-- A deque in a pool is at the slot it knows. -/
theorem PoolsHold.at_self {held : ω → PoolKind → List δ} (hold : PoolsHold s held) {v : ω}
    {kind : PoolKind} {d : δ} (member : d ∈ held v kind) :
    ∃ i : Nat, s.self d = i ∧ (held v kind)[i]? = some d := by
  obtain ⟨i, inside, at_i⟩ := List.mem_iff_getElem.1 member
  have found : (held v kind)[i]? = some d := by
    rw [List.getElem?_eq_getElem inside, at_i]
  exact ⟨i, hold.slots v kind i d found, found⟩

omit [DecidableEq δ] in
theorem setPoolArray_self (s : DequePoolsState ω δ) (v : ω) (kind : PoolKind) (p : DequePool δ) :
    s.setPoolArray v kind p v kind = p := by
  simp [DequePoolsState.setPoolArray]

omit [DecidableEq δ] in
/-- Replacing one pool and its list keeps the arrays and lists together. -/
theorem PoolsHold.replace {held : ω → PoolKind → List δ} (hold : PoolsHold s held) {victim : ω}
    {kind : PoolKind} {p : DequePool δ} {deques : List δ} (holds : p.Holds deques) (v : ω)
    (kind' : PoolKind) :
    (s.setPoolArray victim kind p v kind').Holds (setPool held victim kind deques v kind') := by
  simp only [DequePoolsState.setPoolArray, setPool]
  split
  · exact holds
  · exact hold.array v kind'

/-- The stores of `deque_pool_add` append. -/
theorem PoolsHold.storeAdded {held : ω → PoolKind → List δ} (hold : PoolsHold s held) {victim : ω}
    {kind : PoolKind} {p : DequePool δ} {d : δ} (holds : p.Holds (held victim kind))
    (free : (held victim kind).length < p.capacity) (outside : (s.history d).inPool = false) :
    PoolsHold (s.storeAdded victim kind p d)
      (setPool held victim kind (held victim kind ++ [d])) := by
  have absent := hold.absent outside
  have same : ∀ v kind', ∀ e ∈ held v kind', (s.storeAdded victim kind p d).self e = s.self e := by
    intro v kind' e member
    have other : e ≠ d := fun eq => absent v kind' (eq ▸ member)
    exact setAt_other other _ _
  refine ⟨fun v kind' => hold.replace (holds.push free d) v kind', ?_, ?_, ?_, ?_, ?_⟩
  · intro v kind'
    rw [setPool]
    split
    · rename_i here
      obtain ⟨rfl, rfl⟩ := here
      refine (hold.slots v kind').append (same v kind') ?_
      simp [DequePoolsState.storeAdded, holds.size]
    · exact (hold.slots v kind').congr (same v kind')
  · intro v kind'
    rw [setPool]
    split
    · rename_i here
      obtain ⟨rfl, rfl⟩ := here
      exact List.nodup_append.2 ⟨hold.nodup v kind', by simp, by
        intro e member e' new
        rw [List.mem_singleton.1 new]
        exact fun eq => absent v kind' (eq ▸ member)⟩
    · exact hold.nodup v kind'
  · intro v kind' e
    have content := hold.content v kind' e
    by_cases new : e = d
    · subst new
      by_cases here : v = victim ∧ kind' = kind
      · obtain ⟨rfl, rfl⟩ := here
        simp [setPool, DequePoolsState.storeAdded]
      · have elsewhere : ¬ (victim = v ∧ kind = kind') := fun eq => here ⟨eq.1.symm, eq.2.symm⟩
        simp [setPool, here, DequePoolsState.storeAdded, absent v kind', elsewhere]
    · rw [show (s.storeAdded victim kind p d).history e = s.history e from setAt_other new _ _, ← content,
        setPool]
      split
      · rename_i here
        obtain ⟨rfl, rfl⟩ := here
        simp [new]
      · rfl
  · intro v kind' e member
    by_cases new : e = d
    · subst new
      have here : v = victim ∧ kind' = kind := by
        by_contra elsewhere
        rw [setPool, if_neg elsewhere] at member
        exact absent v kind' member
      simp [DequePoolsState.storeAdded, here.1]
    · rw [show (s.storeAdded victim kind p d).worker e = s.worker e from setAt_other new _ _]
      refine hold.owner v kind' e ?_
      rw [setPool] at member
      split at member
      · rename_i here
        obtain ⟨rfl, rfl⟩ := here
        simpa [new] using member
      · exact member
  · intro e removed
    by_cases new : e = d
    · simp [DequePoolsState.storeAdded, new] at removed
    · simp only [DequePoolsState.storeAdded, setAt_other new] at removed ⊢
      exact hold.removed e removed

/-- `deque_pool_add` succeeds and appends. -/
theorem PoolsHold.add {held : ω → PoolKind → List δ} (hold : PoolsHold s held) {w victim : ω}
    {kind : PoolKind} {d : δ} (kept : CallersKeep s (.add w victim kind d)) :
    ∃ s', s.dequePoolAdd w victim kind d = some s' ∧
      PoolsHold s' (setPool held victim kind (held victim kind ++ [d])) := by
  obtain ⟨locked, flag, outside⟩ := kept
  have array := hold.array victim kind
  have room := array.room
  have size := array.size
  have fits := array.fits
  -- the pool that the store is made into
  obtain ⟨p, grown, holds, free⟩ : ∃ p : DequePool δ,
      (if (s.pools victim kind).size = (s.pools victim kind).capacity then
        (s.pools victim kind).resize (2 * (s.pools victim kind).capacity)
      else some (s.pools victim kind)) = some p ∧ p.Holds (held victim kind) ∧
        (held victim kind).length < p.capacity := by
    split
    · obtain ⟨p, resized, holds, capacity⟩ :=
        array.resize (show (held victim kind).length < 2 * (s.pools victim kind).capacity by omega)
      exact ⟨p, resized, holds, by omega⟩
    · exact ⟨_, rfl, array, by omega⟩
  have added := hold.storeAdded holds free outside
  have valid : ((s.storeAdded victim kind p d).pools victim kind).validate = true :=
    (added.array victim kind).validate
  have within : p.size < p.array.length ∧ p.size + 1 ≤ p.capacity := by
    rw [holds.size, holds.length]
    exact ⟨free, free⟩
  refine ⟨_, ?_, added⟩
  simp only [DequePoolsState.dequePoolAdd, if_pos (And.intro locked flag), grown, within, valid, and_self,
    if_true]

/-- The stores of `deque_pool_remove` move the last deque into the gap. -/
theorem PoolsHold.storeRemoved {held : ω → PoolKind → List δ} (hold : PoolsHold s held) {victim : ω}
    {kind : PoolKind} {i : Nat} {d moved : δ} (self : s.self d = i)
    (at_i : (held victim kind)[i]? = some d) (isLast : (held victim kind).getLast? = some moved) :
    PoolsHold (s.storeRemoved victim kind d moved)
      (setPool held victim kind (swapRemove (held victim kind) i)) := by
  have nodup := hold.nodup victim kind
  have inPool : s.history d = .held victim kind :=
    (hold.content victim kind d).1 (List.mem_of_getElem? at_i)
  have inLast : s.history moved = .held victim kind :=
    (hold.content victim kind moved).1 (List.mem_of_getLast? isLast)
  -- a deque of another pool is neither of the two
  have other : ∀ v kind', ¬ (v = victim ∧ kind' = kind) → ∀ e ∈ held v kind', e ≠ d ∧ e ≠ moved := by
    intro v kind' elsewhere e member
    have there := (hold.content v kind' e).1 member
    constructor <;> rintro rfl
    · rw [inPool, PoolHistory.held.injEq] at there
      exact elsewhere ⟨there.1.symm, there.2.symm⟩
    · rw [inLast, PoolHistory.held.injEq] at there
      exact elsewhere ⟨there.1.symm, there.2.symm⟩
  have same : ∀ e, e ≠ d → e ≠ moved → (s.storeRemoved victim kind d moved).self e = s.self e := by
    intro e notRemoved notMoved
    simp [DequePoolsState.storeRemoved, setAt_other notRemoved, setAt_other notMoved]
  refine ⟨?_, ?_, ?_, ?_, ?_, ?_⟩
  · intro v kind'
    have removed := (hold.array victim kind).remove at_i isLast
    refine hold.replace ?_ v kind'
    simpa [self] using removed
  · intro v kind'
    rw [setPool]
    split
    · rename_i here
      obtain ⟨rfl, rfl⟩ := here
      refine (hold.slots v kind').swapRemove nodup at_i isLast ?_ ?_
      · intro notRemoved
        simp [DequePoolsState.storeRemoved, setAt_other notRemoved, self]
      · exact fun e _ => same e
    · rename_i elsewhere
      refine (hold.slots v kind').congr fun e member => ?_
      obtain ⟨notRemoved, notMoved⟩ := other v kind' elsewhere e member
      exact same e notRemoved notMoved
  · intro v kind'
    rw [setPool]
    split
    · exact nodup_swapRemove nodup at_i
    · exact hold.nodup v kind'
  · intro v kind' e
    have content := hold.content v kind' e
    by_cases removed : e = d
    · subst removed
      rw [setPool]
      split
      · simp [mem_swapRemove nodup at_i, DequePoolsState.storeRemoved]
      · rename_i elsewhere
        simp only [DequePoolsState.storeRemoved, setAt_self, reduceCtorEq, iff_false]
        exact fun member => (other v kind' elsewhere e member).1 rfl
    · rw [show (s.storeRemoved victim kind d moved).history e = s.history e from setAt_other removed _ _,
        ← content, setPool]
      split
      · rename_i here
        obtain ⟨rfl, rfl⟩ := here
        simp [mem_swapRemove nodup at_i, removed]
      · rfl
  · intro v kind' e member
    have kept : e ≠ d ∧ e ∈ held v kind' := by
      rw [setPool] at member
      split at member
      · rename_i here
        obtain ⟨rfl, rfl⟩ := here
        exact ((mem_swapRemove nodup at_i).1 member).symm
      · rename_i elsewhere
        exact ⟨(other v kind' elsewhere e member).1, member⟩
    rw [show (s.storeRemoved victim kind d moved).worker e = s.worker e from setAt_other kept.1 _ _]
    exact hold.owner v kind' e kept.2
  · intro e removed
    by_cases now : e = d
    · simp [DequePoolsState.storeRemoved, now]
    · rw [show (s.storeRemoved victim kind d moved).history e = s.history e from setAt_other now _ _]
        at removed
      have notMoved : e ≠ moved := by
        rintro rfl
        rw [inLast] at removed
        cases removed
      rw [same e now notMoved,
        show (s.storeRemoved victim kind d moved).worker e = s.worker e from setAt_other now _ _]
      exact hold.removed e removed

/-- `deque_pool_remove` succeeds, with `swapRemove`. -/
theorem PoolsHold.remove {held : ω → PoolKind → List δ} (hold : PoolsHold s held) {victim : ω}
    {kind : PoolKind} {d : δ} (kept : CallersKeep s (.remove victim kind d)) :
    ∃ s', s.dequePoolRemove victim kind d = some s' ∧
      PoolsHold s' (setPool held victim kind (swapRemove (held victim kind) (s.self d).toNat)) := by
  obtain ⟨locked, inPool⟩ := kept
  have member := (hold.content victim kind d).2 inPool
  obtain ⟨i, self, at_i⟩ := hold.at_self member
  have array := hold.array victim kind
  have size := array.size
  have inside := (List.getElem?_eq_some_iff.1 at_i).1
  obtain ⟨moved, isLast⟩ : ∃ moved, (held victim kind).getLast? = some moved :=
    Option.isSome_iff_exists.1 (by simpa using List.ne_nil_of_mem member)
  have lastSlot : (s.pools victim kind).array[(s.pools victim kind).size - 1]? = some (.item moved) := by
    rw [size, array.get_iff (by omega), ← List.getLast?_eq_getElem?]
    exact isLast
  have ownSlot : (s.pools victim kind).array[(s.self d).toNat]? = some (.item d) := by
    rw [self, Int.toNat_natCast, array.get_iff inside]
    exact at_i
  have removed := hold.storeRemoved self at_i isLast
  have valid : ((s.storeRemoved victim kind d moved).pools victim kind).validate = true :=
    (removed.array victim kind).validate
  refine ⟨_, ?_, by rw [self]; exact removed⟩
  have bounds : 0 ≤ s.self d ∧ s.self d < (s.pools victim kind).size := by
    rw [self, size]
    omega
  simp only [DequePoolsState.dequePoolRemove, bounds, ownSlot, lastSlot, hold.owner victim kind d member,
    valid, locked, ne_eq, not_false_eq_true, and_self, if_true]

/-- Each step keeps the pools and lists together. -/
theorem PoolsHold.step {held : ω → PoolKind → List δ} (hold : PoolsHold s held) {a : PoolArrayLabel ω δ}
    (kept : CallersKeep s a) (taken : poolArrayStep s a = some s') : ∃ held', PoolsHold s' held' := by
  cases a with
  | lock w victim =>
    simp only [poolArrayStep] at taken
    split at taken
    · cases taken
      exact ⟨held, hold.array, hold.slots, hold.nodup, hold.content, hold.owner, hold.removed⟩
    · cases taken
  | unlock victim =>
    cases taken
    exact ⟨held, hold.array, hold.slots, hold.nodup, hold.content, hold.owner, hold.removed⟩
  | add w victim kind d =>
    obtain ⟨next, added, holds⟩ := hold.add kept
    rw [poolArrayStep, added] at taken
    cases taken
    exact ⟨_, holds⟩
  | remove victim kind d =>
    obtain ⟨next, removed, holds⟩ := hold.remove kept
    rw [poolArrayStep, removed] at taken
    cases taken
    exact ⟨_, holds⟩
  | mark d resumable =>
    cases taken
    exact ⟨held, hold.array, hold.slots, hold.nodup, hold.content, hold.owner, hold.removed⟩
  | use d self worker =>
    cases taken
    have other : ∀ v kind, ∀ e ∈ held v kind, e ≠ d := by
      rintro v kind e member rfl
      exact hold.absent kept v kind member
    refine ⟨held, hold.array, ?_, hold.nodup, ?_, ?_, ?_⟩
    · exact fun v kind => (hold.slots v kind).congr fun e member => setAt_other (other v kind e member) _ _
    · intro v kind e
      by_cases used : e = d
      · subst used
        simp only [setAt_self, reduceCtorEq, iff_false]
        exact fun member => other v kind e member rfl
      · simp only [setAt_other used]
        exact hold.content v kind e
    · intro v kind e member
      simp only [setAt_other (other v kind e member)]
      exact hold.owner v kind e member
    · intro e removed
      by_cases used : e = d
      · simp [used] at removed
      · simp only [setAt_other used] at removed ⊢
        exact hold.removed e removed

/-- In every run of callers that keep their part the pools hold some lists. -/
theorem poolsHold_of_run (slots : 0 < ltqsize)
    (run : (poolArrayMachine ω δ ltqsize).GuardedRun CallersKeep s) : ∃ held, PoolsHold s held := by
  refine @Machine.GuardedRun.invariant _ _ _ _ (fun s => ∃ held, PoolsHold s held) ?_ ?_ _ run
  · rintro s ⟨pools, -, outside⟩
    refine ⟨fun _ _ => [], ?_, fun _ _ => .nil _, fun _ _ => List.nodup_nil, ?_, ?_, ?_⟩
    · intro v kind
      have init := pools v kind
      rw [dequePoolInit, DequePool.resize, if_pos slots] at init
      rw [← Option.some.inj init]
      exact ⟨rfl, ⟨_, rfl⟩, by simp; omega, Nat.zero_le _, slots, fun _ => rfl⟩
    · simp [outside]
    · simp
    · simp [outside]
  · rintro s a s' ⟨held, hold⟩ kept taken
    exact hold.step kept taken

/-! ### The pools as index sets -/

/-- The pools are the sets of deques that were added and not removed, each deque at the index it knows. -/
structure PoolsFaithful (s : DequePoolsState ω δ) : Prop where
  entry : ∀ v kind i, i < (s.pools v kind).size →
    ∃ d, (s.pools v kind).array[i]? = some (.item d) ∧ s.self d = i
  /-- No deque occurs twice in one pool. -/
  once : ∀ v kind i j d, i < (s.pools v kind).size → j < (s.pools v kind).size →
    (s.pools v kind).array[i]? = some (.item d) → (s.pools v kind).array[j]? = some (.item d) → i = j
  content : ∀ v kind d, (∃ i < (s.pools v kind).size, (s.pools v kind).array[i]? = some (.item d)) ↔
    s.history d = .held v kind
  fits : ∀ v kind, (s.pools v kind).size ≤ (s.pools v kind).capacity ∧
    (s.pools v kind).array.length = (s.pools v kind).capacity
  /-- What `choose_deque` asserts. -/
  empty : ∀ v kind, (s.pools v kind).size = 0 → (s.pools v kind).array[0]? = some .null
  removed : ∀ d, s.history d = .removed → s.self d = invalidDequeIndex ∧ s.worker d = none
  /-- Adding and removing fail no assertion and stay within the array. -/
  added : ∀ w victim kind d, CallersKeep s (.add w victim kind d) →
    (s.dequePoolAdd w victim kind d).isSome
  taken : ∀ victim kind d, CallersKeep s (.remove victim kind d) →
    (s.dequePoolRemove victim kind d).isSome

theorem PoolsHold.faithful {held : ω → PoolKind → List δ} (hold : PoolsHold s held) :
    PoolsFaithful s := by
  have get : ∀ v kind i d, i < (s.pools v kind).size →
      ((s.pools v kind).array[i]? = some (.item d) ↔ (held v kind)[i]? = some d) := by
    intro v kind i d inside
    exact (hold.array v kind).get_iff ((hold.array v kind).size ▸ inside)
  have self : ∀ v kind i d, i < (s.pools v kind).size →
      (s.pools v kind).array[i]? = some (.item d) → s.self d = i := by
    intro v kind i d inside at_i
    exact hold.slots v kind i d ((get v kind i d inside).1 at_i)
  refine ⟨?_, ?_, ?_, ?_, ?_, hold.removed, ?_, ?_⟩
  · intro v kind i inside
    have at_i := (hold.array v kind).get ((hold.array v kind).size ▸ inside)
    exact ⟨_, at_i, self v kind i _ inside at_i⟩
  · intro v kind i j d inside inside' at_i at_j
    have first := self v kind i d inside at_i
    have second := self v kind j d inside' at_j
    omega
  · intro v kind d
    rw [← hold.content v kind d, List.mem_iff_getElem?]
    constructor
    · rintro ⟨i, inside, at_i⟩
      exact ⟨i, (get v kind i d inside).1 at_i⟩
    · rintro ⟨i, at_i⟩
      have inside : i < (s.pools v kind).size := by
        rw [(hold.array v kind).size]
        exact (List.getElem?_eq_some_iff.1 at_i).1
      exact ⟨i, inside, (get v kind i d inside).2 at_i⟩
  · intro v kind
    rw [(hold.array v kind).size]
    exact ⟨(hold.array v kind).fits, (hold.array v kind).length⟩
  · intro v kind none
    refine (hold.array v kind).empty ?_
    rw [(hold.array v kind).size] at none
    exact List.length_eq_zero_iff.1 none
  · intro w victim kind d kept
    obtain ⟨next, added, -⟩ := hold.add kept
    simp [added]
  · intro victim kind d kept
    obtain ⟨next, removed, -⟩ := hold.remove kept
    simp [removed]

/-- In every run of any callers that keep their part the pools are faithful index sets. -/
theorem deque_pools_faithful (ltqsize : Nat) (slots : 0 < ltqsize) (s : DequePoolsState ω δ)
    (run : (poolArrayMachine ω δ ltqsize).GuardedRun CallersKeep s) : PoolsFaithful s := by
  obtain ⟨held, hold⟩ := poolsHold_of_run slots run
  exact hold.faithful

/-- Two deques and room for one of them at first. -/
def onePool : DequePoolsState (Fin 1) (Fin 2) where
  pools := fun _ _ => ⟨[.null], 0, 1⟩
  self := fun _ => activeDequeIndex
  worker := fun _ => none
  resumable := fun _ => false
  lock := fun _ => none
  history := fun _ => .outside

theorem onePool_start : (poolArrayMachine (Fin 1) (Fin 2) 1).start onePool :=
  ⟨fun _ _ => rfl, fun _ => rfl, fun _ => rfl⟩

/-- The array grows, and then its first deque is removed. -/
def growAndRemove : List (PoolArrayLabel (Fin 1) (Fin 2)) :=
  [.lock 0 0, .add 0 0 .suspended 0, .add 0 0 .suspended 1, .remove 0 .suspended 0, .unlock 0]

theorem deque_pools_faithful_grown :
    ((poolArrayMachine (Fin 1) (Fin 2) 1).after onePool growAndRemove).pools 0 .suspended =
        ⟨[.item 1, .null], 1, 2⟩ ∧
      PoolsFaithful ((poolArrayMachine (Fin 1) (Fin 2) 1).after onePool growAndRemove) :=
  ⟨by decide, deque_pools_faithful 1 (by decide) _
    (.after (.start onePool_start) growAndRemove (by decide))⟩

/-! ### `choose_deque` -/

/-- `choose_deque` fails no assertion, and what it returns is the active deque of the victim or a deque
in a slot in use of a pool of the victim. -/
theorem chooseDeque_mem (slots : 0 < ltqsize)
    (run : (poolArrayMachine ω δ ltqsize).GuardedRun CallersKeep s) {w victim : ω}
    (locked : s.lock victim = some w) (rand : Nat) :
    s.chooseDeque w victim rand = some .active ∨
      ∃ d kind, s.chooseDeque w victim rand = some (.pooled d) ∧ s.history d = .held victim kind ∧
        ∃ i < (s.pools victim kind).size, (s.pools victim kind).array[i]? = some (.item d) := by
  obtain ⟨held, hold⟩ := poolsHold_of_run slots run
  have faithful := hold.faithful
  -- the pool and the index that are chosen
  obtain ⟨kind, index, chosen, inside⟩ : ∃ kind index,
      (if 0 < (s.pools victim .resumable).size then
          (s.pools victim .resumable, (s.pools victim .resumable).size)
        else if w = victim ∧ 0 < (s.pools victim .suspended).size then
          (s.pools victim .suspended, rand % (s.pools victim .suspended).size + 1)
        else (s.pools victim .suspended, rand % ((s.pools victim .suspended).size + 1))) =
        (s.pools victim kind, index) ∧ index ≤ (s.pools victim kind).size := by
    split
    · exact ⟨.resumable, _, rfl, Nat.le_refl _⟩
    · split
      · rename_i own
        exact ⟨.suspended, _, rfl, Nat.mod_lt _ own.2⟩
      · exact ⟨.suspended, _, rfl, Nat.le_of_lt_succ (Nat.mod_lt _ (Nat.succ_pos _))⟩
  have asserted : w = victim → (s.pools victim kind).size = 0 →
      (s.pools victim kind).array[0]? = some .null := fun _ => faithful.empty victim kind
  simp only [DequePoolsState.chooseDeque, guard, if_pos locked, chosen, if_pos asserted, pure,
    Option.bind_eq_bind, Option.bind_some]
  by_cases active : index = 0
  · exact .inl (by simp [active])
  · obtain ⟨d, at_i, -⟩ := faithful.entry victim kind (index - 1) (by omega)
    have slot : ∃ i < (s.pools victim kind).size, (s.pools victim kind).array[i]? = some (.item d) :=
      ⟨index - 1, by omega, at_i⟩
    refine .inr ⟨d, kind, ?_, (faithful.content victim kind d).1 slot, slot⟩
    simp [active, at_i]

end CilkL
