/-
Module: CilkL.Runtime.DequePoolArray
Layer: Runtime
Purpose: The two deque pools of every worker as the arrays they are in memory: `resize`,
  `deque_pool_init`, `deque_pool_add`, `deque_pool_remove`, `deque_pool_validate` and `choose_deque`. Fresh
  memory is not initialised, and what an assertion reads from it is not defined. A failed assertion, an
  access outside an array and a load through anything but a deque have no result. What other code does to a
  deque that is in no pool (`deque_init`, `deque_switch`, `deque_suspend`) is a store of any values.
  Indices are unbounded: every deque keeps two arrays of `ltqsize` slots, and 2^31 of them do not exist.
Imports: CilkL.Library.Cells, CilkL.Library.Machine, CilkL.Runtime.DequePool
Trusted boundary: human-reviewed spec (translated from deque_pool.c and scheduler.c)
Main exports: DequePool, DequePoolsState, poolArrayStep, poolArrayMachine, chooseDeque
Open obligations: none
-/
import CilkL.Library.Cells
import CilkL.Library.Machine
import CilkL.Runtime.DequePool

namespace CilkL

/-- `deque_pool`. -/
structure DequePool (δ : Type) where
  array : List (Cell δ)
  size : Nat
  capacity : Nat
deriving DecidableEq, Repr

/-- Where a deque was put last. No code reads it. -/
inductive PoolHistory (ω : Type) where
  /-- It is used by other code. -/
  | outside
  | held (victim : ω) (kind : PoolKind)
  /-- A pool gave it up, and no other code has used it since. -/
  | removed
deriving DecidableEq, Repr

/-- The pools of all workers, and the fields of the deques. -/
structure DequePoolsState (ω δ : Type) where
  pools : ω → PoolKind → DequePool δ
  self : δ → Int
  worker : δ → Option ω
  resumable : δ → Bool
  /-- The owner of the worker's lock. -/
  lock : ω → Option ω
  history : δ → PoolHistory ω

variable {ω δ : Type} [DecidableEq ω] [DecidableEq δ]

/-- `resize`: the copied slots, a NULL behind them, and the rest of the fresh memory. -/
def DequePool.resize (p : DequePool δ) (cap : Nat) : Option (DequePool δ) :=
  if p.size < cap then
    some {
      array := p.array.take p.size ++ .null :: .replicate (cap - p.size - 1) .uninitialised
      size := p.size
      capacity := cap }
  else none

/-- `deque_pool_init`. -/
def dequePoolInit (ltqsize : Nat) : Option (DequePool δ) :=
  DequePool.resize ⟨[], 0, 0⟩ ltqsize

/-- The loop of `deque_pool_validate`: every slot below `size` is known not to be NULL. -/
def DequePool.validate (p : DequePool δ) : Bool :=
  (List.range p.size).all fun i =>
    match p.array[i]? with
    | some (.item _) => true
    | _ => false

namespace DequePoolsState

/-- One pool is replaced. -/
def setPoolArray (s : DequePoolsState ω δ) (victim : ω) (kind : PoolKind) (p : DequePool δ) :
    ω → PoolKind → DequePool δ :=
  fun w' kind' => if w' = victim ∧ kind' = kind then p else s.pools w' kind'

/-- The stores of `deque_pool_add`, where `p` has room. -/
def storeAdded (s : DequePoolsState ω δ) (victim : ω) (kind : PoolKind) (p : DequePool δ) (d : δ) :
    DequePoolsState ω δ :=
  { s with
    self := setAt s.self d p.size
    worker := setAt s.worker d (some victim)
    pools := s.setPoolArray victim kind
      { p with array := p.array.set p.size (.item d), size := p.size + 1 }
    history := setAt s.history d (.held victim kind) }

/-- `deque_pool_add(victim, p, d)` by worker `w`, where `p` is that pool of the victim. -/
def dequePoolAdd (s : DequePoolsState ω δ) (w victim : ω) (kind : PoolKind) (d : δ) :
    Option (DequePoolsState ω δ) :=
  -- `CILK_ASSERT(victim->l->lock.owner == w)`, and that the pool is the one for `d->resumable`
  if s.lock victim = some w ∧ kind = .of (s.resumable d) then
    let p := s.pools victim kind
    match if p.size = p.capacity then p.resize (2 * p.capacity) else some p with
    | some p =>
        let added := s.storeAdded victim kind p d
        if p.size < p.array.length ∧ p.size + 1 ≤ p.capacity ∧ (added.pools victim kind).validate then
          some added
        else none
    | none => none
  else none

/-- The stores of `deque_pool_remove`, where `moved` is in the last slot. -/
def storeRemoved (s : DequePoolsState ω δ) (victim : ω) (kind : PoolKind) (d moved : δ) :
    DequePoolsState ω δ :=
  let p := s.pools victim kind
  { s with
    -- `p->array[last]->self = d->self`, and at the end `d->self = INVALID_DEQUE_INDEX`
    self := setAt (setAt s.self moved (s.self d)) d invalidDequeIndex
    worker := setAt s.worker d none
    pools := s.setPoolArray victim kind
      { p with
        array := (p.array.set (s.self d).toNat (.item moved)).set (p.size - 1) .null
        size := p.size - 1 }
    history := setAt s.history d .removed }

/-- `deque_pool_remove(p, d)`, where `p` is that pool of the victim. -/
def dequePoolRemove (s : DequePoolsState ω δ) (victim : ω) (kind : PoolKind) (d : δ) :
    Option (DequePoolsState ω δ) :=
  let p := s.pools victim kind
  if 0 ≤ s.self d ∧ s.self d < p.size ∧ p.array[(s.self d).toNat]? = some (.item d) then
    match p.array[p.size - 1]?, s.worker d with
    | some (.item moved), some owner =>
        let removed := s.storeRemoved victim kind d moved
        -- `deque_pool_validate(p, d->worker)` asserts that the lock of `d->worker` is taken
        if s.lock owner ≠ none ∧ (removed.pools victim kind).validate then some removed else none
    | _, _ => none
  else none

end DequePoolsState

/-- The steps. -/
inductive PoolArrayLabel (ω δ : Type) where
  | lock (w victim : ω)
  | unlock (victim : ω)
  | add (w victim : ω) (kind : PoolKind) (d : δ)
  | remove (victim : ω) (kind : PoolKind) (d : δ)
  /-- `d->resumable` is set. -/
  | mark (d : δ) (resumable : Bool)
  /-- Other code sets `d->self` and `d->worker`. -/
  | use (d : δ) (self : Int) (worker : Option ω)
deriving DecidableEq, Repr

open DequePoolsState in
def poolArrayStep (s : DequePoolsState ω δ) : PoolArrayLabel ω δ → Option (DequePoolsState ω δ)
  | .lock w victim =>
      if s.lock victim = none then some { s with lock := setAt s.lock victim (some w) } else none
  | .unlock victim => some { s with lock := setAt s.lock victim none }
  | .add w victim kind d => s.dequePoolAdd w victim kind d
  | .remove victim kind d => s.dequePoolRemove victim kind d
  | .mark d resumable => some { s with resumable := setAt s.resumable d resumable }
  | .use d self worker => some { s with
      self := setAt s.self d self
      worker := setAt s.worker d worker
      history := setAt s.history d .outside }

/-- Every pool is initialised with room for `ltqsize` deques, and no deque is in a pool. -/
def DequePoolsState.Initial (ltqsize : Nat) (s : DequePoolsState ω δ) : Prop :=
  (∀ w kind, dequePoolInit ltqsize = some (s.pools w kind)) ∧ (∀ w, s.lock w = none) ∧
    ∀ d, s.history d = .outside

variable (ω δ) in
def poolArrayMachine (ltqsize : Nat) : Machine (DequePoolsState ω δ) (PoolArrayLabel ω δ) where
  start := DequePoolsState.Initial ltqsize
  step := poolArrayStep

/-- What `choose_deque` returns. -/
inductive ChosenDeque (δ : Type) where
  | active
  | pooled (d : δ)
deriving DecidableEq, Repr

omit [DecidableEq δ] in
/-- `choose_deque(w, victim)`; `rand` is what `myrand(w)` returns. The assertion about the I/O mode does not
depend on the pools. A slot that holds no deque has no result. -/
def DequePoolsState.chooseDeque (s : DequePoolsState ω δ) (w victim : ω) (rand : Nat) :
    Option (ChosenDeque δ) := do
  guard (s.lock victim = some w)
  let resumable := s.pools victim .resumable
  let suspended := s.pools victim .suspended
  let (pool, index) :=
    if 0 < resumable.size then (resumable, resumable.size)
    else if w = victim ∧ 0 < suspended.size then (suspended, rand % suspended.size + 1)
    else (suspended, rand % (suspended.size + 1))
  -- `CILK_ASSERT(pool->array[0] == NULL)`
  guard (w = victim → pool.size = 0 → pool.array[0]? = some .null)
  if index = 0 then
    some .active
  else
    match pool.array[index - 1]? with
    | some (.item d) => some (.pooled d)
    | _ => none

end CilkL
