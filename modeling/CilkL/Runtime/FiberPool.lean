/-
Module: CilkL.Runtime.FiberPool
Layer: Runtime
Purpose: The pools of fibers: the global pool and below it a pool for each worker, with `allocate`,
  `deallocate_self`, `cilk_fiber_pool_free_fibers_from_pool`, `cilk_fiber_pool_move_fibers_to_parent_pool`,
  their creation and destruction, and the settings that decide their sizes. A step is a section under the
  lock of a pool, or a call of the heap, so the workers interleave between the batches of a loop. The pool of
  a worker has no lock and is used by that worker. Fibers have no reference counts on this platform:
  `remove_reference` gives the fiber back. The heap may fail, but not while a pool is filled at its
  creation. `size` is the length of the list of the slots below it; the counters do not wrap.
Imports: CilkL.Library.Machine, Mathlib.Data.Fintype.Option
Trusted boundary: human-reviewed spec (translated from cilk_fiber_pool.cpp, cilk_fiber.cpp, global_state.cpp
  and scheduler.c)
Main exports: StackSettings, FiberPool, FiberPool.freePass, FiberPool.moveFibersToParentPool,
  FiberPoolState, fiberPoolStep, fiberPoolMachine
Open obligations: none
-/
import CilkL.Library.Machine
import Mathlib.Data.Fintype.Option

namespace CilkL

/-! ### The settings -/

/-- `INT_MAX`. -/
def StackSettings.intMax : Nat := 2 ^ 31 - 1

/-- The settings of the global state that decide the pools. -/
structure StackSettings where
  /-- `P`. -/
  workers : Nat
  fiberPoolSize : Nat
  globalFiberPoolSize : Nat
  maxStacks : Nat
deriving DecidableEq, Repr

/-- What the defaults and `set_param_imp` with "local stacks", "shared stacks" and "nstacks" can store. -/
def StackSettings.Admissible (g : StackSettings) : Prop :=
  0 < g.workers ∧ g.fiberPoolSize ≤ 128 ∧
    (g.globalFiberPoolSize ≤ 128 ∨ g.globalFiberPoolSize = 6 * 3 * g.workers) ∧ g.maxStacks ≤ intMax

/-- The part of `cilkg_init_global_state` on the stacks. -/
def StackSettings.initGlobalState (g : StackSettings) : StackSettings :=
  if 0 < g.maxStacks then
    let fiberPoolSize :=
      if g.maxStacks / g.workers < g.fiberPoolSize then g.maxStacks / g.workers else g.fiberPoolSize
    let fiberPoolSize := if fiberPoolSize = 0 then 1 else fiberPoolSize
    { g with
      fiberPoolSize := fiberPoolSize
      maxStacks := if g.maxStacks < g.workers then g.workers else g.maxStacks
      globalFiberPoolSize := g.workers * (fiberPoolSize + 1) }
  else g

/-! ### A pool -/

/-- `cilk_fiber_pool`. -/
structure FiberPool (φ : Type) where
  /-- The slots below `size`, the last one first. -/
  fibers : List φ
  maxSize : UInt32
  total : Int
  highWater : Int
  allocMax : Int
deriving DecidableEq, Repr

namespace FiberPool

variable {φ : Type}

/-- `size`. -/
def size (pool : FiberPool φ) : Nat := pool.fibers.length

/-- `increment_pool_total`. -/
def incrementTotal (pool : FiberPool φ) : FiberPool φ :=
  { pool with total := pool.total + 1, highWater := max pool.highWater (pool.total + 1) }

/-- `decrement_pool_total`. -/
def decrementTotal (pool : FiberPool φ) (fibersFreed : Nat) : FiberPool φ :=
  { pool with total := pool.total - fibersFreed }

/-- `pre_allocate_count` in `cilk_fiber_pool_init`. -/
def preAllocateCount (bufferSize : UInt32) : Nat :=
  (bufferSize / 2 + bufferSize / 4).toNat

/-- `cilk_fiber_pool_init`, where `blocks` are the fibers from the heap. -/
def init (bufferSize : UInt32) (allocMax : Int) (blocks : List φ) : FiberPool φ where
  fibers := blocks
  maxSize := bufferSize
  total := 0
  highWater := 0
  allocMax := allocMax

/-- `cilk_fiber_pool_set_fiber_limit`. -/
def setFiberLimit (rootPool : FiberPool φ) (maxFibersToAllocate : Int) : FiberPool φ :=
  { rootPool with allocMax := maxFibersToAllocate }

/-- The loop of stage 2 of `cilk_fiber_pool_free_fibers_from_pool`, which takes at most `room` fibers: those
taken, and the slots that are left. -/
def grabFibers (numToKeep : UInt32) : Nat → List φ → List φ × List φ
  | room + 1, fiber :: fibers =>
      if numToKeep.toNat < fibers.length + 1 then
        let grabbed := grabFibers numToKeep room fibers
        (fiber :: grabbed.1, grabbed.2)
      else ([], fiber :: fibers)
  | _, fibers => ([], fibers)

/-- One pass of `cilk_fiber_pool_free_fibers_from_pool` under the lock: the pool, the fibers to free and
whether it is the last pass; `none` where the assertion fails. -/
def freePass (pool : FiberPool φ) (numToKeep : UInt32) (fiberToReturn : Option φ) :
    Option (FiberPool φ × List φ × Bool) :=
  let grabbed := grabFibers numToKeep 10 pool.fibers
  let pool := { pool with fibers := grabbed.2 }.decrementTotal grabbed.1.length
  if pool.size ≤ numToKeep.toNat then
    match fiberToReturn with
    | some fiber =>
        if pool.size < pool.maxSize.toNat then
          some ({ pool with fibers := fiber :: pool.fibers }, grabbed.1, true)
        else none
    | none => some (pool, grabbed.1, true)
  else some (pool, grabbed.1, false)

/-- The loop of `cilk_fiber_pool_free_fibers_from_pool`, on a pool that nobody else uses. -/
def freeFibersFromPool (numToKeep : UInt32) (fiberToReturn : Option φ) :
    Nat → FiberPool φ → Option (FiberPool φ)
  | 0, _ => none
  | fuel + 1, pool =>
      match pool.freePass numToKeep fiberToReturn with
      | some (pool, _, true) => some pool
      | some (pool, _, false) => freeFibersFromPool numToKeep fiberToReturn fuel pool
      | none => none

/-- `deallocate_self`. -/
def deallocateSelf (pool : FiberPool φ) (fiber : φ) : Option (FiberPool φ) :=
  if pool.size < pool.maxSize.toNat then some { pool with fibers := fiber :: pool.fibers }
  else freeFibersFromPool (pool.maxSize - 1) (some fiber) (pool.size + 1) pool

/-- The loop of `cilk_fiber_pool_move_fibers_to_parent_pool`: the slots of the pool and of its parent. -/
def moveFibers (parentMax numToKeep : UInt32) : List φ → List φ → List φ × List φ
  | [], parent => ([], parent)
  | fiber :: fibers, parent =>
      if parent.length < parentMax.toNat ∧ numToKeep.toNat < fibers.length + 1 then
        moveFibers parentMax numToKeep fibers (fiber :: parent)
      else (fiber :: fibers, parent)

/-- The part of `cilk_fiber_pool_move_fibers_to_parent_pool` under the lock of the parent. -/
def moveFibersToParentPool (pool parentPool : FiberPool φ) (numToKeep : UInt32) :
    FiberPool φ × FiberPool φ :=
  let moved := moveFibers parentPool.maxSize numToKeep pool.fibers parentPool.fibers
  if pool.total < 0 then
    ({ pool with fibers := moved.1, total := 0 },
      { parentPool with fibers := moved.2, total := parentPool.total + pool.total })
  else ({ pool with fibers := moved.1 }, { parentPool with fibers := moved.2 })

end FiberPool

/-! ### The hierarchy -/

/-- A pool: the global one, or that of a worker. -/
abbrev PoolKey (ω : Type) := Option ω

/-- Where a worker is in an operation on a pool. -/
inductive FiberPc (ω φ : Type) where
  | idle
  /-- It has counted a new fiber, and calls the heap. -/
  | heapCall (key : PoolKey ω)
  /-- The heap had none. -/
  | heapFailed (key : PoolKey ω)
  /-- It calls `allocate` for the parent. -/
  | searching
  /-- At the beginning of a pass; `destroys` in `cilk_fiber_pool_destroy`. -/
  | freeing (key : PoolKey ω) (numToKeep : UInt32) (fiberToReturn : Option φ) (destroys : Bool)
  /-- After the pass, with the fibers to free. -/
  | releasing (key : PoolKey ω) (numToKeep : UInt32) (fiberToReturn : Option φ) (destroys : Bool)
      (fibersToFree : List φ) (lastFiberReturned : Bool)
  /-- The pool of the worker's parent did not look full. -/
  | moving (numToKeep : UInt32) (destroys : Bool)
deriving DecidableEq

/-- The pools, the heap and the workers. -/
structure FiberPoolState (ω φ : Type) where
  settings : StackSettings
  pools : PoolKey ω → Option (FiberPool φ)
  /-- The fibers that were allocated from the heap and not freed. -/
  live : List φ
  /-- The fibers that an allocation returned and that were not given back. -/
  inUse : List φ
  pc : ω → FiberPc ω φ
  /-- An assertion failed. -/
  failed : Bool

/-- The steps. -/
inductive FiberPoolLabel (ω φ : Type) where
  /-- `cilk_fiber_pool_init`, for the global pool with `cilk_fiber_pool_set_fiber_limit`. -/
  | createPool (key : PoolKey ω) (blocks : List φ)
  /-- `allocate`, or its call for the parent, up to the heap. -/
  | allocate (a : ω) (key : PoolKey ω)
  /-- The heap returns a fiber, or none. -/
  | allocateFromHeap (a : ω) (fiber : Option φ)
  /-- The rest of `allocate` after the heap failed. -/
  | undoTotal (a : ω)
  /-- `remove_reference`, with a pool or without. -/
  | removeReference (a : ω) (key : PoolKey ω) (fiber : φ)
  | deallocateToHeap (a : ω) (fiber : φ)
  /-- `cilk_fiber_pool_free_fibers_from_pool` of the worker's pool, with no fiber to put back. -/
  | freeFibersFromPool (a : ω) (numToKeep : UInt32)
  | freePass (a : ω)
  | release (a : ω)
  /-- `cilk_fiber_pool_move_fibers_to_parent_pool`, or the beginning of `cilk_fiber_pool_destroy`. -/
  | moveFibersToParentPool (a : ω) (numToKeep : UInt32) (destroys : Bool)
  | moveLocked (a : ω)
  /-- `cilk_fiber_pool_destroy` of the global pool. -/
  | destroyRoot (a : ω)

variable {ω φ : Type} [Fintype ω] [DecidableEq ω] [DecidableEq φ]

namespace FiberPoolState

/-- The buffer size of a pool. -/
def bufferSize (s : FiberPoolState ω φ) : PoolKey ω → UInt32
  | none => .ofNat s.settings.globalFiberPoolSize
  | some _ => .ofNat s.settings.fiberPoolSize

/-- The limit of the root pool. -/
def fiberLimit (s : FiberPoolState ω φ) : Int :=
  if s.settings.maxStacks ≠ 0 then s.settings.maxStacks else StackSettings.intMax

/-- A pool after its creation. -/
def createdPool (s : FiberPoolState ω φ) (key : PoolKey ω) (blocks : List φ) : FiberPool φ :=
  match key with
  | none => (FiberPool.init (s.bufferSize key) s.settings.maxStacks blocks).setFiberLimit s.fiberLimit
  | some _ => FiberPool.init (s.bufferSize key) 0 blocks

/-- A store into a pool. -/
abbrev setPool (s : FiberPoolState ω φ) (key : PoolKey ω) (pool : Option (FiberPool φ)) :
    FiberPoolState ω φ :=
  { s with pools := Function.update s.pools key pool }

abbrev setPc (s : FiberPoolState ω φ) (a : ω) (pc : FiberPc ω φ) : FiberPoolState ω φ :=
  { s with pc := Function.update s.pc a pc }

/-- A worker uses its own pool, and the global pool as long as there are pools below it. -/
def Usable (s : FiberPoolState ω φ) (a : ω) (key : PoolKey ω) : Prop :=
  key = some a ∨ key = none ∧ ∃ b, s.pools (some b) ≠ none

instance (s : FiberPoolState ω φ) (a : ω) (key : PoolKey ω) : Decidable (s.Usable a key) :=
  inferInstanceAs (Decidable (_ ∨ _ ∧ _))

end FiberPoolState

def fiberPoolStep (s : FiberPoolState ω φ) : FiberPoolLabel ω φ → Option (FiberPoolState ω φ)
  | .createPool key blocks =>
      if s.failed = false ∧ s.pools key = none ∧ (key = none ∨ s.pools none ≠ none) ∧ (∀ a, s.pc a = .idle) ∧
          blocks.length = FiberPool.preAllocateCount (s.bufferSize key) ∧ blocks.Nodup ∧
          ∀ fiber ∈ blocks, fiber ∉ s.live then
        some { s.setPool key (s.createdPool key blocks) with live := blocks ++ s.live }
      else none
  | .allocate a key =>
      if s.failed = false ∧
          (s.pc a = .idle ∧ s.Usable a key ∨ s.pc a = .searching ∧ key = none) then
        match s.pools key with
        | some pool =>
            match pool.fibers with
            | fiber :: fibers =>
                some { (s.setPool key (some { pool with fibers := fibers })).setPc a .idle with
                  inUse := fiber :: s.inUse }
            | [] => some ((s.setPool key (some pool.incrementTotal)).setPc a (.heapCall key))
        | none => none
      else none
  | .allocateFromHeap a fiber =>
      match s.failed, s.pc a, fiber with
      | false, .heapCall _, some fiber =>
          if fiber ∉ s.live then
            some { s.setPc a .idle with live := fiber :: s.live, inUse := fiber :: s.inUse }
          else none
      | false, .heapCall key, none => some (s.setPc a (.heapFailed key))
      | _, _, _ => none
  | .undoTotal a =>
      match s.failed, s.pc a with
      | false, .heapFailed key =>
          match s.pools key with
          | some pool =>
              some ((s.setPool key (some (pool.decrementTotal 1))).setPc a
                (if key = none then .idle else .searching))
          | none => none
      | _, _ => none
  | .removeReference a key fiber =>
      if s.failed = false ∧ s.pc a = .idle ∧ s.Usable a key ∧ fiber ∈ s.inUse then
        match s.pools key with
        | some pool =>
            if pool.size < pool.maxSize.toNat then
              some { s.setPool key (some { pool with fibers := fiber :: pool.fibers }) with
                inUse := s.inUse.erase fiber }
            else
              some { s.setPc a (.freeing key (pool.maxSize - 1) (some fiber) false) with
                inUse := s.inUse.erase fiber }
        | none => none
      else none
  | .deallocateToHeap a fiber =>
      if s.failed = false ∧ s.pc a = .idle ∧ fiber ∈ s.inUse then
        some { s with inUse := s.inUse.erase fiber, live := s.live.erase fiber }
      else none
  | .freeFibersFromPool a numToKeep =>
      if s.failed = false ∧ s.pc a = .idle ∧ s.pools (some a) ≠ none then
        some (s.setPc a (.freeing (some a) numToKeep none false))
      else none
  | .freePass a =>
      match s.failed, s.pc a with
      | false, .freeing key numToKeep fiberToReturn destroys =>
          match s.pools key with
          | some pool =>
              match pool.freePass numToKeep fiberToReturn with
              | some (pool, fibersToFree, last) =>
                  some ((s.setPool key (some pool)).setPc a
                    (.releasing key numToKeep (if last then none else fiberToReturn) destroys fibersToFree last))
              | none => some { s with failed := true }
          | none => none
      | _, _ => none
  | .release a =>
      match s.failed, s.pc a with
      | false, .releasing key numToKeep fiberToReturn destroys (fiber :: fibersToFree) last =>
          some { s.setPc a (.releasing key numToKeep fiberToReturn destroys fibersToFree last) with
            live := s.live.erase fiber }
      | false, .releasing key numToKeep fiberToReturn destroys [] last =>
          if last then
            if destroys then some ((s.setPool key none).setPc a .idle) else some (s.setPc a .idle)
          else some (s.setPc a (.freeing key numToKeep fiberToReturn destroys))
      | _, _ => none
  | .moveFibersToParentPool a numToKeep destroys =>
      if s.failed = false ∧ s.pc a = .idle ∧ s.pools (some a) ≠ none then
        match s.pools none with
        | some parentPool =>
            -- the size of the parent is read without its lock
            if parentPool.maxSize.toNat ≤ parentPool.size then
              some (if destroys then s.setPc a (.freeing (some a) 0 none true) else s)
            else some (s.setPc a (.moving (if destroys then 0 else numToKeep) destroys))
        | none => none
      else none
  | .moveLocked a =>
      match s.failed, s.pc a with
      | false, .moving numToKeep destroys =>
          match s.pools (some a), s.pools none with
          | some pool, some parentPool =>
              let moved := pool.moveFibersToParentPool parentPool numToKeep
              some (((s.setPool (some a) (some moved.1)).setPool none (some moved.2)).setPc a
                (if destroys then .freeing (some a) 0 none true else .idle))
          | _, _ => none
      | _, _ => none
  | .destroyRoot a =>
      if s.failed = false ∧ (∀ b, s.pc b = .idle) ∧ (∀ b, s.pools (some b) = none) ∧ s.pools none ≠ none then
        some (s.setPc a (.freeing none 0 none true))
      else none

/-- The settings are initialised, and no pool exists. -/
def FiberPoolState.Initial (s : FiberPoolState ω φ) : Prop :=
  (∃ user : StackSettings, user.Admissible ∧ s.settings = user.initGlobalState) ∧ (∀ key, s.pools key = none) ∧
    s.live = [] ∧ s.inUse = [] ∧ (∀ a, s.pc a = .idle) ∧ s.failed = false

variable (ω φ) in
def fiberPoolMachine : Machine (FiberPoolState ω φ) (FiberPoolLabel ω φ) where
  start := FiberPoolState.Initial
  step := fiberPoolStep

end CilkL
