/-
Module: CilkL.Runtime.WorkerLocks
Layer: Runtime
Purpose: What the workers do with the locks of the runtime: the lock of each worker with `do_not_steal`, the
  locks of the full frames, the lock of the global frame allocator and the lock of the global pool of fibers.
  Each function has here the locks that it takes and releases, in its order and with its branches; what else
  it does is in the modules of its file. A piece of code ends where user code runs, so that reductions lie
  between two pieces. The loops that wait for a fiber to be resumable are left out; no lock is held in them.
  The deques' own locks and `steal_lock`, which no function that runs takes, the mutex of the operating system
  and the Windows code are left out.
Imports: CilkL.Library.LockCode, Mathlib.Data.Prod.Lex
Trusted boundary: human-reviewed spec (translated from worker_mutex.c, spin_mutex.c, scheduler.c, deque.c,
  deque_pool.c, full_frame.c, frame_malloc.c, cilk_fiber.cpp, cilk_fiber_pool.cpp, except-gcc.cpp, cilk-abi.c)
Main exports: RuntimeLock, runtimeLocks, RuntimeCall, RuntimeCall.code, workerLockMachine
Open obligations: none
-/
import CilkL.Library.LockCode
import Mathlib.Data.Prod.Lex

namespace CilkL

/-! ### The locks -/

/-- The locks of the runtime, with `W` for the workers. -/
inductive RuntimeLock (W : Type) where
  /-- `l->lock` of a worker. -/
  | worker (w : W)
  /-- `lock` of a full frame, by the number of full frames that were made before it. -/
  | frame (ff : Nat)
  /-- `frame_malloc.lock` of the global state. -/
  | frameMalloc
  /-- `lock` of the pool of fibers of the global state. -/
  | fiberPool
deriving DecidableEq, Repr

/-- The order: workers, full frames from older to younger ones, the frame allocator, the pool of fibers. A
`mutex` has an owner, a `spin_mutex` has none. -/
def runtimeLocks (W : Type) : LockOrder (RuntimeLock W) (ℕ ×ₗ ℕ) where
  owned
    | .fiberPool => false
    | _ => true
  rank
    | .worker _ => toLex (0, 0)
    | .frame ff => toLex (1, ff)
    | .frameMalloc => toLex (2, 0)
    | .fiberPool => toLex (3, 0)

namespace RuntimeLocks

open LockCode

variable {W : Type}

/-! ### worker_mutex.c and the worker's lock -/

/-- `__cilkrts_worker_lock`. -/
def workerLock (w : W) : LockCode (RuntimeLock W) := .setFlag (.lock (.worker w) .done)

/-- `__cilkrts_worker_unlock`. -/
def workerUnlock (w : W) : LockCode (RuntimeLock W) := .unlock (.worker w) (.clearFlag .done)

/-- `BEGIN_WITH_WORKER_LOCK` to `END_WITH_WORKER_LOCK`. -/
def withWorkerLock (w : W) (body : LockCode (RuntimeLock W)) : LockCode (RuntimeLock W) :=
  (workerLock w).andThen (body.andThen (workerUnlock w))

/-- `__cilkrts_mutex_lock` to `__cilkrts_mutex_unlock` on the lock of a worker, which may be another one. -/
def withVictimLock (victim : W) (body : LockCode (RuntimeLock W)) : LockCode (RuntimeLock W) :=
  within (.worker victim) body

/-! ### frame_malloc.c -/

/-- `allocate_batch`. -/
def allocateBatch : LockCode (RuntimeLock W) := within .frameMalloc .done

/-- `gc_bucket`: the lock is taken where the list is longer than what is kept. -/
def gcBucket : LockCode (RuntimeLock W) := maybe (within .frameMalloc .done)

/-- `move_bucket_to_global_free_list`. -/
def moveBucketToGlobalFreeList : LockCode (RuntimeLock W) := maybe (within .frameMalloc .done)

/-- `__cilkrts_frame_malloc`: a batch has a frame at least, so that the loop takes one. -/
def frameMalloc : LockCode (RuntimeLock W) := maybe allocateBatch

/-- `__cilkrts_frame_free`. -/
def frameFree : LockCode (RuntimeLock W) := maybe gcBucket

/-- `__cilkrts_frame_malloc_per_worker_cleanup`, over the six buckets. -/
def perWorkerCleanup : LockCode (RuntimeLock W) := times moveBucketToGlobalFreeList 6

/-! ### full_frame.c -/

/-- `BEGIN_WITH_FRAME_LOCK` to `END_WITH_FRAME_LOCK`. -/
def withFrameLock (ff : Nat) (body : LockCode (RuntimeLock W)) : LockCode (RuntimeLock W) :=
  within (.frame ff) body

/-- `__cilkrts_make_full_frame`. -/
def makeFullFrame : LockCode (RuntimeLock W) := frameMalloc

/-- `__cilkrts_destroy_full_frame`. -/
def destroyFullFrame : LockCode (RuntimeLock W) := frameFree

/-! ### cilk_fiber_pool.cpp and cilk_fiber.cpp -/

/-- The locks of a pool and of its ancestors; a pool that is not shared has none. -/
abbrev PoolLocks (W : Type) := List (Option (RuntimeLock W))

/-- The pool of a worker, below that of the global state. -/
def workerPool : PoolLocks W := [none, some .fiberPool]

/-- The pool of the global state. -/
def globalPool : PoolLocks W := [some .fiberPool]

/-- A pool is locked if it is shared. -/
def withPoolLock (pool : PoolLocks W) (body : LockCode (RuntimeLock W)) : LockCode (RuntimeLock W) :=
  match pool with
  | some l :: _ => within l body
  | _ => body

/-- `cilk_fiber::allocate`: from the pool, from the heap, and where that fails the pool is locked again and its
parent is asked. -/
def fiberAllocate : PoolLocks W → LockCode (RuntimeLock W)
  | [] => .done
  | pool :: parents =>
      block [withPoolLock (pool :: parents) .done,
        maybe (block [withPoolLock (pool :: parents) .done, fiberAllocate parents])]

/-- `cilk_fiber_pool_free_fibers_from_pool`, with the turns of its loop. -/
def freeFibersFromPool (pool : PoolLocks W) (turns : Nat) : LockCode (RuntimeLock W) :=
  times (withPoolLock pool .done) turns

/-- `cilk_fiber_pool_move_fibers_to_parent_pool`, which is called where there is a parent. -/
def moveFibersToParentPool : PoolLocks W → LockCode (RuntimeLock W)
  | [] => .done
  | _ :: parents => maybe (withPoolLock parents .done)

/-- `cilk_fiber_pool_destroy`. -/
def poolDestroy (pool : PoolLocks W) (turns : Nat) : LockCode (RuntimeLock W) :=
  block [withPoolLock pool (moveFibersToParentPool pool), freeFibersFromPool pool turns]

/-- `cilk_fiber::deallocate_self`. -/
def deallocateSelf (pool : PoolLocks W) (turns : Nat) : LockCode (RuntimeLock W) :=
  block [withPoolLock pool .done, maybe (freeFibersFromPool pool turns)]

/-- `cilk_fiber::remove_reference` to the pool. -/
def removeReference (pool : PoolLocks W) (turns : Nat) : LockCode (RuntimeLock W) :=
  maybe (deallocateSelf pool turns)

/-! ### except-gcc.cpp and what scheduler.c does with exceptions -/

/-- `__cilkrts_merge_pending_exceptions`: it frees the right one, and the left one where nothing is left
in it. -/
def mergePendingExceptions : LockCode (RuntimeLock W) := maybe (block [frameFree, maybe frameFree])

/-- `splice_exceptions_for_spawn`. -/
def spliceExceptionsForSpawn : LockCode (RuntimeLock W) :=
    block [mergePendingExceptions, mergePendingExceptions]

/-- `provably_good_steal`. -/
def provablyGoodSteal : LockCode (RuntimeLock W) := maybe mergePendingExceptions

/-- `finalize_child_for_call`. -/
def finalizeChildForCall : LockCode (RuntimeLock W) := destroyFullFrame

/-! ### deque.c -/

/-- What one call of `detach_for_steal` works on. -/
structure Detached where
  parent : Nat
  child : Nat
  /-- The child is made in this call. -/
  younger : parent < child
  /-- The full frames that `unroll_call_stack` makes. -/
  unrolled : Nat
deriving DecidableEq, Repr

/-- `make_child`. -/
def makeChild : LockCode (RuntimeLock W) := makeFullFrame

/-- `unroll_call_stack`. -/
def unrollCallStack (frames : Nat) : LockCode (RuntimeLock W) := times makeChild frames

/-- `detach_for_steal`. -/
def detachForSteal (d : Detached) : LockCode (RuntimeLock W) :=
  withFrameLock d.parent (block [unrollCallStack d.unrolled, makeChild, withFrameLock d.child .done])

/-- `__cilkrts_promote_own_deque`. -/
def promoteOwnDeque (w : W) (detached : List Detached) : LockCode (RuntimeLock W) :=
  withWorkerLock w (block (detached.map detachForSteal))

/-- `deque_mug`, of a deque of that worker, whose lock is asserted to be held. -/
def dequeMug (owner : W) : LockCode (RuntimeLock W) := .readOwner (.worker owner) true .done

/-- The steal from the deque that is suspended, in `deque_suspend`: a fiber first, unless it is a future. -/
def stealOnSuspend (d : Detached) : LockCode (RuntimeLock W) :=
  .branch (block [fiberAllocate workerPool, maybe (detachForSteal d)]) (detachForSteal d)

/-- `deque_suspend`: with no deque to go to, the worker looks for a resumable one and may steal from the
old one. -/
def dequeSuspend (w : W) (newDeque : Bool) (d : Detached) (victim : W) : LockCode (RuntimeLock W) :=
  block [if newDeque then .done else withVictimLock w (maybe (dequeMug w)),
    withWorkerLock w (if newDeque then .done else maybe (stealOnSuspend d)),
    maybe (withVictimLock victim .done)]

/-! ### deque_pool.c -/

/-- `__cilkrts_suspend_deque`. -/
def suspendDeque (w : W) (d : Detached) (victim : W) : LockCode (RuntimeLock W) := dequeSuspend w false d victim

/-- `__cilkrts_make_resumable`: in the pool where the deque is, or in that of a worker chosen for it. -/
def makeResumable (victim chosen : W) : LockCode (RuntimeLock W) :=
  .branch (block [withVictimLock victim .done, maybe (withVictimLock chosen .done)])
    (withVictimLock chosen .done)

/-- `__cilkrts_resume_suspended`: the deque is taken from its pool; then the current one is destroyed, and its
fiber is given back, or it is suspended. -/
def resumeSuspended (w victim : W) (destroy : Bool) (d : Detached) (chosen : W) (turns : Nat) :
    LockCode (RuntimeLock W) :=
  block [maybe (withVictimLock victim (maybe (dequeMug victim))),
    if destroy then block [withWorkerLock w .done, removeReference workerPool turns]
    else dequeSuspend w true d chosen]

/-! ### scheduler.c: steals -/

/-- `jump_to_suspended_fiber`, with the lock of the victim held: it is released before the thief waits for the
fiber and takes its own lock. -/
def jumpToSuspendedFiber (w victim : W) : LockCode (RuntimeLock W) :=
  (dequeMug victim).andThen (.unlock (.worker victim) (withWorkerLock w .done))

/-- `choose_deque`, which asserts that the lock of the victim is held. -/
def chooseDeque (victim : W) : LockCode (RuntimeLock W) := .readOwner (.worker victim) true .done

/-- The label `done` of `random_steal` with the lock held: the test of the owner says so, and it is released. -/
def releaseVictim (victim : W) : LockCode (RuntimeLock W) :=
  .readOwner (.worker victim) true (.unlock (.worker victim) .done)

/-- `random_steal` with the lock of the victim held. -/
def stealLocked (w victim : W) (d : Detached) (turns : Nat) : LockCode (RuntimeLock W) :=
  (chooseDeque victim).andThen
    (.branch (jumpToSuspendedFiber w victim)
      (.branch ((maybe (dequeMug victim)).andThen (releaseVictim victim))
        ((fiberAllocate workerPool).andThen ((maybe (detachForSteal d)).andThen ((releaseVictim victim).andThen
          (removeReference workerPool turns))))))

/-- `random_steal`. Where the lock was not taken the test of the owner says so. -/
def randomSteal (w victim : W) (d : Detached) (turns : Nat) : LockCode (RuntimeLock W) :=
  .tryLock (.worker victim) (stealLocked w victim d turns) (.readOwner (.worker victim) false .done)

/-- `check_for_work` without a frame in the queue. -/
def checkForWork (w victim : W) (d : Detached) (turns : Nat) : LockCode (RuntimeLock W) :=
  block [maybe (withWorkerLock w .done), maybe (randomSteal w victim d turns)]

/-! ### scheduler.c: running, syncs and returns -/

/-- Stage 4 of `worker_scheduling_loop_body`, around `setup_for_execution`. -/
def workerSchedulingLoopBody (w : W) (ff : Nat) : LockCode (RuntimeLock W) :=
  withWorkerLock w (withFrameLock ff .done)

/-- `do_sync`, with the turns it waits in a replay. -/
def doSync (w : W) (ff : Nat) (turns : Nat) : LockCode (RuntimeLock W) :=
  block [withWorkerLock w (withFrameLock ff provablyGoodSteal),
    times (withWorkerLock w (withFrameLock ff provablyGoodSteal)) turns]

/-- `__cilkrts_c_THE_exception_check` up to its reductions. -/
def theExceptionCheck (w : W) : LockCode (RuntimeLock W) := withWorkerLock w .done

/-- A turn of `slow_path_reductions_for_sync`; the maps are merged between the turns. -/
def slowPathReductionsForSync (ff : Nat) : LockCode (RuntimeLock W) := withFrameLock ff mergePendingExceptions

/-- The part of `execute_reductions_for_spawn_return` from where the parent is locked to where it is unlocked.
Each turn of `slow_path_reductions_for_spawn_return` unlocks it, merges, and has such a part again, which may
be on another worker. -/
def executeReductionsForSpawnReturn (parent : Nat) : LockCode (RuntimeLock W) :=
  withFrameLock parent spliceExceptionsForSpawn

/-- `do_return_from_spawn`, with the turns it waits in a replay; a future has no parent. -/
def doReturnFromSpawn (w : W) (ff : Nat) (parent : Option Nat) (turns : Nat) : LockCode (RuntimeLock W) :=
  match parent with
  | none => block [withWorkerLock w (withFrameLock ff .done), destroyFullFrame]
  | some parent =>
      block [withWorkerLock w (block [withFrameLock ff .done, withFrameLock parent (maybe provablyGoodSteal)]),
        times (withWorkerLock w (withFrameLock parent provablyGoodSteal)) turns, destroyFullFrame]

/-- `__cilkrts_pop_tail` and `simulate_pop_tail`. -/
def popTail (w : W) : LockCode (RuntimeLock W) := withWorkerLock w .done

/-- `__cilkrts_return`; the frame that is next is set up. -/
def cilkrtsReturn (w : W) (ff parent : Nat) (next : Option Nat) : LockCode (RuntimeLock W) :=
  withWorkerLock w (block [withFrameLock ff .done, withFrameLock parent finalizeChildForCall,
    match next with
    | none => .done
    | some next => withFrameLock next .done])

/-- `__cilkrts_c_return_from_initial`. -/
def returnFromInitial (w : W) : LockCode (RuntimeLock W) := withWorkerLock w destroyFullFrame

/-! ### cilk-abi.c -/

/-- `__cilkrts_unwatch_stack`. -/
def unwatchStack (w : W) (ff : Nat) : LockCode (RuntimeLock W) := withWorkerLock w (withFrameLock ff .done)

/-- `__cilkrts_watch_stack`. -/
def watchStack (w : W) : LockCode (RuntimeLock W) := withWorkerLock w .done

/-- `destroy_worker`. -/
def destroyWorker (turns : Nat) : LockCode (RuntimeLock W) :=
  block [poolDestroy workerPool turns, perWorkerCleanup]

end RuntimeLocks

/-! ### The workers -/

open RuntimeLocks in
/-- The pieces of code that a worker runs, with what they work on. -/
inductive RuntimeCall (W : Type) where
  | frameMalloc
  | frameFree
  | fiberAllocate
  | removeReference (turns : Nat)
  | poolDestroy (turns : Nat)
  | destroyWorker (turns : Nat)
  | promoteOwnDeque (detached : List Detached)
  | suspendDeque (d : Detached) (victim : W)
  | makeResumable (victim chosen : W)
  | resumeSuspended (victim : W) (destroy : Bool) (d : Detached) (chosen : W) (turns : Nat)
  | checkForWork (victim : W) (d : Detached) (turns : Nat)
  | workerSchedulingLoopBody (ff : Nat)
  | doSync (ff : Nat) (turns : Nat)
  | theExceptionCheck
  | slowPathReductionsForSync (ff : Nat)
  | executeReductionsForSpawnReturn (parent : Nat)
  | doReturnFromSpawn (ff : Nat) (parent : Option Nat) (turns : Nat)
  | popTail
  | cilkrtsReturn (ff parent : Nat) (next : Option Nat)
  | returnFromInitial
  | unwatchStack (ff : Nat)
  | watchStack
deriving Repr

open RuntimeLocks in
/-- The code of a piece, on a worker. -/
def RuntimeCall.code {W : Type} (w : W) : RuntimeCall W → LockCode (RuntimeLock W)
  | .frameMalloc => RuntimeLocks.frameMalloc
  | .frameFree => RuntimeLocks.frameFree
  | .fiberAllocate => RuntimeLocks.fiberAllocate workerPool
  | .removeReference turns => RuntimeLocks.removeReference workerPool turns
  | .poolDestroy turns => RuntimeLocks.poolDestroy globalPool turns
  | .destroyWorker turns => RuntimeLocks.destroyWorker turns
  | .promoteOwnDeque detached => RuntimeLocks.promoteOwnDeque w detached
  | .suspendDeque d victim => RuntimeLocks.suspendDeque w d victim
  | .makeResumable victim chosen => RuntimeLocks.makeResumable victim chosen
  | .resumeSuspended victim destroy d chosen turns =>
      RuntimeLocks.resumeSuspended w victim destroy d chosen turns
  | .checkForWork victim d turns => RuntimeLocks.checkForWork w victim d turns
  | .workerSchedulingLoopBody ff => RuntimeLocks.workerSchedulingLoopBody w ff
  | .doSync ff turns => RuntimeLocks.doSync w ff turns
  | .theExceptionCheck => RuntimeLocks.theExceptionCheck w
  | .slowPathReductionsForSync ff => RuntimeLocks.slowPathReductionsForSync ff
  | .executeReductionsForSpawnReturn parent => RuntimeLocks.executeReductionsForSpawnReturn parent
  | .doReturnFromSpawn ff parent turns => RuntimeLocks.doReturnFromSpawn w ff parent turns
  | .popTail => RuntimeLocks.popTail w
  | .cilkrtsReturn ff parent next => RuntimeLocks.cilkrtsReturn w ff parent next
  | .returnFromInitial => RuntimeLocks.returnFromInitial w
  | .unwatchStack ff => RuntimeLocks.unwatchStack w ff
  | .watchStack => RuntimeLocks.watchStack w

/-- The workers, each of which runs one piece after another; the flag of a worker is its `do_not_steal`. -/
def workerLockMachine (W : Type) [DecidableEq W] :
    Machine (LockState W (RuntimeLock W)) (LockLabel W (RuntimeCall W)) :=
  lockMachine (runtimeLocks W).owned RuntimeCall.code

end CilkL
