/-
Module: CilkL.Proofs.WorkerLocks
Layer: Proofs
Purpose: The locks of the runtime are taken in one order: the lock of one worker, then full frames from
  older to younger, then the frame allocator or the pool of fibers. Each function keeps to it, whatever
  branches it takes, so that no assertion on an owner or on `do_not_steal` fails, sections exclude each other,
  and there is no deadlock among the workers.
Imports: CilkL.Library.LockOrder, CilkL.Runtime.WorkerLocks
Trusted boundary: none
Main exports: RuntimeCall.keeps, runtime_locks_safe
Open obligations: none
-/
import CilkL.Library.LockOrder
import CilkL.Runtime.WorkerLocks

namespace CilkL

namespace RuntimeLocks

open LockCode

variable {W : Type} {w v : W} {ff child : Nat} {held : List (RuntimeLock W)} {flag : Bool}
  {code : LockCode (RuntimeLock W)}

/-! ### The order -/

@[simp] theorem worker_lt_frame :
    (runtimeLocks W).rank (.worker w) < (runtimeLocks W).rank (.frame ff) := by
  simp [runtimeLocks, Prod.Lex.toLex_lt_toLex]

@[simp] theorem worker_lt_frameMalloc :
    (runtimeLocks W).rank (.worker w) < (runtimeLocks W).rank .frameMalloc := by
  simp [runtimeLocks, Prod.Lex.toLex_lt_toLex]

@[simp] theorem worker_lt_fiberPool :
    (runtimeLocks W).rank (.worker w) < (runtimeLocks W).rank .fiberPool := by
  simp [runtimeLocks, Prod.Lex.toLex_lt_toLex]

@[simp] theorem frame_lt_frame :
    (runtimeLocks W).rank (.frame ff) < (runtimeLocks W).rank (.frame child) ↔ ff < child := by
  simp [runtimeLocks, Prod.Lex.toLex_lt_toLex]

@[simp] theorem frame_lt_frameMalloc :
    (runtimeLocks W).rank (.frame ff) < (runtimeLocks W).rank .frameMalloc := by
  simp [runtimeLocks, Prod.Lex.toLex_lt_toLex]

/-- The thread has no lock as high as that of the frame allocator. -/
def BelowFrameMalloc (held : List (RuntimeLock W)) : Prop :=
  ∀ x ∈ held, (runtimeLocks W).rank x < (runtimeLocks W).rank .frameMalloc

/-- The thread has no lock as high as that of the pool of fibers. -/
def BelowFiberPool (held : List (RuntimeLock W)) : Prop :=
  ∀ x ∈ held, (runtimeLocks W).rank x < (runtimeLocks W).rank .fiberPool

/-- The code leaves the locks and the flag of a thread as they were. -/
abbrev Leaves (code : LockCode (RuntimeLock W)) (held : List (RuntimeLock W)) (flag : Bool) : Prop :=
  code.Keeps (runtimeLocks W) held flag held flag

/-! ### Sections -/

theorem leaves_withWorkerLock (body : Leaves code [.worker w] true) :
    Leaves (withWorkerLock w code) [] false := by
  have locked : (workerLock w).Keeps (runtimeLocks W) [] false [.worker w] true := by
    refine ⟨rfl, ?_, rfl, rfl⟩
    simp
  have unlocked : (workerUnlock w).Keeps (runtimeLocks W) [.worker w] true [] false := ⟨rfl, rfl, rfl, rfl⟩
  exact locked.andThen (body.andThen unlocked)

theorem leaves_withVictimLock (body : Leaves code [.worker v] flag) : Leaves (withVictimLock v code) [] flag :=
  Keeps.within (by simp) body

theorem leaves_withFrameLock (above : ∀ x ∈ held, (runtimeLocks W).rank x < (runtimeLocks W).rank (.frame ff))
    (body : Leaves code (.frame ff :: held) flag) : Leaves (withFrameLock ff code) held flag :=
  Keeps.within above body

/-- A section of a frame inside that of a worker. -/
theorem leaves_withFrameLock_worker (body : Leaves code [.frame ff, .worker w] flag) :
    Leaves (withFrameLock ff code) [.worker w] flag :=
  leaves_withFrameLock (by simp) body

/-! ### The frame allocator -/

theorem leaves_frameMalloc (below : BelowFrameMalloc held) : Leaves frameMalloc held flag :=
  Keeps.maybe (Keeps.within below keeps_done)

theorem leaves_frameFree (below : BelowFrameMalloc held) : Leaves frameFree held flag :=
  Keeps.maybe (Keeps.maybe (Keeps.within below keeps_done))

theorem leaves_perWorkerCleanup (below : BelowFrameMalloc held) : Leaves perWorkerCleanup held flag :=
  Keeps.times (Keeps.maybe (Keeps.within below keeps_done)) 6

theorem leaves_mergePendingExceptions (below : BelowFrameMalloc held) :
    Leaves mergePendingExceptions held flag := by
  have right : Leaves frameFree held flag := leaves_frameFree below
  have left : Leaves (maybe frameFree) held flag := Keeps.maybe (leaves_frameFree below)
  exact Keeps.maybe (right.andThen (left.andThen keeps_done))

theorem leaves_provablyGoodSteal (below : BelowFrameMalloc held) : Leaves provablyGoodSteal held flag :=
  Keeps.maybe (leaves_mergePendingExceptions below)

theorem leaves_spliceExceptionsForSpawn (below : BelowFrameMalloc held) :
    Leaves spliceExceptionsForSpawn held flag := by
  have merged : Leaves mergePendingExceptions held flag := leaves_mergePendingExceptions below
  exact merged.andThen (merged.andThen keeps_done)

/-! ### The pools of fibers -/

/-- A pool without a lock, or with that of the global pool. -/
theorem leaves_withPoolLock {pool : PoolLocks W} (isGlobal : ∀ l, some l ∈ pool → l = .fiberPool)
    (below : BelowFiberPool held) : Leaves (withPoolLock pool done) held flag := by
  unfold withPoolLock
  split
  case h_1 l _ =>
    obtain rfl := isGlobal l List.mem_cons_self
    exact Keeps.within below keeps_done
  case h_2 => exact keeps_done

theorem leaves_fiberAllocate {pool : PoolLocks W} (isGlobal : ∀ l, some l ∈ pool → l = .fiberPool)
    (below : BelowFiberPool held) : Leaves (fiberAllocate pool) held flag := by
  induction pool with
  | nil => exact keeps_done
  | cons lock parents ih =>
    have own : Leaves (withPoolLock (lock :: parents) done) held flag := leaves_withPoolLock isGlobal below
    have rest : Leaves (fiberAllocate parents) held flag :=
      ih fun l member => isGlobal l (List.mem_cons_of_mem _ member)
    have failed : Leaves (block [withPoolLock (lock :: parents) done, fiberAllocate parents]) held flag :=
      own.andThen (rest.andThen keeps_done)
    exact own.andThen ((Keeps.maybe failed).andThen keeps_done)

theorem workerPool_isGlobal (l : RuntimeLock W) (member : some l ∈ workerPool) : l = .fiberPool := by
  simpa [workerPool] using member

theorem globalPool_isGlobal (l : RuntimeLock W) (member : some l ∈ globalPool) : l = .fiberPool := by
  simpa [globalPool] using member

theorem leaves_freeFibersFromPool {pool : PoolLocks W} (isGlobal : ∀ l, some l ∈ pool → l = .fiberPool)
    (below : BelowFiberPool held) (turns : Nat) : Leaves (freeFibersFromPool pool turns) held flag :=
  Keeps.times (leaves_withPoolLock isGlobal below) turns

/-- The pool of a worker has no lock of its own when it gives its fibers to the global one, and the global one
has no parent. -/
theorem leaves_poolDestroy {pool : PoolLocks W} (isPool : pool = workerPool ∨ pool = globalPool) (turns : Nat) :
    Leaves (poolDestroy pool turns) [] flag := by
  have below : BelowFiberPool ([] : List (RuntimeLock W)) := by simp [BelowFiberPool]
  have moved : Leaves (withPoolLock pool (moveFibersToParentPool pool)) [] flag := by
    rcases isPool with rfl | rfl
    · exact Keeps.maybe (leaves_withPoolLock globalPool_isGlobal below)
    · exact Keeps.within below (Keeps.maybe keeps_done)
  have freed : Leaves (freeFibersFromPool pool turns) [] flag := by
    rcases isPool with rfl | rfl
    · exact leaves_freeFibersFromPool workerPool_isGlobal below turns
    · exact leaves_freeFibersFromPool globalPool_isGlobal below turns
  exact moved.andThen (freed.andThen keeps_done)

theorem leaves_removeReference (below : BelowFiberPool held) (turns : Nat) :
    Leaves (removeReference workerPool turns) held flag := by
  have returned : Leaves (withPoolLock workerPool done) held flag :=
    leaves_withPoolLock workerPool_isGlobal below
  have freed : Leaves (freeFibersFromPool workerPool turns) held flag :=
    leaves_freeFibersFromPool workerPool_isGlobal below turns
  exact Keeps.maybe (returned.andThen ((Keeps.maybe freed).andThen keeps_done))

/-! ### Steals -/

/-- The parent is locked before its child, which is younger, and both before the frame allocator. -/
theorem leaves_detachForSteal (d : Detached) : Leaves (detachForSteal d) [.worker w] flag := by
  have below : BelowFrameMalloc [.frame d.parent, .worker w] := by simp [BelowFrameMalloc]
  have unrolled : Leaves (unrollCallStack d.unrolled) [.frame d.parent, .worker w] flag :=
    Keeps.times (leaves_frameMalloc below) d.unrolled
  have made : Leaves makeChild [.frame d.parent, .worker w] flag := leaves_frameMalloc below
  have installed : Leaves (withFrameLock d.child done) [.frame d.parent, .worker w] flag := by
    refine leaves_withFrameLock ?_ keeps_done
    simp [d.younger]
  exact leaves_withFrameLock_worker (unrolled.andThen (made.andThen (installed.andThen keeps_done)))

theorem leaves_promoteOwnDeque (detached : List Detached) : Leaves (promoteOwnDeque w detached) [] false := by
  apply leaves_withWorkerLock
  apply Keeps.block
  intro code member
  obtain ⟨d, _, rfl⟩ := List.mem_map.1 member
  exact leaves_detachForSteal d

theorem leaves_dequeMug : Leaves (dequeMug w) [.worker w] flag := by
  refine ⟨rfl, ?_, keeps_done⟩
  simp

theorem leaves_stealOnSuspend (d : Detached) : Leaves (stealOnSuspend d) [.worker w] flag := by
  have below : BelowFiberPool [.worker w] := by simp [BelowFiberPool]
  have allocated : Leaves (fiberAllocate workerPool) [.worker w] flag :=
    leaves_fiberAllocate workerPool_isGlobal below
  have detached : Leaves (detachForSteal d) [.worker w] flag := leaves_detachForSteal d
  exact ⟨allocated.andThen ((Keeps.maybe detached).andThen keeps_done), detached⟩

theorem leaves_dequeSuspend (newDeque : Bool) (d : Detached) :
    Leaves (dequeSuspend w newDeque d v) [] false := by
  have placed : Leaves (maybe (withVictimLock v done)) [] false :=
    Keeps.maybe (leaves_withVictimLock keeps_done)
  cases newDeque with
  | true =>
    have switched : Leaves (withWorkerLock w done) [] false := leaves_withWorkerLock keeps_done
    exact keeps_done.andThen (switched.andThen (placed.andThen keeps_done))
  | false =>
    have mugged : Leaves (withVictimLock w (maybe (dequeMug w))) [] false :=
      leaves_withVictimLock (Keeps.maybe leaves_dequeMug)
    have switched : Leaves (withWorkerLock w (maybe (stealOnSuspend d))) [] false :=
      leaves_withWorkerLock (Keeps.maybe (leaves_stealOnSuspend d))
    exact mugged.andThen (switched.andThen (placed.andThen keeps_done))

theorem leaves_makeResumable : Leaves (makeResumable w v) [] false := by
  have moved : Leaves (withVictimLock w done) [] false := leaves_withVictimLock keeps_done
  have added : Leaves (withVictimLock v done) [] false := leaves_withVictimLock keeps_done
  exact ⟨moved.andThen ((Keeps.maybe added).andThen keeps_done), added⟩

theorem leaves_resumeSuspended {chosen : W} (destroy : Bool) (d : Detached) (turns : Nat) :
    Leaves (resumeSuspended w v destroy d chosen turns) [] false := by
  have mugged : Leaves (maybe (withVictimLock v (maybe (dequeMug v)))) [] false :=
    Keeps.maybe (leaves_withVictimLock (Keeps.maybe leaves_dequeMug))
  cases destroy with
  | true =>
    have switched : Leaves (withWorkerLock w done) [] false := leaves_withWorkerLock keeps_done
    have freed : Leaves (removeReference workerPool turns) ([] : List (RuntimeLock W)) false :=
      leaves_removeReference (by simp [BelowFiberPool]) turns
    exact mugged.andThen ((switched.andThen (freed.andThen keeps_done)).andThen keeps_done)
  | false => exact mugged.andThen ((leaves_dequeSuspend true d).andThen keeps_done)

/-- The lock of the victim is released before the thief takes its own, so that no worker has those of two. -/
theorem keeps_jumpToSuspendedFiber :
    (jumpToSuspendedFiber w v).Keeps (runtimeLocks W) [.worker v] false [] false := by
  have switched : Leaves (withWorkerLock w done) [] false := leaves_withWorkerLock keeps_done
  exact leaves_dequeMug.andThen ⟨rfl, switched⟩

theorem keeps_releaseVictim : (releaseVictim v).Keeps (runtimeLocks W) [.worker v] false [] false := by
  refine ⟨rfl, ?_, rfl, keeps_done⟩
  simp

theorem keeps_stealLocked (d : Detached) (turns : Nat) :
    (stealLocked w v d turns).Keeps (runtimeLocks W) [.worker v] false [] false := by
  have below : BelowFiberPool [.worker v] := by simp [BelowFiberPool]
  have chosen : Leaves (chooseDeque v) [.worker v] false := leaves_dequeMug
  have allocated : Leaves (fiberAllocate workerPool) [.worker v] false :=
    leaves_fiberAllocate workerPool_isGlobal below
  have detached : Leaves (maybe (detachForSteal d)) [.worker v] false := Keeps.maybe (leaves_detachForSteal d)
  have freed : Leaves (removeReference workerPool turns) ([] : List (RuntimeLock W)) false :=
    leaves_removeReference (by simp [BelowFiberPool]) turns
  refine chosen.andThen ⟨keeps_jumpToSuspendedFiber, ?_, ?_⟩
  · exact (Keeps.maybe leaves_dequeMug).andThen keeps_releaseVictim
  · exact allocated.andThen (detached.andThen (keeps_releaseVictim.andThen freed))

theorem leaves_randomSteal (d : Detached) (turns : Nat) : Leaves (randomSteal w v d turns) [] false := by
  refine ⟨List.not_mem_nil, keeps_stealLocked d turns, rfl, ?_, keeps_done⟩
  simp

theorem leaves_checkForWork (d : Detached) (turns : Nat) : Leaves (checkForWork w v d turns) [] false := by
  have left : Leaves (withWorkerLock w done) [] false := leaves_withWorkerLock keeps_done
  exact (Keeps.maybe left).andThen ((Keeps.maybe (leaves_randomSteal d turns)).andThen keeps_done)

/-! ### Syncs and returns -/

theorem leaves_doSync (turns : Nat) : Leaves (doSync w ff turns) [] false := by
  have below : BelowFrameMalloc [.frame ff, .worker w] := by simp [BelowFrameMalloc]
  have turn : Leaves (withWorkerLock w (withFrameLock ff provablyGoodSteal)) [] false :=
    leaves_withWorkerLock (leaves_withFrameLock_worker (leaves_provablyGoodSteal below))
  exact turn.andThen ((Keeps.times turn turns).andThen keeps_done)

theorem leaves_reductions (body : Leaves code [.frame ff] false) : Leaves (withFrameLock ff code) [] false :=
  leaves_withFrameLock (by simp) body

theorem leaves_doReturnFromSpawn (parent : Option Nat) (turns : Nat) :
    Leaves (doReturnFromSpawn w ff parent turns) [] false := by
  have ended : Leaves (withFrameLock ff done) [.worker w] true := leaves_withFrameLock_worker keeps_done
  have destroyed : Leaves destroyFullFrame ([] : List (RuntimeLock W)) false :=
    leaves_frameFree (by simp [BelowFrameMalloc])
  cases parent with
  | none => exact (leaves_withWorkerLock ended).andThen (destroyed.andThen keeps_done)
  | some parent =>
    have below : BelowFrameMalloc [.frame parent, .worker w] := by simp [BelowFrameMalloc]
    have stolen : Leaves (withFrameLock parent provablyGoodSteal) [.worker w] true :=
      leaves_withFrameLock_worker (leaves_provablyGoodSteal below)
    have joined : Leaves (withFrameLock parent (maybe provablyGoodSteal)) [.worker w] true :=
      leaves_withFrameLock_worker (Keeps.maybe (leaves_provablyGoodSteal below))
    have first : Leaves (withWorkerLock w (block [withFrameLock ff done,
        withFrameLock parent (maybe provablyGoodSteal)])) [] false :=
      leaves_withWorkerLock (ended.andThen (joined.andThen keeps_done))
    have turn : Leaves (withWorkerLock w (withFrameLock parent provablyGoodSteal)) [] false :=
      leaves_withWorkerLock stolen
    exact first.andThen ((Keeps.times turn turns).andThen (destroyed.andThen keeps_done))

theorem leaves_cilkrtsReturn {parent : Nat} (next : Option Nat) :
    Leaves (cilkrtsReturn w ff parent next) [] false := by
  have below : BelowFrameMalloc [.frame parent, .worker w] := by simp [BelowFrameMalloc]
  have disowned : Leaves (withFrameLock ff done) [.worker w] true := leaves_withFrameLock_worker keeps_done
  have finalized : Leaves (withFrameLock parent finalizeChildForCall) [.worker w] true :=
    leaves_withFrameLock_worker (leaves_frameFree below)
  apply leaves_withWorkerLock
  cases next with
  | none => exact disowned.andThen (finalized.andThen (keeps_done.andThen keeps_done))
  | some next =>
    have setUp : Leaves (withFrameLock next done) [.worker w] true := leaves_withFrameLock_worker keeps_done
    exact disowned.andThen (finalized.andThen (setUp.andThen keeps_done))

end RuntimeLocks

open RuntimeLocks in
/-- Every piece of code keeps to the order. -/
theorem RuntimeCall.keeps {W : Type} (w : W) (call : RuntimeCall W) :
    (call.code w).Keeps (runtimeLocks W) [] false [] false := by
  have belowMalloc : BelowFrameMalloc ([] : List (RuntimeLock W)) := by simp [BelowFrameMalloc]
  have belowPool : BelowFiberPool ([] : List (RuntimeLock W)) := by simp [BelowFiberPool]
  cases call with
  | frameMalloc => exact leaves_frameMalloc belowMalloc
  | frameFree => exact leaves_frameFree belowMalloc
  | fiberAllocate => exact leaves_fiberAllocate workerPool_isGlobal belowPool
  | removeReference turns => exact leaves_removeReference belowPool turns
  | poolDestroy turns => exact leaves_poolDestroy (.inr rfl) turns
  | destroyWorker turns =>
    exact (leaves_poolDestroy (.inl rfl) turns).andThen
      ((leaves_perWorkerCleanup belowMalloc).andThen LockCode.keeps_done)
  | promoteOwnDeque detached => exact leaves_promoteOwnDeque detached
  | suspendDeque d victim => exact leaves_dequeSuspend false d
  | makeResumable victim chosen => exact leaves_makeResumable
  | resumeSuspended victim destroy d chosen turns => exact leaves_resumeSuspended destroy d turns
  | checkForWork victim d turns => exact leaves_checkForWork d turns
  | workerSchedulingLoopBody ff => exact leaves_withWorkerLock (leaves_withFrameLock_worker LockCode.keeps_done)
  | doSync ff turns => exact leaves_doSync turns
  | theExceptionCheck => exact leaves_withWorkerLock LockCode.keeps_done
  | slowPathReductionsForSync ff =>
    exact leaves_reductions (leaves_mergePendingExceptions (by simp [BelowFrameMalloc]))
  | executeReductionsForSpawnReturn parent =>
    exact leaves_reductions (leaves_spliceExceptionsForSpawn (by simp [BelowFrameMalloc]))
  | doReturnFromSpawn ff parent turns => exact leaves_doReturnFromSpawn parent turns
  | popTail => exact leaves_withWorkerLock LockCode.keeps_done
  | cilkrtsReturn ff parent next => exact leaves_cilkrtsReturn next
  | returnFromInitial => exact leaves_withWorkerLock (leaves_frameFree (by simp [BelowFrameMalloc]))
  | unwatchStack ff => exact leaves_withWorkerLock (leaves_withFrameLock_worker LockCode.keeps_done)
  | watchStack => exact leaves_withWorkerLock LockCode.keeps_done

section Runs

/-- Two workers with nothing to do. -/
def twoIdleWorkers : LockState (Fin 2) (RuntimeLock (Fin 2)) where
  word _ := false
  owner _ := none
  thread _ := ⟨false, .done, .ready⟩

theorem twoIdleWorkers_quiet : twoIdleWorkers.Quiet (runtimeLocks (Fin 2)).owned where
  word _ := rfl
  owner _ _ := rfl
  thread _ := rfl

/-- Worker 0 steals from worker 1 and is inside the section of the parent when worker 1 checks for the theft. -/
def stealAgainstCheck : List (LockLabel (Fin 2) (RuntimeCall (Fin 2))) :=
  [.begin 0 (.checkForWork 1 ⟨0, 1, by decide, 0⟩ 0), .step 0 false, .step 0 true, .step 0 true, .step 0 true,
    .step 0 true, .step 0 false, .step 0 false, .step 0 false, .step 0 true, .step 0 true, .step 0 true,
    .begin 1 .theExceptionCheck, .step 1 true, .step 1 true]

end Runs

end CilkL
