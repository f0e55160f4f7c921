/-
Module: CilkL.Runtime.Shutdown
Layer: Runtime
Purpose: What the runtime allocates for its workers when it is initialised, the threads it starts, and what
  it does when it is shut down: `__cilkrts_stop_workers` and `__cilkrts_deinit_internal` with
  `destroy_worker` for every worker. A pointer is a block and an offset in it, and `free` takes the start of
  a block that is allocated. A step that fails an assertion, frees another pointer, or destroys a worker
  whose thread runs is a fault. `calc_max_user_workers` returns 1, so `total_workers` is `P`. Fiber pools
  and mutexes look after themselves and are left out.
Imports: Mathlib.Logic.Function.Basic
Trusted boundary: human-reviewed spec (translated from scheduler.c, sysdep-unix.c and deque.c)
Main exports: Pointer, Heap, ShutdownFault, ShutdownWorker, ShutdownState, initWorkers,
  initGlobalSysdep, startWorkers, stopWorkers, destroyWorker, deinitInternal, shutdown
Open obligations: none
-/
import Mathlib.Logic.Function.Basic

namespace CilkL

/-- A pointer into a block. -/
structure Pointer where
  block : Nat
  offset : Nat
  deriving DecidableEq, Repr

/-- The blocks obtained so far are numbered; those passed to `free` are listed, the last one first. -/
structure Heap where
  next : Nat
  freed : List Nat
  deriving DecidableEq, Repr

/-- What goes wrong in a shutdown. -/
inductive ShutdownFault where
  /-- `CILK_ASSERT(g->workers[0]->l->signal_node)`. -/
  | noSignalNode
  /-- `CILK_ASSERT (NULL == w->l->pending_exception)`. -/
  | pendingException (worker : Nat)
  /-- `CILK_ASSERT(WORKER_FREE == w->l->type)`, for a worker with a scheduling fiber. -/
  | notFree (worker : Nat)
  /-- `CILK_ASSERT(0 == ref_count)`. -/
  | fiberReferences (worker : Nat)
  /-- `CILK_ASSERT(NULL == w->l->stats)`. -/
  | stats (worker : Nat)
  /-- `CILK_ASSERT(WORKER_SYSTEM == w->l->type)`, for a worker with a signal node. -/
  | notSystem (worker : Nat)
  /-- `CILK_ASSERT(p->size == 0)`. -/
  | poolNotEmpty (worker : Nat)
  /-- A pointer that `malloc` did not return, or that is not allocated any more. -/
  | badFree (pointer : Pointer)
  /-- The worker that is destroyed has a thread. -/
  | threadRuns (worker : Nat)
  deriving DecidableEq, Repr

namespace Heap

/-- `__cilkrts_malloc`. -/
def malloc (heap : Heap) : Pointer × Heap :=
  ({ block := heap.next, offset := 0 }, { heap with next := heap.next + 1 })

/-- `__cilkrts_free`. -/
def free (heap : Heap) (pointer : Pointer) : Except ShutdownFault Heap :=
  if pointer.offset = 0 ∧ pointer.block < heap.next ∧ pointer.block ∉ heap.freed then
    .ok { heap with freed := pointer.block :: heap.freed }
  else .error (.badFree pointer)

end Heap

/-- `worker_type`. -/
inductive WorkerType where
  | free
  | system
  | user
  | io
  deriving DecidableEq, Repr

/-- `io_mode`. -/
inductive RuntimeIoMode where
  | normal
  | sharedCore
  | dedicatedCore
  deriving DecidableEq, Repr

/-- What a shutdown reads of a deque. -/
structure ShutdownDeque where
  memory : Pointer
  ltq : Pointer
  fiber_ltq : Pointer
  /-- Whether `frame_ff` is set. -/
  frame_ff : Bool
  deriving DecidableEq, Repr

/-- What a shutdown reads of a `deque_pool`. -/
structure ShutdownPool where
  array : Pointer
  size : Nat
  deriving DecidableEq, Repr

/-- What a shutdown reads of a worker and its local state. -/
structure ShutdownWorker where
  /-- The address of the worker itself. -/
  memory : Pointer
  l : Pointer
  type : WorkerType
  active_deque : ShutdownDeque
  suspended_deques : ShutdownPool
  resumable_deques : ShutdownPool
  stats : Option Pointer
  signal_node : Option Pointer
  io_queue : Option Pointer
  /-- Whether there is a pending exception. -/
  pending_exception : Bool
  /-- The references to the scheduling fiber other than the worker's own, when there is one. -/
  scheduling_fiber : Option Nat
  deriving DecidableEq, Repr

/-- What a shutdown reads of the global state. -/
structure ShutdownState where
  P : Nat
  io_mode : RuntimeIoMode
  /-- User threads in Cilk. -/
  Q : Nat
  workers : Nat → ShutdownWorker
  /-- The array `g->workers`. -/
  workersArray : Pointer
  sysdep : Pointer
  threadsArray : Pointer
  workers_running : Bool
  work_done : Bool
  /-- The workers whose threads run. -/
  threads : List Nat
  heap : Heap

/-- `sizeof(struct buffered_worker)`, which is aligned to 256. -/
def sizeofBufferedWorker : Nat := 256

/-- `deque_init` on a deque that was just allocated. -/
def dequeInit (memory : Pointer) (heap : Heap) : ShutdownDeque × Heap :=
  let (ltq, heap) := heap.malloc
  let (fiber_ltq, heap) := heap.malloc
  ({ memory := memory, ltq := ltq, fiber_ltq := fiber_ltq, frame_ff := false }, heap)

/-- `make_worker`. -/
def makeWorker (memory : Pointer) (heap : Heap) : ShutdownWorker × Heap :=
  let (l, heap) := heap.malloc
  let (deque, heap) := heap.malloc
  let (active_deque, heap) := dequeInit deque heap
  let (suspended, heap) := heap.malloc
  let (resumable, heap) := heap.malloc
  let (stats, heap) := heap.malloc
  ({ memory := memory, l := l, type := .free, active_deque := active_deque,
     suspended_deques := { array := suspended, size := 0 },
     resumable_deques := { array := resumable, size := 0 },
     stats := some stats, signal_node := none, io_queue := none, pending_exception := false,
     scheduling_fiber := none }, heap)

namespace ShutdownState

/-- Worker `i` becomes `w`. -/
def setWorker (s : ShutdownState) (i : Nat) (w : ShutdownWorker) : ShutdownState :=
  { s with workers := Function.update s.workers i w }

/-- A block is freed. -/
def free (s : ShutdownState) (pointer : Pointer) : Except ShutdownFault ShutdownState := do
  let heap ← s.heap.free pointer
  .ok { s with heap := heap }

/-- The pass of `init_workers` that makes worker `i` in `workers_memory`. -/
def makeWorker (memory : Pointer) (s : ShutdownState) (i : Nat) : ShutdownState :=
  let address := { memory with offset := i * sizeofBufferedWorker }
  let (w, heap) := CilkL.makeWorker address s.heap
  { s with heap := heap }.setWorker i w

/-- `make_worker_system`. -/
def makeWorkerSystem (s : ShutdownState) (i : Nat) : ShutdownState :=
  let (node, heap) := s.heap.malloc
  { s with heap := heap }.setWorker i { s.workers i with type := .system, signal_node := some node }

/-- `make_worker_io`. -/
def makeWorkerIo (s : ShutdownState) (i : Nat) : ShutdownState :=
  let (queue, heap) := s.heap.malloc
  { s with heap := heap }.setWorker i { s.workers i with type := .io, io_queue := some queue }

/-- A worker that computes with its I/O worker shares the queue. -/
def shareIoQueue (s : ShutdownState) (i : Nat) : ShutdownState :=
  s.setWorker i { s.workers i with io_queue := (s.workers (i + s.P)).io_queue }

end ShutdownState

/-- A worker slot before `make_worker`. -/
def blankWorker : ShutdownWorker := (makeWorker ⟨0, 0⟩ ⟨0, []⟩).1

/-- The two blocks that `init_workers` obtains first, `workers` and `workers_memory`; the pointers of
`sysdep` are not valid yet. -/
def allocateWorkers (P : Nat) (io_mode : RuntimeIoMode) : ShutdownState where
  P := P
  io_mode := io_mode
  Q := 0
  workers := fun _ => blankWorker
  workersArray := { block := 0, offset := 0 }
  sysdep := { block := 0, offset := 0 }
  threadsArray := { block := 0, offset := 0 }
  workers_running := false
  work_done := false
  threads := []
  heap := ((Heap.mk 0 []).malloc.2).malloc.2

/-- `init_workers`. -/
def initWorkers (P : Nat) (io_mode : RuntimeIoMode) : ShutdownState :=
  let workers_memory : Pointer := { block := 1, offset := 0 }
  let s := (List.range (P * 2)).foldl (ShutdownState.makeWorker workers_memory)
    (allocateWorkers P io_mode)
  let s := (List.range' 1 (P - 1)).foldl ShutdownState.makeWorkerSystem s
  if io_mode ≠ .normal then
    (List.range P).foldl ShutdownState.shareIoQueue
      ((List.range' P P).foldl ShutdownState.makeWorkerIo s)
  else s

/-- `__cilkrts_init_global_sysdep`. -/
def initGlobalSysdep (s : ShutdownState) : ShutdownState :=
  let (sysdep, heap) := s.heap.malloc
  let (threadsArray, heap) := heap.malloc
  { s with sysdep := sysdep, threadsArray := threadsArray, heap := heap }

/-- The threads that `__cilkrts_start_workers` creates. -/
def startedThreads (P : Nat) (io_mode : RuntimeIoMode) : List Nat :=
  List.range' 1 (P - 1) ++ (if io_mode ≠ .normal then List.range' P P else [])

/-- `__cilkrts_start_workers`. -/
def startWorkers (s : ShutdownState) : ShutdownState :=
  { s with workers_running := true, work_done := false, threads := startedThreads s.P s.io_mode }

/-- `__cilkrts_stop_workers`. Joining a thread waits for its end. -/
def stopWorkers (s : ShutdownState) : Except ShutdownFault ShutdownState :=
  let s := { s with work_done := true }
  if s.workers_running = false then .ok s
  else if 1 < s.P ∧ (s.workers 0).signal_node = none then .error .noSignalNode
  else
    .ok { s with threads := s.threads.filter fun i => ¬ (1 ≤ i ∧ i < s.P), workers_running := false }

/-- `deque_pool_free`. -/
def poolFree (i : Nat) (pool : ShutdownPool) (s : ShutdownState) : Except ShutdownFault ShutdownState :=
  if pool.size = 0 then s.free pool.array else .error (.poolNotEmpty i)

/-- The part of `destroy_worker` before the statistics. -/
def destroySchedulingFiber (s : ShutdownState) (i : Nat) : Except ShutdownFault ShutdownState :=
  let w := s.workers i
  if w.pending_exception then .error (.pendingException i)
  else
    match w.scheduling_fiber with
    | none => .ok s
    | some references =>
      if w.type ≠ .free then .error (.notFree i)
      else if references ≠ 0 then .error (.fiberReferences i)
      else .ok (s.setWorker i { w with scheduling_fiber := none })

/-- The statistics in `destroy_worker`: `profile` is whether `CILK_PROFILE` is defined. -/
def destroyStats (profile : Bool) (s : ShutdownState) (i : Nat) : Except ShutdownFault ShutdownState :=
  match (s.workers i).stats with
  | none => .ok s
  | some stats => if profile then s.free stats else .error (.stats i)

/-- The signal node in `destroy_worker`. -/
def destroySignalNode (s : ShutdownState) (i : Nat) : Except ShutdownFault ShutdownState :=
  match (s.workers i).signal_node with
  | none => .ok s
  | some node => if (s.workers i).type = .system then s.free node else .error (.notSystem i)

/-- The worker that is destroyed has no thread. -/
def noThread (s : ShutdownState) (i : Nat) : Except ShutdownFault ShutdownState :=
  if i ∈ s.threads then .error (.threadRuns i) else .ok s

/-- `destroy_worker`. -/
def destroyWorker (profile : Bool) (s : ShutdownState) (i : Nat) :
    Except ShutdownFault ShutdownState := do
  let s ← noThread s i
  let s ← destroySchedulingFiber s i
  let s ← destroyStats profile s i
  let s ← destroySignalNode s i
  let s ← s.free (s.workers i).active_deque.ltq
  let s ← poolFree i (s.workers i).suspended_deques s
  let s ← poolFree i (s.workers i).resumable_deques s
  let s ← s.free (s.workers i).active_deque.memory
  s.free (s.workers i).l

/-- The full frame of worker `i`, if it has one, is destroyed. -/
def destroyLastFullFrame (s : ShutdownState) (i : Nat) : ShutdownState :=
  let deque := (s.workers i).active_deque
  s.setWorker i { s.workers i with active_deque := { deque with frame_ff := false } }

/-- `__cilkrts_deinit_internal`, which looks for a full frame on worker 1. -/
def deinitInternal (profile : Bool) (s : ShutdownState) : Except ShutdownFault ShutdownState := do
  let s := destroyLastFullFrame s 1
  let s ← s.free s.threadsArray
  let s ← s.free s.sysdep
  let s ← (List.range (s.P * 2)).foldlM (destroyWorker profile) s
  let s ← s.free (s.workers 1).memory
  s.free s.workersArray

/-- The whole sequence of `__cilkrts_end_cilk`. -/
def shutdown (profile : Bool) (s : ShutdownState) : Except ShutdownFault ShutdownState := do
  let s ← stopWorkers s
  deinitInternal profile s

end CilkL
