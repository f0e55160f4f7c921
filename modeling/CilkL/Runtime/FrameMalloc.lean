/-
Module: CilkL.Runtime.FrameMalloc
Layer: Runtime
Purpose: The frame allocator of frame_malloc.c: a list of free blocks for each worker and bucket, filled in
  batches from the global cache, cut by a garbage collection and moved back when the worker is cleaned up.
  The free lists are threaded through the first words of the blocks, as in the source, so the memory is
  part of the state and programs may store into the blocks they hold. The labels carry the chunks that the
  operating system hands out. Requests above `FRAME_MALLOC_MAX_SIZE` go to `__cilkrts_malloc` and are left
  out, and so are the mutex, the statistics and the leak message of the global cleanup.
  The blocks in use and the workers that were cleaned up are recorded beside the state; the code reads
  neither.
Imports: CilkL.Library.Machine, Mathlib.Data.Fin.VecNotation, Mathlib.Data.List.FinRange,
  Mathlib.Logic.Function.Basic
Trusted boundary: human-reviewed spec (translated from frame_malloc.c)
Main exports: bucketSize, FrameMemory, globalAlloc, globalFree, allocateBatch, gcBucket,
  moveBucketToGlobalFreeList, FrameAllocator, frameMalloc, frameFree, perWorkerCleanup, allocatorMachine
Open obligations: none
-/
import CilkL.Library.Machine
import Mathlib.Data.Fin.VecNotation
import Mathlib.Data.List.FinRange
import Mathlib.Logic.Function.Basic

namespace CilkL

/-- `FRAME_MALLOC_NBUCKETS`. -/
abbrev Bucket := Fin 6

/-- `FRAME_MALLOC_BUCKET_TO_SIZE`. -/
def bucketSize : Bucket → Nat := ![64, 128, 256, 512, 1024, 2048]

/-- `FRAME_MALLOC_MAX_SIZE`. -/
def frameMallocMaxSize : Nat := 2048

/-- `FRAME_MALLOC_CHUNK`. -/
def frameMallocChunk : Nat := 32 * 1024 - 128

/-- `batch_size`. -/
def batchSize : Nat := 8000

/-- `potential_limit`. -/
def potentialLimit : Nat := 4 * batchSize

/-- `bucket_of_size`; `none` where the assertion "can't happen" fails. -/
def bucketOfSize (size : Nat) : Option Bucket :=
  (List.finRange 6).find? fun i => size ≤ bucketSize i

/-- The memory and the global cache. -/
structure FrameMemory where
  /-- The first word of the block at an address, its link while it is on a free list. -/
  cdr : Nat → Nat
  /-- The chunks obtained from the operating system, newest first. -/
  poolList : List Nat
  poolBegin : Nat
  poolEnd : Nat
  globalFreeList : Bucket → Nat
  allocatedFromOs : Int
  wasted : Int
  allocatedFromGlobalPool : Int

/-- `push(&list, p)`: the new memory; the list now starts at `p`. -/
def FrameMemory.push (m : FrameMemory) (list p : Nat) : FrameMemory :=
  { m with cdr := Function.update m.cdr p list }

/-- `pop(&list)`: the block and what the list is afterwards. -/
def FrameMemory.pop (m : FrameMemory) (list : Nat) : Option (Nat × Nat) :=
  if list = 0 then none else some (list, m.cdr list)

/-- Memory that the operating system can hand out: it overlaps no chunk that it handed out before. -/
def FrameMemory.Fresh (m : FrameMemory) (chunk : Nat) : Prop :=
  chunk ≠ 0 ∧ ∀ old ∈ m.poolList, old + frameMallocChunk ≤ chunk ∨ chunk + frameMallocChunk ≤ old

instance (m : FrameMemory) (chunk : Nat) : Decidable (m.Fresh chunk) :=
  inferInstanceAs (Decidable (_ ∧ _))

/-- `extend_global_pool`, with the chunk that `__cilkrts_malloc` returns. -/
def FrameMemory.extendGlobalPool (m : FrameMemory) (chunk : Nat) : FrameMemory :=
  { m with
    poolBegin := chunk, poolEnd := chunk + frameMallocChunk
    allocatedFromOs := m.allocatedFromOs + frameMallocChunk, poolList := chunk :: m.poolList }

/-- `global_alloc`: the memory, the block, and the chunks that were not needed. -/
def globalAlloc (m : FrameMemory) (bucket : Bucket) (chunks : List Nat) :
    Option (FrameMemory × Nat × List Nat) :=
  let size := bucketSize bucket
  let m := { m with allocatedFromGlobalPool := m.allocatedFromGlobalPool + size }
  match m.pop (m.globalFreeList bucket) with
  | some (mem, rest) =>
      some ({ m with globalFreeList := Function.update m.globalFreeList bucket rest }, mem, chunks)
  | none =>
      if m.poolBegin + size > m.poolEnd then
        match chunks with
        | [] => none
        | chunk :: chunks =>
            if m.Fresh chunk then
              let m := { m with wasted := m.wasted + ((m.poolEnd : Int) - m.poolBegin) }
              let m := m.extendGlobalPool chunk
              some ({ m with poolBegin := m.poolBegin + size }, m.poolBegin, chunks)
            else none
      else some ({ m with poolBegin := m.poolBegin + size }, m.poolBegin, chunks)

/-- `global_free`. -/
def globalFree (m : FrameMemory) (mem : Nat) (bucket : Bucket) : FrameMemory :=
  let m := { m with allocatedFromGlobalPool := m.allocatedFromGlobalPool - bucketSize bucket }
  { m.push (m.globalFreeList bucket) mem with
    globalFreeList := Function.update m.globalFreeList bucket mem }

/-- One bucket of a worker: `free_list[i]` and `bucket_potential[i]`. -/
structure WorkerBucket where
  freeList : Nat
  potential : Nat
deriving DecidableEq, Repr

/-- The `do`-`while` loop of `allocate_batch`. Each pass adds at least one byte to `bytesAllocated`, so
`batchSize` passes are enough. -/
def allocateBatchLoop (bucket : Bucket) :
    Nat → Nat → FrameMemory → WorkerBucket → List Nat →
      Option (FrameMemory × WorkerBucket × List Nat)
  | 0, _, _, _, _ => none
  | fuel + 1, bytesAllocated, m, l, chunks =>
      let bytesAllocated := bytesAllocated + bucketSize bucket
      match globalAlloc m bucket chunks with
      | none => none
      | some (m, mem, chunks) =>
          let m := m.push l.freeList mem
          let l := { freeList := mem, potential := l.potential + bucketSize bucket }
          if bytesAllocated < batchSize then allocateBatchLoop bucket fuel bytesAllocated m l chunks
          else some (m, l, chunks)

/-- `allocate_batch`. -/
def allocateBatch (m : FrameMemory) (l : WorkerBucket) (bucket : Bucket) (chunks : List Nat) :
    Option (FrameMemory × WorkerBucket × List Nat) :=
  allocateBatchLoop bucket batchSize 0 m l chunks

/-- The `for` loop of `gc_bucket`: `newpot` and `p` when it ends. -/
def gcWalk (m : FrameMemory) (size pot : Nat) : Nat → Nat → Nat → Option (Nat × Nat)
  | 0, _, _ => none
  | fuel + 1, newpot, p =>
      if p ≠ 0 ∧ 2 * newpot < pot then gcWalk m size pot fuel (newpot + size) (m.cdr p)
      else some (newpot, p)

/-- `while ((q = pop(&p->cdr))) global_free(g, q, bucket)`. -/
def freeRest (bucket : Bucket) (p : Nat) : Nat → FrameMemory → Option FrameMemory
  | 0, _ => none
  | fuel + 1, m =>
      match m.pop (m.cdr p) with
      | none => some m
      | some (q, rest) =>
          freeRest bucket p fuel (globalFree { m with cdr := Function.update m.cdr p rest } q bucket)

/-- More passes than a walk along a free list can take: each block has a byte from the operating
system. -/
def FrameMemory.listFuel (m : FrameMemory) : Nat := m.allocatedFromOs.toNat + 1

/-- `gc_bucket`. -/
def gcBucket (m : FrameMemory) (l : WorkerBucket) (bucket : Bucket) :
    Option (FrameMemory × WorkerBucket) :=
  match gcWalk m (bucketSize bucket) l.potential m.listFuel 0 l.freeList with
  | none => none
  | some (newpot, p) =>
      let l := { l with potential := newpot }
      if p ≠ 0 then (freeRest bucket p m.listFuel m).map fun m => (m, l) else some (m, l)

/-- `while ((q = pop(&p))) global_free(g, q, bucket)`, on the local variable `p`. -/
def freeAll (bucket : Bucket) : Nat → Nat → FrameMemory → Option FrameMemory
  | 0, _, _ => none
  | fuel + 1, p, m =>
      match m.pop p with
      | none => some m
      | some (q, rest) => freeAll bucket fuel rest (globalFree m q bucket)

/-- `move_bucket_to_global_free_list`. The worker's `free_list` keeps its value. -/
def moveBucketToGlobalFreeList (m : FrameMemory) (l : WorkerBucket) (bucket : Bucket) :
    Option (FrameMemory × WorkerBucket) :=
  (freeAll bucket m.listFuel l.freeList m).map fun m => (m, { l with potential := 0 })

/-- A block that a program holds: its address and the size that was asked for. -/
structure LiveBlock where
  address : Nat
  request : Nat
deriving DecidableEq, Repr

/-- The allocator with its workers. -/
structure FrameAllocator (W : Type) where
  memory : FrameMemory
  worker : W → Bucket → WorkerBucket
  /-- The blocks in use. -/
  live : List LiveBlock
  /-- The workers that were cleaned up. -/
  cleaned : W → Bool

/-- The state after `__cilkrts_frame_malloc_global_init` and `__cilkrts_frame_malloc_per_worker_init`. -/
def FrameAllocator.initial (W : Type) : FrameAllocator W where
  memory :=
    { cdr := fun _ => 0, poolList := [], poolBegin := 0, poolEnd := 0, globalFreeList := fun _ => 0
      allocatedFromOs := 0, wasted := 0, allocatedFromGlobalPool := 0 }
  worker _ _ := { freeList := 0, potential := 0 }
  live := []
  cleaned _ := false

variable {W : Type} [DecidableEq W]

/-- One bucket of one worker is written. -/
def FrameAllocator.setBucket (s : FrameAllocator W) (m : FrameMemory) (w : W) (bucket : Bucket)
    (l : WorkerBucket) : FrameAllocator W :=
  { s with
    memory := m, worker := Function.update s.worker w (Function.update (s.worker w) bucket l) }

/-- The loop of `__cilkrts_frame_malloc` on its bucket: `while (!(mem = pop(..))) allocate_batch(..)`. -/
def frameMallocLoop (bucket : Bucket) :
    Nat → FrameMemory → WorkerBucket → List Nat → Option (FrameMemory × WorkerBucket × Nat)
  | 0, _, _, _ => none
  | fuel + 1, m, l, chunks =>
      match m.pop l.freeList with
      | some (mem, rest) => some (m, { l with freeList := rest }, mem)
      | none =>
          match allocateBatch m l bucket chunks with
          | none => none
          | some (m, l, chunks) => frameMallocLoop bucket fuel m l chunks

/-- `__cilkrts_frame_malloc(w, size)` for a size within `FRAME_MALLOC_MAX_SIZE`. After one batch the list
is not empty, so the loop makes two passes at most. -/
def frameMalloc (s : FrameAllocator W) (w : W) (size : Nat) (chunks : List Nat) :
    Option (FrameAllocator W × Nat) :=
  match bucketOfSize size with
  | none => none
  | some bucket =>
      (frameMallocLoop bucket 2 s.memory (s.worker w bucket) chunks).map fun (m, l, mem) =>
        (s.setBucket m w bucket l, mem)

/-- `__cilkrts_frame_free(w, p, size)` for a size within `FRAME_MALLOC_MAX_SIZE`. -/
def frameFree (s : FrameAllocator W) (w : W) (p size : Nat) : Option (FrameAllocator W) :=
  match bucketOfSize size with
  | none => none
  | some bucket =>
      let l := s.worker w bucket
      let m := s.memory.push l.freeList p
      let l := { freeList := p, potential := l.potential + bucketSize bucket }
      if l.potential > potentialLimit then
        (gcBucket m l bucket).map fun (m, l) => s.setBucket m w bucket l
      else some (s.setBucket m w bucket l)

/-- The loop of `__cilkrts_frame_malloc_per_worker_cleanup` over the buckets. -/
def cleanupBuckets (w : W) : List Bucket → FrameAllocator W → Option (FrameAllocator W)
  | [], s => some s
  | bucket :: buckets, s =>
      match moveBucketToGlobalFreeList s.memory (s.worker w bucket) bucket with
      | none => none
      | some (m, l) => cleanupBuckets w buckets (s.setBucket m w bucket l)

/-- `__cilkrts_frame_malloc_per_worker_cleanup(w)`. -/
def perWorkerCleanup (s : FrameAllocator W) (w : W) : Option (FrameAllocator W) :=
  cleanupBuckets w (List.finRange 6) s

/-- The calls of the workers, and the stores of the program into the blocks it holds. -/
inductive FrameLabel (W : Type) where
  /-- `__cilkrts_frame_malloc(w, size)`; the chunks that the operating system can give. -/
  | malloc (w : W) (size : Nat) (chunks : List Nat)
  /-- `__cilkrts_frame_free(w, p, size)` of a block in use. -/
  | free (w : W) (block : LiveBlock)
  /-- `__cilkrts_frame_malloc_per_worker_cleanup(w)`. -/
  | cleanup (w : W)
  /-- The program stores into a block it holds. -/
  | store (block : LiveBlock) (address value : Nat)

/-- The worker that a call names. -/
def FrameLabel.worker : FrameLabel W → Option W
  | .malloc w _ _ => some w
  | .free w _ => some w
  | .cleanup w => some w
  | .store _ _ _ => none

/-- One call. -/
def allocatorStep (s : FrameAllocator W) : FrameLabel W → Option (FrameAllocator W)
  | .malloc w size chunks =>
      if size ≤ frameMallocMaxSize then
        (frameMalloc s w size chunks).map fun (s, mem) => { s with live := ⟨mem, size⟩ :: s.live }
      else none
  | .free w block =>
      if block ∈ s.live then
        (frameFree s w block.address block.request).map fun s => { s with live := s.live.erase block }
      else none
  | .cleanup w =>
      (perWorkerCleanup s w).map fun s => { s with cleaned := Function.update s.cleaned w true }
  | .store block address value =>
      if block ∈ s.live ∧ block.address ≤ address ∧ address < block.address + block.request then
        some { s with memory := { s.memory with cdr := Function.update s.memory.cdr address value } }
      else none

/-- The frame allocator under any sequence of calls. -/
def allocatorMachine (W : Type) [DecidableEq W] : Machine (FrameAllocator W) (FrameLabel W) where
  start s := s = FrameAllocator.initial W
  step := allocatorStep

end CilkL
