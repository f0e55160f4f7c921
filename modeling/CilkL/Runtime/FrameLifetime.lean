/-
Module: CilkL.Runtime.FrameLifetime
Layer: Runtime
Purpose: The full frames from `__cilkrts_make_full_frame` to `__cilkrts_destroy_full_frame`, with their pointers
  to reducer maps and pending exceptions: over the tree of full frames and the return from the initial frame,
  the destructions are steps of their own where the runtime releases the locks before them. The reductions at
  a sync and at a spawn return are one step; whether the worker has a reducer map and an exception there is a
  choice of the run.
Imports: CilkL.Runtime.ActiveWorkers
Trusted boundary: human-reviewed spec (translated from full_frame.c, scheduler.c and deque_pool.c)
Main exports: FrameSlots, FrameLifetime, LifetimeLabel, frameLifetimeStep, frameLifetimeMachine
Open obligations: none
-/
import CilkL.Runtime.ActiveWorkers

namespace CilkL

/-- The pointers of a full frame to reducer maps and exceptions: whether each of them is set. -/
structure FrameSlots where
  childrenReducerMap : Bool
  rightReducerMap : Bool
  pendingException : Bool
  childPendingException : Bool
  rightPendingException : Bool
deriving DecidableEq, Repr

/-- What `__cilkrts_make_full_frame` stores. -/
def FrameSlots.null : FrameSlots where
  childrenReducerMap := false
  rightReducerMap := false
  pendingException := false
  childPendingException := false
  rightPendingException := false

/-- The assertions about these pointers. -/
inductive SlotAssert where
  /-- `__cilkrts_destroy_full_frame`: all five are null. -/
  | destroyFullFrame
  /-- `finalize_child_for_call`: the maps of the child are null. -/
  | finalizeChild
  /-- `splice_exceptions_for_call`: `right_pending_exception` of the child and `pending_exception` of the
      parent are null. -/
  | spliceExceptions
  /-- `ff->pending_exception` is null before the worker's exception is moved there. -/
  | pendingException
deriving DecidableEq, Repr

/-- `splice_left_ptrs`: where a strand leaves its map and its exception. -/
inductive LeftPtrs where
  /-- `right_reducer_map` and `right_pending_exception` of a sibling or child. -/
  | right (ff : Nat)
  /-- `children_reducer_map` and `child_pending_exception`. -/
  | children (ff : Nat)
deriving DecidableEq, Repr

/-- The frames with their pointers, and who destroys them. -/
structure FrameLifetime where
  workers : ActiveWorkers
  slots : Nat → FrameSlots
  /-- The frames whose workers have left the tree of full frames in `do_return_from_spawn`, and are about to
      destroy them. -/
  leaving : List Nat
  /-- The frames that were destroyed, in order. -/
  destroyed : List Nat
  /-- The frames of the deques that `__cilkrts_resume_suspended(., 2)` destroyed. -/
  dropped : List Nat
  /-- `__cilkrts_c_return_from_initial` has destroyed its frame. -/
  returned : Bool
  failures : List SlotAssert

/-- The element before another one. -/
def siblingToLeft : List Nat → Nat → Option Nat
  | left :: ff :: siblings, child => if ff = child then some left else siblingToLeft (ff :: siblings) child
  | _, _ => none

namespace FrameLifetime

/-- Change the pointers of one frame. -/
def modifySlots (s : FrameLifetime) (f : Nat) (change : FrameSlots → FrameSlots) : FrameLifetime :=
  { s with slots := fun g => if g = f then change (s.slots f) else s.slots g }

/-- `CILK_ASSERT`. -/
def check (s : FrameLifetime) (holds : Bool) (assertion : SlotAssert) : FrameLifetime :=
  if holds then s else { s with failures := assertion :: s.failures }

/-- A map and an exception are merged into those on the left. -/
def deposit (s : FrameLifetime) (left : LeftPtrs) (map exception : Bool) : FrameLifetime :=
  match left with
  | .right c => s.modifySlots c fun slots =>
      { slots with
        rightReducerMap := slots.rightReducerMap || map
        rightPendingException := slots.rightPendingException || exception }
  | .children p => s.modifySlots p fun slots =>
      { slots with
        childrenReducerMap := slots.childrenReducerMap || map
        childPendingException := slots.childPendingException || exception }

/-- `compute_left_ptrs_for_sync`. -/
def leftPtrsForSync (s : FrameLifetime) (f : Nat) : LeftPtrs :=
  match (s.workers.tree.frame f).children.getLast? with
  | some c => .right c
  | none => .children f

/-- `compute_left_ptrs_for_spawn_return`. -/
def leftPtrsForSpawnReturn (s : FrameLifetime) (f parent : Nat) : LeftPtrs :=
  match siblingToLeft (s.workers.tree.frame parent).children f with
  | some c => .right c
  | none => .children parent

/-- `ff->pending_exception = w->l->pending_exception`. -/
def saveException (s : FrameLifetime) (f : Nat) (exception : Bool) : FrameLifetime :=
  (s.check (!(s.slots f).pendingException) .pendingException).modifySlots f fun slots =>
    { slots with pendingException := exception }

/-- `execute_reductions_for_sync`, after the worker's exception was moved into the frame. -/
def reductionsForSync (s : FrameLifetime) (f : Nat) (map : Bool) : FrameLifetime :=
  (s.deposit (s.leftPtrsForSync f) map (s.slots f).pendingException).modifySlots f fun slots =>
    { slots with pendingException := false }

/-- `execute_reductions_for_spawn_return`. A frame without a parent has its map and its exception dropped. -/
def reductionsForSpawnReturn (s : FrameLifetime) (f : Nat) (map : Bool) : FrameLifetime :=
  match (s.workers.tree.frame f).parent with
  | some parent =>
      let slots := s.slots f
      (s.deposit (s.leftPtrsForSpawnReturn f parent) (map || slots.rightReducerMap)
        (slots.pendingException || slots.rightPendingException)).modifySlots f fun slots =>
        { slots with rightReducerMap := false, pendingException := false, rightPendingException := false }
  | none => s.modifySlots f fun slots => { slots with pendingException := false }

/-- `provably_good_steal_exceptions`, for the last arrival at the sync. -/
def provablyGoodStealExceptions (s : FrameLifetime) (f : Nat) : FrameLifetime :=
  if (s.workers.tree.frame f).joinCounter - 1 = 0 then
    s.modifySlots f fun slots =>
      { slots with
        pendingException := slots.childPendingException || slots.pendingException
        childPendingException := false }
  else s

/-- `setup_for_execution`: the maps of the children of a synched frame go to the worker, and so does its
    exception. -/
def setupForExecution (s : FrameLifetime) (f : Nat) : FrameLifetime :=
  s.modifySlots f fun slots =>
    { slots with
      childrenReducerMap := slots.childrenReducerMap && (s.workers.tree.frame f).unsynched
      pendingException := false }

/-- `__cilkrts_destroy_full_frame`. -/
def destroyFullFrame (s : FrameLifetime) (f : Nat) : FrameLifetime :=
  { s.check (s.slots f = .null) .destroyFullFrame with destroyed := s.destroyed ++ [f] }

/-- `finalize_child_for_call`. -/
def finalizeChildForCall (s : FrameLifetime) (parent child : Nat) : FrameLifetime :=
  let slots := s.slots child
  let s := s.check (!slots.childrenReducerMap && !slots.rightReducerMap) .finalizeChild
  let s := s.check (!slots.rightPendingException && !(s.slots parent).pendingException) .spliceExceptions
  let s := s.modifySlots parent fun slots' => { slots' with pendingException := slots.pendingException }
  (s.modifySlots child fun slots => { slots with pendingException := false }).destroyFullFrame child

/-- What a step of the workers does to the pointers, and to the frames. -/
def along (s : FrameLifetime) : ActiveLabel → FrameLifetime
  | .tree (.resume f) => s.setupForExecution f
  | .tree (.doSync f) => s.provablyGoodStealExceptions f
  | .tree (.decjoinSelf f) =>
      match (s.workers.tree.frame f).parent with
      | some _ => s
      | none => { s with leaving := f :: s.leaving }
  | .tree (.decjoinParent f) =>
      match (s.workers.tree.frame f).parent with
      | some parent => { s.provablyGoodStealExceptions parent with leaving := f :: s.leaving }
      | none => s
  | .tree (.finalizeCall f) =>
      match (s.workers.tree.frame f).parent with
      | some parent => s.finalizeChildForCall parent f
      | none => s
  | .handOff f _ => { s with dropped := f :: s.dropped }
  | .resumeInitial => s.setupForExecution 0
  | _ => s

/-- A step of the workers. -/
def moveWorkers (s : FrameLifetime) (label : ActiveLabel) : Option FrameLifetime :=
  match activeWorkersStep s.workers label with
  | some workers => some { s.along label with workers := workers }
  | none => none

/-- The full frames that are allocated. -/
def liveFrames (s : FrameLifetime) : Finset Nat :=
  (Finset.range s.workers.tree.frames).filter (· ∉ s.destroyed)

/-- A worker is in `do_return_from_spawn` with the frame, or about to run it. -/
def InDoReturnFromSpawn (s : FrameLifetime) (f : Nat) : Prop :=
  (s.workers.tree.frame f).strand = .unlinked ∨ (s.workers.tree.frame f).strand = .leaving ∨ f ∈ s.leaving

end FrameLifetime

/-- The steps. -/
inductive LifetimeLabel where
  /-- A step of the workers that is none of those below. -/
  | workers (label : ActiveLabel)
  /-- `__cilkrts_c_sync`, by a worker with a reducer map and an exception, or without. -/
  | sync (f : Nat) (map exception : Bool)
  /-- A spawned function returns to a stolen parent, normally or with an exception. -/
  | spawnReturn (f : Nat) (map exception : Bool)
  /-- `__cilkrts_return`. -/
  | callReturn (f : Nat) (exception : Bool)
  /-- The end of `do_return_from_spawn`. -/
  | destroy (f : Nat)
  /-- The end of `__cilkrts_c_return_from_initial`. -/
  | destroyInitial
deriving DecidableEq, Repr

/-- One step. A failed assertion ends the program. -/
def frameLifetimeStep (s : FrameLifetime) (label : LifetimeLabel) : Option FrameLifetime :=
  if s.failures ≠ [] ∨ s.workers.failures ≠ [] then none
  else match label with
  | .workers label =>
      match label with
      | .tree (.sync _) | .tree (.spawnReturn _) | .tree (.callReturn _) => none
      | label => s.moveWorkers label
  | .sync f map exception =>
    ((s.saveException f exception).reductionsForSync f map).moveWorkers (.tree (.sync f))
  | .spawnReturn f map exception =>
      ((s.saveException f exception).reductionsForSpawnReturn f map).moveWorkers (.tree (.spawnReturn f))
  | .callReturn f exception => (s.saveException f exception).moveWorkers (.tree (.callReturn f))
  | .destroy f =>
      if f ∈ s.leaving then some { s.destroyFullFrame f with leaving := s.leaving.erase f } else none
  | .destroyInitial =>
      match s.workers.exit with
      | .returned _ => if s.returned then none else some { s.destroyFullFrame 0 with returned := true }
      | _ => none

/-- The outermost frame, which `__cilkrts_bind_thread` made. -/
def FrameLifetime.initial : FrameLifetime where
  workers := .initial
  slots := fun _ => .null
  leaving := []
  destroyed := []
  dropped := []
  returned := false
  failures := []

def frameLifetimeMachine : Machine FrameLifetime LifetimeLabel where
  start s := s = .initial
  step := frameLifetimeStep

end CilkL
