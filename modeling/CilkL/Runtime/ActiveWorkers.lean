/-
Module: CilkL.Runtime.ActiveWorkers
Layer: Runtime
Purpose: Termination detection by `active_workers` over the tree of full frames: what a steal, a spawn
  return, a future hand-off and the return from the initial frame do to the counter, and who pushes the
  exit frame. The deque of a running frame may be suspended on a future and is resumed by any worker.
Imports: CilkL.Runtime.SpawnTree
Trusted boundary: human-reviewed spec (translated from scheduler.c, deque_pool.c and global_state.cpp)
Main exports: DequeState, ExitPhase, ActiveWorkers, activeWorkersStep, activeWorkersMachine, liveStrands
Open obligations: none
-/
import CilkL.Runtime.SpawnTree

namespace CilkL

/-- What the deque of a frame is doing. A frame without a deque counts as `active`. -/
inductive DequeState where
  /-- `active_deque` of a worker. -/
  | active
  /-- Suspended on a future. -/
  | suspended
  /-- Suspended, and in a pool of resumable deques. -/
  | resumable
  /-- Resumed by a hand-off whose worker has not decremented `active_workers` yet. -/
  | handed
  /-- The initial frame's, inside `__cilkrts_c_return_from_initial`. -/
  | exiting
  /-- Its strand was taken off `active_workers`. -/
  | gone
deriving DecidableEq, Repr

/-- How far the return from the initial frame is. -/
inductive ExitPhase where
  | before
  /-- It found itself on worker 0 and nothing else active. -/
  | fast
  /-- It is switching to the scheduling stack. -/
  | suspending
  /-- `do_suspend_return_from_initial` set `exit_frame`. -/
  | exposed
  /-- `do_suspend_return_from_initial` decremented `active_workers`. -/
  | suspended
  /-- It went on, after a suspension or without one. -/
  | returned (suspended : Bool)
deriving DecidableEq, Repr

/-- The assertions of the modelled functions. -/
inductive ActiveAssert where
  /-- `__cilkrts_c_THE_exception_check` and `__cilkrts_exception_from_spawn`: `w->g->exit_frame`. -/
  | exitFrame
  /-- `__cilkrts_c_return_from_initial`: `w->g->active_workers == 0`. -/
  | activeWorkers
  /-- `deque_destroy`: `d->head == d->tail`. -/
  | dequeDestroy
deriving DecidableEq, Repr

/-- The tree of full frames with the fields of `global_state_t` for the detection of termination. -/
structure ActiveWorkers where
  tree : SpawnTree
  /-- The deque of each running frame. -/
  deque : Nat → DequeState
  activeWorkers : Int
  /-- The frames with a thief that incremented `active_workers` and has not detached yet. -/
  thieves : List Nat
  /-- The frames whose worker decremented `active_workers` to 0 and has not pushed the exit frame yet. -/
  pushers : List Nat
  exitFrame : Option Nat
  /-- `sync_master` of the exit frame. -/
  syncMaster : Option Nat
  exit : ExitPhase
  /-- The workers the exit frame was pushed to. -/
  pushes : List Nat
  failures : List ActiveAssert

namespace ActiveWorkers

def setDeque (s : ActiveWorkers) (f : Nat) (deque : DequeState) : ActiveWorkers :=
  { s with deque := fun g => if g = f then deque else s.deque g }

def check (s : ActiveWorkers) (holds : Bool) (assertion : ActiveAssert) : ActiveWorkers :=
  if holds then s else { s with failures := assertion :: s.failures }

/-- `cilkg_increment_active_workers`. -/
def increment (s : ActiveWorkers) : ActiveWorkers := { s with activeWorkers := s.activeWorkers + 1 }

/-- `cilkg_decrement_active_workers`. -/
def decrement (s : ActiveWorkers) : ActiveWorkers := { s with activeWorkers := s.activeWorkers - 1 }

/-- Take the strand of a frame off `active_workers`; the worker that reaches 0 pushes the exit frame. -/
def terminate (s : ActiveWorkers) (f : Nat) : ActiveWorkers :=
  let s := (s.setDeque f .gone).decrement
  if s.activeWorkers = 0 then { s with pushers := f :: s.pushers } else s

/-- `__cilkrts_push_next_frame(exit_frame->sync_master, exit_frame)`. -/
def pushExitFrame (s : ActiveWorkers) (f : Nat) : ActiveWorkers :=
  let s := s.check s.exitFrame.isSome .exitFrame
  { s with pushers := s.pushers.erase f, pushes := s.pushes ++ s.syncMaster.toList }

/-- A returning function does not pop the continuation that a thief has already taken from the head of
    its deque. -/
def KeepsHead (s : ActiveWorkers) (f : Nat) : Prop :=
  match (s.tree.frame f).strand with
  | .running (_ :: callers) => f ∈ s.thieves → (SpawnTree.stealHead callers).isSome
  | _ => True

instance (s : ActiveWorkers) (f : Nat) : Decidable (s.KeepsHead f) := by
  unfold KeepsHead
  split <;> infer_instance

/-- When a step of the tree can be taken: a strand runs on an active deque, a thief has incremented
    `active_workers`, and a strand that returned has decremented it. -/
def Ready (s : ActiveWorkers) : TreeLabel → Prop
  | .invoke f _ | .sync f | .spawnReturn f | .callReturn f => s.deque f = .active
  | .leave f => s.deque f = .active ∧ s.KeepsHead f
  | .steal f => f ∈ s.thieves
  | .decjoinSelf f => s.deque f = .gone ∧ f ∉ s.pushers
  | .resume _ | .doSync _ | .decjoinParent _ | .finalizeCall _ => True

instance (s : ActiveWorkers) (label : TreeLabel) : Decidable (s.Ready label) := by
  cases label <;> unfold Ready <;> infer_instance

/-- The tree after a step. A stolen deque stays where it is, with the new child as its `frame_ff`. -/
def afterTree (s : ActiveWorkers) (label : TreeLabel) (tree : SpawnTree) : ActiveWorkers :=
  match label with
  | .steal f =>
      (({ s with tree := tree, thieves := s.thieves.erase f }.setDeque f .active).setDeque
        (tree.frames - 1) (s.deque f))
  | _ => { s with tree := tree }

/-- The function that returns a deque to resume is that of a future whose continuation was stolen, so
    that nothing is left in its deque. -/
def StolenFuture (s : ActiveWorkers) (f : Nat) : Prop :=
  (s.tree.frame f).parent = none ∧ (s.tree.frame f).isCallChild = false ∧
    (s.tree.frame f).unsynched = false ∧ f ≠ 0

instance (s : ActiveWorkers) (f : Nat) : Decidable (s.StolenFuture f) :=
  inferInstanceAs (Decidable (_ ∧ _))

end ActiveWorkers

/-- The steps of the strands, of the thieves and of the workers that detect the termination. -/
inductive ActiveLabel where
  | tree (label : TreeLabel)
  /-- A thief that passed `dekker_protocol` increments `active_workers`. -/
  | increment (f : Nat)
  /-- `deque_suspend` on the deque of `f`. -/
  | suspend (f : Nat)
  /-- `__cilkrts_make_resumable`. -/
  | makeResumable (f : Nat)
  /-- A worker goes on with a resumable deque. -/
  | jump (f : Nat)
  /-- `__cilkrts_resume_suspended` with `enable_resume` other than 2. -/
  | resumeSuspended (f : Nat)
  /-- `__cilkrts_resume_suspended(., 2)` up to `deque_destroy`, then its decrement. -/
  | handOff (f g : Nat)
  | handOffDecrement (g : Nat)
  /-- The decrement of a strand that returned to a stolen parent, and the push that follows. -/
  | decrement (f : Nat)
  | push (f : Nat)
  /-- `__cilkrts_c_return_from_initial` on a worker, up to its test. -/
  | returnFromInitial (worker : Nat)
  | fastDecrement
  /-- `do_suspend_return_from_initial`, before its decrement and after it. -/
  | suspendReturn
  | decrementInitial
  /-- The worker that got the exit frame goes on with it. -/
  | resumeInitial
deriving DecidableEq, Repr

/-- One step. A failed assertion ends the program. -/
def activeWorkersStep (s : ActiveWorkers) (label : ActiveLabel) : Option ActiveWorkers :=
  if s.failures ≠ [] then none
  else match label with
  | .tree label =>
      if s.Ready label then (spawnTreeStep s.tree label).map (s.afterTree label) else none
  | .increment f =>
      match (s.tree.frame f).strand with
      | .running callers =>
          if (SpawnTree.stealHead callers).isSome ∧ f ∉ s.thieves then
            some { s.increment with thieves := f :: s.thieves }
          else none
      | _ => none
  | .suspend f =>
      match (s.tree.frame f).strand with
      | .running _ => if s.deque f = .active then some (s.setDeque f .suspended) else none
      | _ => none
  | .makeResumable f => if s.deque f = .suspended then some (s.setDeque f .resumable) else none
  | .jump f => if s.deque f = .resumable then some (s.setDeque f .active) else none
  | .resumeSuspended f => if s.deque f = .suspended then some (s.setDeque f .active) else none
  | .handOff f g =>
      if s.deque f = .active ∧ s.deque g = .suspended then
        match (s.tree.frame f).strand with
        | .running [] =>
            if s.StolenFuture f then some ((s.setDeque f .gone).setDeque g .handed) else none
        | .running (.future :: _) => some (s.check false .dequeDestroy)
        | _ => none
      else none
  | .handOffDecrement g =>
      if s.deque g = .handed then some (s.setDeque g .active).decrement else none
  | .decrement f =>
      if (s.tree.frame f).strand = .unlinked ∧ s.deque f = .active then some (s.terminate f) else none
  | .push f => if f ∈ s.pushers then some (s.pushExitFrame f) else none
  | .returnFromInitial worker =>
      if (s.tree.frame 0).strand = .running [] ∧ (s.tree.frame 0).unsynched = false ∧
          s.deque 0 = .active ∧ s.exit = .before then
        some { s.setDeque 0 .exiting with
          exit := if worker ≠ 0 ∨ 1 < s.activeWorkers then .suspending else .fast }
      else none
  | .fastDecrement =>
      if s.exit = .fast then
        let s := (s.setDeque 0 .gone).decrement
        some { s.check (s.activeWorkers = 0) .activeWorkers with
          exitFrame := none, exit := .returned false }
      else none
  | .suspendReturn =>
      if s.exit = .suspending then
        some { s with exitFrame := some 0, syncMaster := some 0, exit := .exposed }
      else none
  | .decrementInitial =>
      if s.exit = .exposed then some { s.terminate 0 with exit := .suspended } else none
  | .resumeInitial =>
      if s.exit = .suspended ∧ s.pushes ≠ [] then
        some { s.check (s.activeWorkers = 0) .activeWorkers with
          exitFrame := none, exit := .returned true }
      else none

/-- The outermost frame runs, and counts. -/
def ActiveWorkers.initial : ActiveWorkers :=
  { tree := .initial, deque := fun _ => .active, activeWorkers := 1, thieves := [], pushers := []
    exitFrame := none, syncMaster := none, exit := .before, pushes := [], failures := [] }

def activeWorkersMachine : Machine ActiveWorkers ActiveLabel where
  start s := s = .initial
  step := activeWorkersStep

/-! ### Strands that have not terminated -/

/-- A frame with a strand. The strand of a frame that waits for a called one is in the called one. -/
def FrameStrand.Live : FrameStrand → Prop
  | .held | .running _ | .next | .syncing | .stalled | .unlinked | .disowned => True
  | .waiting | .leaving | .dead => False

instance : (strand : FrameStrand) → Decidable strand.Live
  | .held | .running _ | .next | .syncing | .stalled | .unlinked | .disowned => isTrue trivial
  | .waiting | .leaving | .dead => isFalse not_false

/-- The strands that have not terminated: a frame stalled at a sync and a suspended deque count as one. -/
def ActiveWorkers.liveStrands (s : ActiveWorkers) : Finset Nat :=
  (Finset.range s.tree.frames).filter fun f => (s.tree.frame f).strand.Live ∧ s.deque f ≠ .gone

/-- The deques resumed by a hand-off that has not decremented yet. -/
def ActiveWorkers.handedDeques (s : ActiveWorkers) : Finset Nat :=
  (Finset.range s.tree.frames).filter fun f => s.deque f = .handed

end CilkL
