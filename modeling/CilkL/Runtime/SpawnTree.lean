/-
Module: CilkL.Runtime.SpawnTree
Layer: Runtime
Purpose: The tree of full frames with join counters, sibling links and fibers, through every steal, spawn
  return, call return and sync. A full frame belongs to a deque (`frame_ff`) or to a worker's
  `next_frame_ff`, or is suspended; what its strand does is a choice of the run, so the machine has the
  executions of every program with spawns, future spawns, calls and syncs.
Imports: CilkL.Library.Machine
Trusted boundary: human-reviewed spec (translated from scheduler.c and deque.c)
Main exports: TreeFrame, SpawnTree, detachForSteal, provablyGoodSteal, spawnTreeStep, spawnTreeMachine
Open obligations: none
-/
import CilkL.Library.Machine
import Mathlib.Data.Finset.Card
import Mathlib.Data.Finset.Filter
import Mathlib.Data.Finset.Range

namespace CilkL

/-- How a function below the running one invoked the function above it. -/
inductive SpawnLink where
  | called
  /-- By a spawn: its continuation is in the deque. -/
  | spawned
  /-- By a future spawn: its continuation is in the deque with `CILK_FRAME_FUTURE_PARENT` set. -/
  | future
deriving DecidableEq, Repr

/-- Who has a full frame, and what its strand does. -/
inductive FrameStrand where
  /-- A thief is at work on it inside `detach_for_steal`. -/
  | held
  /-- `frame_ff` of a deque; the functions below the running one, youngest first. -/
  | running (callers : List SpawnLink)
  /-- `next_frame_ff` of a worker. -/
  | next
  /-- Suspended until the full frame it called returns. -/
  | waiting
  /-- Its reductions at a sync are done; passed to `do_sync`. -/
  | syncing
  /-- Suspended at a sync. -/
  | stalled
  /-- It unlinked itself at the end of a spawn; passed to `do_return_from_spawn`. -/
  | unlinked
  /-- `do_return_from_spawn` decremented its own counter and is about to lock its parent. -/
  | leaving
  /-- `__cilkrts_return` disowned it and is about to lock its parent. -/
  | disowned
  /-- Not made yet, or destroyed. -/
  | dead
deriving DecidableEq, Repr

/-- The fields of `full_frame`, `CILK_FRAME_UNSYNCHED` of its call stack, and what the run records. -/
structure TreeFrame where
  parent : Option Nat
  isCallChild : Bool
  joinCounter : Nat
  unsynched : Bool
  /-- The sibling list, leftmost first. -/
  children : List Nat
  fiberSelf : Option Nat
  fiberChild : Option Nat
  strand : FrameStrand
  /-- The fiber the frame had when it was made. -/
  home : Option Nat
  /-- The first stolen spawned child of the current sync region. -/
  firstSpawn : Option Nat
  /-- The fiber the frame was running on before that steal. -/
  regionFiber : Option Nat
  /-- How often the frame arrived at a non-trivial sync. -/
  syncs : Nat
  /-- How often the last arrival at a sync pushed the frame. -/
  crossings : Nat
deriving DecidableEq, Repr

/-- A frame that does not exist. -/
def TreeFrame.absent : TreeFrame :=
  { parent := none, isCallChild := false, joinCounter := 0, unsynched := false, children := []
    fiberSelf := none, fiberChild := none, strand := .dead, home := none, firstSpawn := none
    regionFiber := none, syncs := 0, crossings := 0 }

/-- The assertions of the modelled functions. -/
inductive TreeAssert where
  /-- `decjoin`: `ff->join_counter > 0`. -/
  | joinCounter
  /-- `provably_good_steal_stacks`: `NULL == ff->fiber_self`. -/
  | fiberSelf
  /-- `provably_good_steal_stacks`: `ff->fiber_child`. -/
  | fiberChild
  /-- `finish_spawn_return_on_user_stack`: `parent_ff->fiber_child != child_ff->fiber_self`. -/
  | fiberToFree
  /-- `__cilkrts_return`: `ff->join_counter == 1`. -/
  | returnCounter
  /-- `splice_stacks_for_call`: `!child_ff->fiber_child` and `!parent_ff->fiber_self`. -/
  | spliceStacks
deriving DecidableEq, Repr

/-- All full frames, the fibers in use and the assertions that failed. -/
structure SpawnTree where
  frame : Nat → TreeFrame
  /-- The frames made so far are those below this number. -/
  frames : Nat
  /-- The fibers given to frames so far are those below this number. -/
  fibers : Nat
  /-- The fibers handed to `fiber_to_free`, in order. -/
  freed : List Nat
  failures : List TreeAssert

namespace SpawnTree

/-- Change one frame. -/
def modify (s : SpawnTree) (f : Nat) (change : TreeFrame → TreeFrame) : SpawnTree :=
  { s with frame := fun g => if g = f then change (s.frame f) else s.frame g }

/-- `CILK_ASSERT`. -/
def check (s : SpawnTree) (holds : Bool) (assertion : TreeAssert) : SpawnTree :=
  if holds then s else { s with failures := assertion :: s.failures }

/-- `incjoin`. -/
def incjoin (s : SpawnTree) (f : Nat) : SpawnTree :=
  s.modify f fun ff => { ff with joinCounter := ff.joinCounter + 1 }

/-- `decjoin`. -/
def decjoin (s : SpawnTree) (f : Nat) : SpawnTree :=
  (s.check (0 < (s.frame f).joinCounter) .joinCounter).modify f fun ff =>
    { ff with joinCounter := ff.joinCounter - 1 }

/-- `__cilkrts_push_next_frame`. -/
def pushNextFrame (s : SpawnTree) (f : Nat) : SpawnTree :=
  (s.incjoin f).modify f fun ff => { ff with strand := .next }

/-- The record a full frame starts with. -/
def madeFrame (parent : Option Nat) (isCallChild : Bool) (fiber : Option Nat) : TreeFrame :=
  { TreeFrame.absent with
    parent := parent, isCallChild := isCallChild, strand := .held, fiberSelf := fiber, home := fiber }

/-- `make_child` without a fiber: a call child takes the parent's fiber. The new frame has the number
    `frames`. -/
def makeCallChild (s : SpawnTree) (parent : Nat) : SpawnTree :=
  let child := s.frames
  let s := { s with frames := s.frames + 1 }
  let s := s.modify child fun _ => madeFrame (some parent) true (s.frame parent).fiberSelf
  let s := s.modify parent fun ff =>
    { ff with children := ff.children ++ [child], fiberSelf := none, strand := .waiting }
  s.incjoin parent

/-- `make_child` with the thief's fiber: the child takes the parent's fiber, the parent the thief's. -/
def makeSpawnChild (s : SpawnTree) (parent : Nat) : SpawnTree :=
  let child := s.frames
  let fiber := s.fibers
  let s := { s with frames := s.frames + 1, fibers := s.fibers + 1 }
  let s := s.modify child fun _ => madeFrame (some parent) false (s.frame parent).fiberSelf
  let s := s.modify parent fun ff =>
    { ff with
      children := ff.children ++ [child]
      fiberSelf := some fiber
      firstSpawn := if ff.firstSpawn.isNone then some child else ff.firstSpawn
      regionFiber := if ff.firstSpawn.isNone then ff.fiberSelf else ff.regionFiber }
  s.incjoin parent

/-- `make_child` under a `CILK_FRAME_FUTURE_PARENT` frame: the new frame is not linked, and gets the
    fiber the future runs on. -/
def makeFutureChild (s : SpawnTree) : SpawnTree :=
  let child := s.frames
  let fiber := s.fibers
  let s := { s with frames := s.frames + 1, fibers := s.fibers + 1 }
  s.modify child fun _ => madeFrame none false (some fiber)

/-- `unroll_call_stack`: the functions above the frame's own one, which were called, become full frames.
    Returns the youngest frame, the loot. -/
def unrollCallStack (s : SpawnTree) (f : Nat) : Nat → SpawnTree × Nat
  | 0 => (s, f)
  | older + 1 => (s.makeCallChild f).unrollCallStack s.frames older

/-- The continuation at the head of a deque: the functions above it, whether it is a future parent, and
    how many functions it was called through. -/
def stealHead : List SpawnLink → Option (List SpawnLink × Bool × Nat)
  | [] => none
  | link :: callers =>
      match stealHead callers with
      | some (younger, future, older) => some (link :: younger, future, older)
      | none =>
          match link with
          | .called => none
          | .spawned => some ([], false, callers.length)
          | .future => some ([], true, callers.length)

/-- The end of `detach_for_steal`: the thief takes the loot, and the child that has the number `frames`
    replaces it in the deque. -/
def adoptChild (s : SpawnTree) (loot : Nat) (future : Bool) (younger : List SpawnLink) : SpawnTree :=
  let s := if future then s else s.modify loot fun ff => { ff with unsynched := true }
  let s := s.pushNextFrame loot
  let child := s.frames
  let s := if future then s.makeFutureChild else s.makeSpawnChild loot
  (s.incjoin child).modify child fun ff => { ff with strand := .running younger }

/-- `detach_for_steal` on a deque whose `frame_ff` is `f`. -/
def detachForSteal (s : SpawnTree) (f : Nat) (younger : List SpawnLink) (future : Bool)
    (older : Nat) : SpawnTree :=
  let s := (s.decjoin f).modify f fun ff => { ff with strand := .held }
  let unrolled := s.unrollCallStack f older
  unrolled.1.adoptChild unrolled.2 future younger

/-- `provably_good_steal_stacks`. -/
def provablyGoodStealStacks (s : SpawnTree) (f : Nat) : SpawnTree :=
  ((s.check (s.frame f).fiberSelf.isNone .fiberSelf).check (s.frame f).fiberChild.isSome
    .fiberChild).modify f fun ff => { ff with fiberSelf := ff.fiberChild, fiberChild := none }

/-- `__cilkrts_mark_synched`, which ends the sync region. -/
def markSynched (s : SpawnTree) (f : Nat) : SpawnTree :=
  s.modify f fun ff =>
    { ff with unsynched := false, firstSpawn := none, crossings := ff.crossings + 1 }

/-- `provably_good_steal`. -/
def provablyGoodSteal (s : SpawnTree) (f : Nat) : SpawnTree :=
  let s := s.decjoin f
  if (s.frame f).joinCounter = 0 then
    ((s.provablyGoodStealStacks f).markSynched f).pushNextFrame f
  else s

/-- `unconditional_steal`. -/
def unconditionalSteal (s : SpawnTree) (f : Nat) : SpawnTree := (s.decjoin f).pushNextFrame f

/-- Hand a fiber to `fiber_to_free`. -/
def fiberToFree (s : SpawnTree) (f : Nat) : SpawnTree :=
  { s with freed := s.freed ++ (s.frame f).fiberSelf.toList }.modify f fun ff =>
    { ff with fiberSelf := none }

/-- `finish_spawn_return_on_user_stack`. -/
def finishSpawnReturn (s : SpawnTree) (child : Nat) : SpawnTree :=
  match (s.frame child).parent with
  | none => s.fiberToFree child
  | some parent =>
      let leftmost := (s.frame parent).children.head? = some child
      let s :=
        if ¬ leftmost ∨ (s.frame parent).fiberChild.isSome then
          (s.check ((s.frame parent).fiberChild ≠ (s.frame child).fiberSelf)
            .fiberToFree).fiberToFree child
        else
          (s.modify parent fun ff => { ff with fiberChild := (s.frame child).fiberSelf }).modify child
            fun ff => { ff with fiberSelf := none }
      s.modify parent fun ff => { ff with children := ff.children.erase child }

/-- The part of `finalize_child_for_call` about stacks and links: `splice_stacks_for_call` and
    `unlink_child`. -/
def spliceCallChild (s : SpawnTree) (parent child : Nat) : SpawnTree :=
  let fiber := (s.frame child).fiberSelf
  let s := s.check ((s.frame child).fiberChild.isNone ∧ (s.frame parent).fiberSelf.isNone) .spliceStacks
  let s := s.modify parent fun ff =>
    { ff with fiberSelf := fiber, children := ff.children.erase child }
  s.modify child fun ff => { ff with fiberSelf := none }

/-- `__cilkrts_destroy_full_frame`. -/
def destroyFullFrame (s : SpawnTree) (f : Nat) : SpawnTree :=
  s.modify f fun ff => { ff with strand := .dead }

end SpawnTree

/-- The steps: of a strand that runs user code, and the critical sections of the runtime. -/
inductive TreeLabel where
  /-- The running function of the deque calls, spawns or future-spawns another. -/
  | invoke (f : Nat) (link : SpawnLink)
  /-- The running function returns to one that was not stolen. -/
  | leave (f : Nat)
  /-- A thief takes the head of the deque. -/
  | steal (f : Nat)
  /-- The worker pops its next frame and resumes it. -/
  | resume (f : Nat)
  /-- `__cilkrts_c_sync` up to `do_sync`. -/
  | sync (f : Nat)
  | doSync (f : Nat)
  /-- A spawned function returns to a stolen parent: up to `do_return_from_spawn`. -/
  | spawnReturn (f : Nat)
  /-- `do_return_from_spawn` on the frame itself, then on its parent. -/
  | decjoinSelf (f : Nat)
  | decjoinParent (f : Nat)
  /-- `__cilkrts_return` on the frame itself, then on its parent. -/
  | callReturn (f : Nat)
  | finalizeCall (f : Nat)
deriving DecidableEq, Repr

/-- One step. A function returns, and its frame with it, only when it has synched. The frame number 0 is
    the outermost one, whose return is not modelled. -/
def spawnTreeStep (s : SpawnTree) : TreeLabel → Option SpawnTree
  | .invoke f link =>
      match (s.frame f).strand with
      | .running callers => some (s.modify f fun ff => { ff with strand := .running (link :: callers) })
      | _ => none
  | .leave f =>
      match (s.frame f).strand with
      | .running (_ :: callers) => some (s.modify f fun ff => { ff with strand := .running callers })
      | _ => none
  | .steal f =>
      match (s.frame f).strand with
      | .running callers =>
          match SpawnTree.stealHead callers with
          | some (younger, future, older) => some (s.detachForSteal f younger future older)
          | none => none
      | _ => none
  | .resume f =>
      match (s.frame f).strand with
      | .next => some (s.modify f fun ff => { ff with strand := .running [] })
      | _ => none
  | .sync f =>
      if (s.frame f).strand = .running [] ∧ (s.frame f).unsynched = true then
        some ((s.fiberToFree f).modify f fun ff => { ff with strand := .syncing })
      else none
  | .doSync f =>
      if (s.frame f).strand = .syncing then
        some ((s.modify f fun ff =>
          { ff with strand := .stalled, syncs := ff.syncs + 1 }).provablyGoodSteal f)
      else none
  | .spawnReturn f =>
      if (s.frame f).strand = .running [] ∧ (s.frame f).unsynched = false ∧
          (s.frame f).isCallChild = false ∧ f ≠ 0 then
        some ((s.finishSpawnReturn f).modify f fun ff => { ff with strand := .unlinked })
      else none
  | .decjoinSelf f =>
      if (s.frame f).strand = .unlinked then
        let s := s.decjoin f
        some (s.modify f fun ff =>
          { ff with strand := if ff.parent.isSome then .leaving else .dead })
      else none
  | .decjoinParent f =>
      match (s.frame f).strand, (s.frame f).parent with
      | .leaving, some parent => some ((s.destroyFullFrame f).provablyGoodSteal parent)
      | _, _ => none
  | .callReturn f =>
      if (s.frame f).strand = .running [] ∧ (s.frame f).unsynched = false ∧
          (s.frame f).isCallChild = true then
        some (((s.check ((s.frame f).joinCounter = 1) .returnCounter).decjoin f).modify f fun ff =>
          { ff with strand := .disowned })
      else none
  | .finalizeCall f =>
      match (s.frame f).strand, (s.frame f).parent with
      | .disowned, some parent =>
          some (((s.spliceCallChild parent f).destroyFullFrame f).unconditionalSteal parent)
      | _, _ => none

/-- The outermost frame, which its worker runs on fiber 0. -/
def SpawnTree.initial : SpawnTree :=
  { frame := fun f =>
      if f = 0 then
        { TreeFrame.absent with
          joinCounter := 1, strand := .running [], fiberSelf := some 0, home := some 0 }
      else .absent
    frames := 1, fibers := 1, freed := [], failures := [] }

def spawnTreeMachine : Machine SpawnTree TreeLabel where
  start s := s = .initial
  step := spawnTreeStep

/-! ### Counting -/

/-- The frame is `frame_ff` of a deque or `next_frame_ff` of a worker; a frame passed to `do_sync` or
    `do_return_from_spawn` counts until that function's decrement. -/
def FrameStrand.Owned : FrameStrand → Prop
  | .running _ | .next | .syncing | .unlinked => True
  | .held | .waiting | .stalled | .leaving | .disowned | .dead => False

instance : (strand : FrameStrand) → Decidable strand.Owned
  | .running _ | .next | .syncing | .unlinked => isTrue trivial
  | .held | .waiting | .stalled | .leaving | .disowned | .dead => isFalse not_false

/-- The children that have not decremented the frame's join counter yet. -/
def SpawnTree.pendingChildren (s : SpawnTree) (f : Nat) : Finset Nat :=
  (Finset.range s.frames).filter fun c =>
    (s.frame c).parent = some f ∧ (s.frame c).strand ≠ .dead

end CilkL
