/-
Module: CilkL.Runtime.LoopPedigree
Layer: Runtime
Purpose: The pedigrees of a `cilk_for`. Each call of `cilk_for_recursive` splits its range, and the upper
  half may be stolen before the lower half returns, may stall at its sync, and goes on where the runtime
  says; the loop body splices in a chain of its own, and the code that the user wrote in it may do to its
  worker's pedigree what it likes and move to other workers, as long as it comes back under the node of
  the loop body before `__cilkrts_bump_loop_rank`. The nodes are named by the frame they live in: the
  root's in `cilk_for_root`, a leaf in a call of the loop body, the others in the spawn helpers.
Imports: CilkL.Library.Machine, Mathlib.Logic.Function.Basic
Trusted boundary: human-reviewed spec (translated from cilk-abi-cilk-for.cpp, cilk-abi.c, pedigrees.h and
  scheduler.c)
Main exports: PedigreeAddr, PedigreeNode, LoopPlace, LoopCall, LoopState, loopStep, loopMachine
Open obligations: none
-/
import CilkL.Library.Machine
import Mathlib.Logic.Function.Basic

namespace CilkL

/-- Where a pedigree node lives. -/
inductive PedigreeAddr where
  /-- `loop_root_pedigree` of `cilk_for_root`. -/
  | root
  /-- `loop_leaf_pedigree` of the loop body that a call ends with. -/
  | leaf (call : Nat)
  /-- `spawn_helper_pedigree` of the helper that spawned a call. -/
  | helper (call : Nat)
  /-- `spawn_helper_pedigree` of the helper of the initial `noop`. -/
  | noop
  /-- A frame outside the loop, or one of the user's in the loop body. -/
  | other (node : Nat)
  deriving DecidableEq, Repr

/-- `__cilkrts_pedigree`. -/
structure PedigreeNode where
  rank : UInt64
  parent : Option PedigreeAddr
  deriving DecidableEq, Repr

/-- Where a call of `cilk_for_recursive` is, on workers `W`. -/
inductive LoopPlace (W : Type) where
  /-- At `tail_recurse`. -/
  | running (w : W)
  /-- In the deque, behind the call that it spawned last. -/
  | detached (child : Nat)
  /-- At the start of an iteration of the loop body. -/
  | iteration (i : Nat) (w : W)
  /-- In the user's code of an iteration; on no worker while it is suspended. -/
  | userCode (i : Nat) (on : Option W)
  /-- Past the loop body, at the implicit sync. -/
  | syncing (w : W)
  /-- Stalled at the sync. -/
  | stalled
  /-- Past the sync. -/
  | synched (w : W)
  | finished
  deriving DecidableEq, Repr

/-- The worker the call is on. -/
@[simp, grind]
def LoopPlace.on {W : Type} : LoopPlace W → Option W
  | .running w => some w
  | .detached _ => none
  | .iteration _ w => some w
  | .userCode _ on => on
  | .syncing w => some w
  | .stalled => none
  | .synched w => some w
  | .finished => none

/-- The worker that is doing the user's code of an iteration. -/
@[simp, grind]
def LoopPlace.user {W : Type} : LoopPlace W → Option W
  | .running _ => none
  | .detached _ => none
  | .iteration _ _ => none
  | .userCode _ on => on
  | .syncing _ => none
  | .stalled => none
  | .synched _ => none
  | .finished => none

/-- A call of `cilk_for_recursive`. -/
structure LoopCall (W : Type) where
  low : Nat
  high : Nat
  place : LoopPlace W
  /-- The call that spawned it; the first call has none. -/
  spawner : Option Nat
  /-- The calls it spawned that have not returned. -/
  children : Nat
  /-- `parent_pedigree` of its stack frame. -/
  parent_pedigree : PedigreeNode
  /-- `saved_next_pedigree_node`. -/
  saved : Option PedigreeAddr
  deriving DecidableEq, Repr

/-- Where `cilk_for_root` is. -/
inductive LoopRoot (W : Type) where
  /-- About to spawn `noop`. -/
  | entered (w : W)
  /-- In the first call of `cilk_for_recursive`. -/
  | looping
  /-- About to return. -/
  | ended (w : W)
  deriving DecidableEq, Repr

/-- The worker `cilk_for_root` itself is on. -/
@[simp, grind]
def LoopRoot.on {W : Type} : LoopRoot W → Option W
  | .entered w => some w
  | .looping => none
  | .ended w => some w

/-- A `cilk_for` under way. -/
structure LoopState (W : Type) where
  /-- `w->pedigree`. -/
  ped : W → PedigreeNode
  node : PedigreeAddr → PedigreeNode
  root : LoopRoot W
  calls : Nat → LoopCall W
  /-- The calls are numbered; this is the number of the next one. -/
  next : Nat

namespace LoopState

variable {W : Type} [DecidableEq W]

/-- A call that has not been made. -/
def noCall : LoopCall W where
  low := 0
  high := 0
  place := .finished
  spawner := none
  children := 0
  parent_pedigree := { rank := 0, parent := none }
  saved := none

/-- Entry into `cilk_for_root` on worker `w`. -/
def enter (w : W) (ped : W → PedigreeNode) (node : PedigreeAddr → PedigreeNode) : LoopState W where
  ped := ped
  node := node
  root := .entered w
  calls := fun _ => noCall
  next := 0

/-- No part of the loop is on the worker; it may do other work. -/
def Free (s : LoopState W) (w : W) : Prop :=
  (∀ a < s.next, (s.calls a).place.on ≠ some w) ∧ s.root.on ≠ some w

instance (s : LoopState W) (w : W) : Decidable (s.Free w) :=
  inferInstanceAs (Decidable (_ ∧ _))

/-- The worker's pedigree is written. -/
def setPed (s : LoopState W) (w : W) (ped : PedigreeNode) : LoopState W :=
  { s with ped := Function.update s.ped w ped }

/-- A node is written. -/
def setNode (s : LoopState W) (address : PedigreeAddr) (value : PedigreeNode) : LoopState W :=
  { s with node := Function.update s.node address value }

/-- A call is written. -/
def setCall (s : LoopState W) (a : Nat) (call : LoopCall W) : LoopState W :=
  { s with calls := Function.update s.calls a call }

/-- A call goes on at a place. -/
def setPlace (s : LoopState W) (a : Nat) (place : LoopPlace W) : LoopState W :=
  s.setCall a { s.calls a with place := place }

/-- The spawn of `noop` up to its return, or to the theft of `cilk_for_root`: either way the pedigree of
whoever goes on is the one before with its rank increased, and it is saved as the root of the loop. -/
def afterNoop (s : LoopState W) (w w' : W) (count : Nat) : LoopState W :=
  let before := s.ped w
  -- `__cilkrts_detach` in the helper, then `update_pedigree_on_leave_frame` or a thief's
  -- `setup_for_execution_pedigree`
  let s := (s.setNode .noop before).setPed w { rank := 1, parent := some .noop }
  let after : PedigreeNode := { rank := before.rank + 1, parent := before.parent }
  let s := (s.setPed w' after).setNode .root after
  let call : LoopCall W := { (noCall : LoopCall W) with low := 0, high := count, place := .running w' }
  { s.setCall s.next call with root := .looping, next := s.next + 1 }

/-- `__cilkrts_detach` in the helper that spawns the lower half; the call itself waits in the deque with
the upper half. -/
def split (s : LoopState W) (a : Nat) (w : W) : LoopState W :=
  let call := s.calls a
  let mid := call.low + (call.high - call.low) / 2
  let child := s.next
  let s := s.setNode (.helper child) (s.ped w)
  let s := s.setCall a
    { call with
      low := mid, place := .detached child, children := call.children + 1, parent_pedigree := s.ped w }
  let s := s.setPed w { rank := 1, parent := some (.helper child) }
  let spawned : LoopCall W :=
    { (noCall : LoopCall W) with low := call.low, high := mid, place := .running w, spawner := some a }
  { s.setCall child spawned with next := child + 1 }

/-- The call that waits in the deque is stolen: `setup_for_execution_pedigree` on stolen work. -/
def steal (s : LoopState W) (a : Nat) (w : W) : LoopState W :=
  let saved := (s.calls a).parent_pedigree
  (s.setPed w { rank := saved.rank + 1, parent := saved.parent }).setPlace a (.running w)

/-- The start of iteration `i` of a range that ends at `high`, or the end of the loop body, where
`call_cilk_for_loop_body` restores the parent. -/
def startIteration (s : LoopState W) (a i : Nat) (w : W) : LoopState W :=
  if i < (s.calls a).high then s.setPlace a (.iteration i w)
  else
    (s.setPed w { s.ped w with parent := (s.calls a).saved }).setPlace a (.syncing w)

/-- `call_cilk_for_loop_body` up to the body. -/
def callBody (s : LoopState W) (a : Nat) (w : W) : LoopState W :=
  let low := (s.calls a).low
  let s := s.setCall a { s.calls a with saved := (s.ped w).parent }
  let s := s.setNode (.leaf a) { rank := UInt64.ofNat low + 1, parent := some .root }
  (s.setPed w { rank := 1, parent := some (.leaf a) }).startIteration a low w

/-- `__cilkrts_bump_loop_rank`, with its node. -/
def bumpLoopRank (s : LoopState W) (w : W) (address : PedigreeAddr) : LoopState W :=
  let node := s.node address
  (s.setNode address { node with rank := node.rank + 1 }).setPed w { s.ped w with rank := 1 }

/-- The implicit sync: passed at once when no spawned call is out, else the call stalls with the pedigree
it has. -/
def sync (s : LoopState W) (a : Nat) (w : W) : LoopState W :=
  if (s.calls a).children = 0 then
    -- `update_pedigree_after_sync`
    (s.setPed w { s.ped w with rank := (s.ped w).rank + 1 }).setPlace a (.synched w)
  else s.setCall a { s.calls a with parent_pedigree := s.ped w, place := .stalled }

/-- The last spawned call resumes the stalled one past its sync on its own worker. -/
def resumeSync (s : LoopState W) (a : Nat) (w : W) : LoopState W :=
  let saved := (s.calls a).parent_pedigree
  (s.setPed w { rank := saved.rank + 1, parent := saved.parent }).setPlace a (.synched w)

/-- A spawned call returns to its spawner `a`. -/
def returnTo (s : LoopState W) (b a : Nat) (w : W) : LoopState W :=
  let s := s.setPlace b .finished
  let s := s.setCall a { s.calls a with children := (s.calls a).children - 1 }
  if (s.calls a).place = .detached b then
    -- the spawner was not stolen: `update_pedigree_on_leave_frame`
    let helper := s.node (.helper b)
    (s.setPed w { rank := helper.rank + 1, parent := helper.parent }).setPlace a (.running w)
  else if (s.calls a).place = .stalled ∧ (s.calls a).children = 0 then s.resumeSync a w
  else s

/-- The first call returns, and `cilk_for_root` restores the pedigree and increases its rank. -/
def returnRoot (s : LoopState W) (b : Nat) (w : W) : LoopState W :=
  let s := s.setPlace b .finished
  let root := s.node .root
  { s.setPed w { root with rank := root.rank + 1 } with root := .ended w }

end LoopState

/-- What happens next. A call is named by its number. -/
inductive LoopLabel (W : Type) where
  /-- `cilk_for_root` goes past the spawn of `noop`, on the worker it is on or on a thief. -/
  | noop (thief : Option W)
  /-- A call splits its range. -/
  | split (a : Nat)
  /-- A thief takes a call from the deque. -/
  | steal (a : Nat) (w : W)
  /-- A call calls the loop body. -/
  | callBody (a : Nat)
  /-- The user's code of an iteration starts. -/
  | enterUser (a : Nat)
  /-- The user's code leaves its worker: its strand is suspended, or the worker follows another. -/
  | leaveWorker (a : Nat)
  /-- The user's code goes on on a worker. -/
  | takeWorker (a : Nat) (w : W)
  /-- The user's code, or what else is done by a worker, writes its pedigree. -/
  | userPed (w : W) (ped : PedigreeNode)
  /-- The user's code, or what else is done by a worker, writes a node that is not of the loop. -/
  | userNode (node : Nat) (value : PedigreeNode)
  /-- The iteration calls `__cilkrts_bump_loop_rank` and ends. -/
  | endIteration (a : Nat)
  /-- A call reaches its sync. -/
  | sync (a : Nat)
  /-- A call returns. -/
  | return_ (a : Nat)
  deriving DecidableEq, Repr

section LoopMachine

variable {W : Type} [DecidableEq W]

/-- The worker is doing the user's code of some iteration. -/
def LoopState.InUserCode (s : LoopState W) (w : W) : Prop :=
  ∃ a < s.next, (s.calls a).place.user = some w

instance (s : LoopState W) (w : W) : Decidable (s.InUserCode w) :=
  inferInstanceAs (Decidable (∃ a < s.next, _))

/-- One step of a loop of `count` iterations with the given grain. A thief is a worker that no part of the
loop is on; an iteration ends only with a pedigree under the node of its loop body. -/
def loopStep (count grain : Nat) (s : LoopState W) : LoopLabel W → Option (LoopState W)
  | .noop thief =>
    match s.root with
    | .entered w =>
      match thief with
      | none => some (s.afterNoop w w count)
      | some w' => if s.Free w' then some (s.afterNoop w w' count) else none
    | _ => none
  | .split a =>
    match (s.calls a).place with
    | .running w =>
      if grain < (s.calls a).high - (s.calls a).low then some (s.split a w) else none
    | _ => none
  | .steal a w =>
    match (s.calls a).place with
    | .detached _ => if s.Free w then some (s.steal a w) else none
    | _ => none
  | .callBody a =>
    match (s.calls a).place with
    | .running w =>
      if (s.calls a).high - (s.calls a).low ≤ grain then some (s.callBody a w) else none
    | _ => none
  | .enterUser a =>
    match (s.calls a).place with
    | .iteration i w => some (s.setPlace a (.userCode i (some w)))
    | _ => none
  | .leaveWorker a =>
    match (s.calls a).place with
    | .userCode i (some _) => some (s.setPlace a (.userCode i none))
    | _ => none
  | .takeWorker a w =>
    match (s.calls a).place with
    | .userCode i none => if s.Free w then some (s.setPlace a (.userCode i (some w))) else none
    | _ => none
  | .userPed w ped => if s.Free w ∨ s.InUserCode w then some (s.setPed w ped) else none
  | .userNode node value => some (s.setNode (.other node) value)
  | .endIteration a =>
    match (s.calls a).place with
    | .userCode i (some w) =>
      if (s.ped w).parent = some (.leaf a) then
        some ((s.bumpLoopRank w (.leaf a)).startIteration a (i + 1) w)
      else none
    | _ => none
  | .sync a =>
    match (s.calls a).place with
    | .syncing w => some (s.sync a w)
    | _ => none
  | .return_ b =>
    match (s.calls b).place with
    | .synched w =>
      match (s.calls b).spawner with
      | some a => some (s.returnTo b a w)
      | none => some (s.returnRoot b w)
    | _ => none

/-- The machine of a loop that worker `w` enters. -/
def loopMachine (count grain : Nat) (w : W) (ped : W → PedigreeNode)
    (node : PedigreeAddr → PedigreeNode) : Machine (LoopState W) (LoopLabel W) where
  start s := s = LoopState.enter w ped node
  step := loopStep count grain

end LoopMachine

end CilkL
