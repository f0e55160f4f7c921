/-
Module: CilkL.Runtime.StrandPedigree
Layer: Runtime
Purpose: The pedigrees of spawns, future spawns, calls, syncs and gets. A program is the tree of what its
  functions do; the serial execution gives each of its strands a chain of ranks. The runtime keeps the
  innermost node of the chain in the worker and the others in the stack frames of the spawn helpers, and
  rebuilds the worker's node from `parent_pedigree` and two flags when a frame moves, or from `saved_ped`
  when a deque does. A call of `cilk_future_create` is the call of a function that spawns a future and
  returns; what a spawn helper does is a call of the spawned function.
Imports: CilkL.Runtime.LoopPedigree
Trusted boundary: human-reviewed spec (translated from cilk-abi.c, cilk-abi-future.cpp, pedigrees.h,
  pedigrees.c, scheduler.c, deque.c and deque_pool.c)
Main exports: StrandCode, serialStrands, endRank, StrandState, strandStep, strandMachine
Open obligations: none
-/
import CilkL.Runtime.LoopPedigree

namespace CilkL

/-- What is left to do of a function with an ABI-1 frame. A function that spawns has a sync before it
returns. -/
inductive StrandCode where
  | ret
  | spawn (child rest : StrandCode)
  | future (child rest : StrandCode)
  | call (callee rest : StrandCode)
  | sync (rest : StrandCode)
  | get (rest : StrandCode)
  deriving DecidableEq, Repr

/-- A strand is named by the way to it: into what is spawned or called, or on with the same function. -/
inductive StrandTurn where
  | into
  | next
  deriving DecidableEq, Repr

/-- The rank at the return of a function whose strand has the given rank, when nothing is stolen. -/
def endRank : StrandCode → UInt64 → UInt64
  | .ret, rank => rank
  | .spawn _ rest, rank => endRank rest (rank + 1)
  | .future _ rest, rank => endRank rest (rank + 1)
  | .call callee rest, rank => endRank rest (endRank callee rank)
  | .sync rest, rank => endRank rest (rank + 1)
  | .get rest, rank => endRank rest rank

/-- The strands that the serial execution goes through after the one with the given path, rank and rest of
the chain, with their pedigrees: `__cilkrts_detach` puts a node under the rank 1, `__cilkrts_leave_frame`
takes it off again with its rank increased, and so does `update_pedigree_after_sync` with the rank. -/
def serialFrom : StrandCode → List StrandTurn → UInt64 → List UInt64 →
    List (List StrandTurn × List UInt64)
  | .ret, _, _, _ => []
  | .spawn child rest, path, rank, chain =>
    (path ++ [.into], 1 :: rank :: chain) :: serialFrom child (path ++ [.into]) 1 (rank :: chain) ++
      (path ++ [.next], (rank + 1) :: chain) :: serialFrom rest (path ++ [.next]) (rank + 1) chain
  | .future child rest, path, rank, chain =>
    (path ++ [.into], 1 :: rank :: chain) :: serialFrom child (path ++ [.into]) 1 (rank :: chain) ++
      (path ++ [.next], (rank + 1) :: chain) :: serialFrom rest (path ++ [.next]) (rank + 1) chain
  | .call callee rest, path, rank, chain =>
    (path ++ [.into], rank :: chain) :: serialFrom callee (path ++ [.into]) rank chain ++
      (path ++ [.next], endRank callee rank :: chain) ::
        serialFrom rest (path ++ [.next]) (endRank callee rank) chain
  | .sync rest, path, rank, chain =>
    (path ++ [.next], (rank + 1) :: chain) :: serialFrom rest (path ++ [.next]) (rank + 1) chain
  | .get rest, path, rank, chain =>
    (path ++ [.next], rank :: chain) :: serialFrom rest (path ++ [.next]) rank chain

/-- The strands of a program with their pedigrees in the serial execution. -/
def serialStrands (program : StrandCode) (rank : UInt64) (chain : List UInt64) :
    List (List StrandTurn × List UInt64) :=
  ([], rank :: chain) :: serialFrom program [] rank chain

/-- The chain of ranks from a node on. -/
def ChainIs (node : PedigreeAddr → PedigreeNode) : PedigreeNode → List UInt64 → Prop
  | _, [] => False
  | start, rank :: chain =>
    start.rank = rank ∧
      match start.parent with
      | none => chain = []
      | some address => ChainIs node (node address) chain

/-- The root of the user thread's pedigree, which stays. -/
def tlsRoot : PedigreeAddr := .other 0

/-- How a function was entered. -/
inductive StrandKind where
  /-- It has `CILK_FRAME_LAST`. -/
  | outermost
  | called (caller : Nat)
  | spawned (parent : Nat)
  /-- Its parent has `CILK_FRAME_FUTURE_PARENT`. -/
  | future (parent : Nat)
  deriving DecidableEq, Repr

/-- Where a function is, on workers `W`. -/
inductive StrandPlace (W : Type) where
  | running (w : W)
  /-- `next_frame_ff` of a worker: stolen, or past the wait of a sync. -/
  | next (w : W)
  /-- In a deque, behind what it spawned last. -/
  | detached (child : Nat)
  | calling (callee : Nat)
  /-- In `do_sync`, with spawned functions out. -/
  | stalled
  /-- With its deque, which has `saved_ped`. -/
  | suspended (saved_ped : PedigreeNode)
  /-- In `suspend_return_from_initial`, entered with a rank that nothing keeps. -/
  | exiting (rank : UInt64)
  | returned
  deriving DecidableEq, Repr

/-- A function that has been entered, with its `__cilkrts_stack_frame` and its helper's. -/
structure StrandFrame (W : Type) where
  kind : StrandKind
  /-- What it goes on with. -/
  code : StrandCode
  /-- The strand it is in; while it waits, the one it goes on with. -/
  path : List StrandTurn
  /-- Where `spawn_helper_pedigree` of its own helper is. -/
  helper : PedigreeAddr
  /-- The functions in whose helpers the nodes of its pedigree are, the innermost first. -/
  helpers : List Nat
  place : StrandPlace W
  /-- The functions it spawned that have not come back to it since it was stolen. -/
  children : Nat
  parent_pedigree : PedigreeNode
  /-- `CILK_FRAME_UNSYNCHED`. -/
  unsynched : Bool
  /-- `CILK_FRAME_SF_PEDIGREE_UNSYNCHED`. -/
  pedigree_unsynched : Bool
  deriving DecidableEq, Repr

/-- `setup_for_execution_pedigree` on a frame with an ABI-1 flag word. -/
def setup_for_execution_pedigree (work_stolen pedigree_unsynched : Bool)
    (parent_pedigree pedigree : PedigreeNode) : PedigreeNode where
  rank :=
    if work_stolen || pedigree_unsynched then
      if work_stolen then parent_pedigree.rank + 1 else parent_pedigree.rank
    else pedigree.rank
  parent := parent_pedigree.parent

/-- A program under way. -/
structure StrandState (W : Type) where
  /-- `w->pedigree`. -/
  ped : W → PedigreeNode
  /-- `w->l->work_stolen`. -/
  work_stolen : W → Bool
  node : PedigreeAddr → PedigreeNode
  frame : Nat → StrandFrame W
  /-- The functions are numbered as they are entered; this is the number of the next one. -/
  count : Nat
  /-- The function that a worker runs or is about to. -/
  current : W → Option Nat
  /-- The function whose strand the last step started or took up again. -/
  started : Option Nat
  /-- What `save_pedigree_leaf_from_user_worker` stored. -/
  leaf : Option UInt64

namespace StrandState

variable {W : Type}

/-- A function that has not been entered. -/
def noFrame : StrandFrame W where
  kind := .outermost
  code := .ret
  path := []
  helper := tlsRoot
  helpers := []
  place := .returned
  children := 0
  parent_pedigree := { rank := 0, parent := none }
  unsynched := false
  pedigree_unsynched := false

/-- The helper's stack frame is there until the function has returned. -/
def Live (s : StrandState W) (x : Nat) : Prop := (s.frame x).place ≠ .returned

/-- An address that no helper has. -/
def Vacant (s : StrandState W) (address : PedigreeAddr) : Prop :=
  address ≠ tlsRoot ∧ ∀ x < s.count, s.Live x → (s.frame x).helper ≠ address

instance [DecidableEq W] (s : StrandState W) (x : Nat) : Decidable (s.Live x) :=
  inferInstanceAs (Decidable (_ ≠ _))

instance [DecidableEq W] (s : StrandState W) (address : PedigreeAddr) : Decidable (s.Vacant address) :=
  inferInstanceAs (Decidable (_ ∧ _))

/-- A node is written. -/
def setNode (s : StrandState W) (address : PedigreeAddr) (value : PedigreeNode) : StrandState W :=
  { s with node := Function.update s.node address value }

/-- A frame is written. -/
def setFrame (s : StrandState W) (x : Nat) (frame : StrandFrame W) : StrandState W :=
  { s with frame := Function.update s.frame x frame }

/-- A function goes on at a place. -/
def setPlace (s : StrandState W) (x : Nat) (place : StrandPlace W) : StrandState W :=
  s.setFrame x { s.frame x with place := place }

variable [DecidableEq W]

/-- A worker's pedigree is written. -/
def setPed (s : StrandState W) (w : W) (ped : PedigreeNode) : StrandState W :=
  { s with ped := Function.update s.ped w ped }

/-- A worker has a frame, or none. -/
def setCurrent (s : StrandState W) (w : W) (x : Option Nat) : StrandState W :=
  { s with current := Function.update s.current w x }

/-- `work_stolen` is written. -/
def setStolen (s : StrandState W) (w : W) (stolen : Bool) : StrandState W :=
  { s with work_stolen := Function.update s.work_stolen w stolen }

/-- The step started a strand, or none. -/
def starting (s : StrandState W) (x : Option Nat) : StrandState W := { s with started := x }

/-- A function is entered on a worker. -/
def enter (s : StrandState W) (w : W) (frame : StrandFrame W) : StrandState W :=
  { (s.setFrame s.count frame).setCurrent w (some s.count) with
    count := s.count + 1, started := some s.count }

/-- `__cilkrts_detach` in the helper at `address` that function `x` calls, and what the helper calls. -/
def detach (s : StrandState W) (w : W) (x : Nat) (address : PedigreeAddr) (kind : StrandKind)
    (child rest : StrandCode) : StrandState W :=
  let parent := s.frame x
  let pedigree := s.ped w
  let s := s.setNode address pedigree
  let s := s.setFrame x
    { parent with
      code := rest, path := parent.path ++ [.next], place := .detached s.count
      parent_pedigree := pedigree }
  let s := s.setPed w { rank := 1, parent := some address }
  s.enter w
    { (noFrame : StrandFrame W) with
      kind := kind, code := child, path := parent.path ++ [.into], helper := address
      helpers := s.count :: parent.helpers, place := .running w }

/-- A call. -/
def callFunction (s : StrandState W) (w : W) (x : Nat) (callee rest : StrandCode) : StrandState W :=
  let caller := s.frame x
  let s := s.setFrame x
    { caller with code := rest, path := caller.path ++ [.next], place := .calling s.count }
  s.enter w
    { (noFrame : StrandFrame W) with
      kind := .called x, code := callee, path := caller.path ++ [.into]
      helpers := caller.helpers, place := .running w }

/-- `update_pedigree_on_leave_frame` in the helper of a function. -/
def leaveFrame (s : StrandState W) (w : W) (x : Nat) : StrandState W :=
  let helper := s.node (s.frame x).helper
  s.setPed w { rank := helper.rank + 1, parent := helper.parent }

/-- A function goes on with the next strand. -/
def goOn (s : StrandState W) (x : Nat) (rest : StrandCode) : StrandState W :=
  (s.setFrame x { s.frame x with code := rest, path := (s.frame x).path ++ [.next] }).starting (some x)

/-- `provably_good_steal`: the last function that a stalled one waits for makes it the next frame of the
worker. -/
def provablyGoodSteal (s : StrandState W) (w : W) (x : Nat) : StrandState W :=
  if (s.frame x).place = .stalled ∧ (s.frame x).children = 0 then
    (s.setFrame x { s.frame x with place := .next w, unsynched := false }).setCurrent w (some x)
  else s.setCurrent w none

/-- A sync: passed at once unless the frame has been stolen since the last one. -/
def sync (s : StrandState W) (w : W) (x : Nat) (rest : StrandCode) : StrandState W :=
  if (s.frame x).unsynched then
    -- `__cilkrts_sync` and `do_sync`
    let s := s.setFrame x
      { s.frame x with place := .stalled, parent_pedigree := s.ped w, pedigree_unsynched := true }
    (s.provablyGoodSteal w x).starting none
  else
    -- `update_pedigree_after_sync`
    (s.setPed w { s.ped w with rank := (s.ped w).rank + 1 }).goOn x rest

/-- A called function returns to its caller, on the same worker, with the pedigree it leaves behind. -/
def returnToCaller (s : StrandState W) (w : W) (x caller : Nat) : StrandState W :=
  let s := (s.setPlace x .returned).setPlace caller (.running w)
  (s.setCurrent w (some caller)).starting (some caller)

/-- `__cilkrts_leave_frame` when `__cilkrts_undo_detach` wins. -/
def undoDetach (s : StrandState W) (w : W) (x parent : Nat) : StrandState W :=
  let s := ((s.leaveFrame w x).setPlace x .returned).setPlace parent (.running w)
  (s.setCurrent w (some parent)).starting (some parent)

/-- `__cilkrts_leave_frame` when the parent has been stolen: `do_return_from_spawn`. -/
def returnFromSpawn (s : StrandState W) (w : W) (x parent : Nat) : StrandState W :=
  let s := (s.leaveFrame w x).setPlace x .returned
  let s := s.setFrame parent { s.frame parent with children := (s.frame parent).children - 1 }
  (s.provablyGoodSteal w parent).starting none

/-- The same for a future, which its parent does not wait for. `__cilkrts_resume_suspended` instead goes on
with another deque at once and leaves the helper as it is; the pedigree is written either way before it is
used. -/
def returnFromFuture (s : StrandState W) (w : W) (x : Nat) : StrandState W :=
  (((s.leaveFrame w x).setPlace x .returned).setCurrent w none).starting none

/-- `deque_suspend`: the worker goes on with a new deque, whose `saved_ped` is zero. -/
def suspend (s : StrandState W) (w : W) (x : Nat) : StrandState W :=
  let s := s.setPlace x (.suspended (s.ped w))
  (((s.setPed w { rank := 0, parent := none }).setStolen w false).setCurrent w none).starting none

/-- `deque_switch` to a suspended deque. -/
def resume (s : StrandState W) (w : W) (x : Nat) (saved_ped : PedigreeNode) : StrandState W :=
  (((s.setPed w saved_ped).setPlace x (.running w)).setCurrent w (some x)).starting (some x)

/-- A successful steal of the frame behind `child`: unless that is a future, the frame is marked. -/
def steal (s : StrandState W) (w : W) (x child : Nat) : StrandState W :=
  let loot := s.frame x
  let loot :=
    match (s.frame child).kind with
    | .spawned _ => { loot with children := loot.children + 1, unsynched := true }
    | _ => loot
  let s := s.setFrame x { loot with place := .next w }
  ((s.setStolen w true).setCurrent w (some x)).starting none

/-- `setup_for_execution` on the worker's next frame. -/
def setupForExecution (s : StrandState W) (w : W) (x : Nat) : StrandState W :=
  let sf := s.frame x
  let s := s.setPed w
    (setup_for_execution_pedigree (s.work_stolen w) sf.pedigree_unsynched sf.parent_pedigree (s.ped w))
  let s := s.setFrame x { sf with place := .running w, pedigree_unsynched := false }
  (s.setStolen w false).starting (some x)

/-- `save_pedigree_leaf_from_user_worker` at the end of the outermost function. -/
def saveLeaf (s : StrandState W) (w : W) : StrandState W :=
  { ((s.setPlace 0 .returned).setCurrent w none).starting none with leaf := some (s.ped w).rank }

/-- `suspend_return_from_initial`. -/
def suspendReturn (s : StrandState W) (w : W) : StrandState W :=
  ((s.setPlace 0 (.exiting (s.ped w).rank)).setCurrent w none).starting none

/-- `setup_for_execution` on the exit frame, whose stack frame is the new one of
`suspend_return_from_initial`, with `parent_pedigree` as it was on the stack. -/
def resumeReturn (s : StrandState W) (w : W) (parent_pedigree : PedigreeNode) : StrandState W :=
  ((s.setPed w
    (setup_for_execution_pedigree (s.work_stolen w) false parent_pedigree (s.ped w))).setStolen w false).saveLeaf w

end StrandState

/-- What happens next. -/
inductive StrandLabel (W : Type) where
  /-- The function on a worker spawns, with the helper's stack frame at an address. -/
  | detach (w : W) (address : PedigreeAddr)
  | call (w : W)
  | sync (w : W)
  /-- A `get` finds its value, at once or after it was suspended. -/
  | get (w : W)
  /-- A function other than the outermost one returns. -/
  | return_ (w : W)
  /-- A worker suspends its deque, in a `get` or in a `put` that resumes another. -/
  | suspend (w : W)
  | resume (w : W) (x : Nat)
  | steal (w : W) (x : Nat)
  | setupForExecution (w : W)
  /-- The outermost function returns directly on worker 0. -/
  | returnDirect
  /-- It returns through `suspend_return_from_initial`. -/
  | suspendReturn (w : W)
  /-- Worker 0 takes the exit frame. -/
  | resumeReturn (parent_pedigree : PedigreeNode)
  /-- Something is written where no helper is. -/
  | write (address : PedigreeAddr) (value : PedigreeNode)
  deriving DecidableEq, Repr

section StrandMachine

variable {W : Type} [DecidableEq W]

/-- The function that runs on a worker. -/
def StrandState.running (s : StrandState W) (w : W) : Option Nat :=
  match s.current w with
  | some x => if (s.frame x).place = .running w then some x else none
  | none => none

/-- One step, with worker 0 named. Which of the frames in the deques a thief finds and the worker count that
decides how the outermost function returns are left open. -/
def strandStep (worker0 : W) (s : StrandState W) : StrandLabel W → Option (StrandState W)
  | .detach w address =>
    match s.running w with
    | some x =>
      if s.Vacant address then
        match (s.frame x).code with
        | .spawn child rest => some (s.detach w x address (.spawned x) child rest)
        | .future child rest => some (s.detach w x address (.future x) child rest)
        | _ => none
      else none
    | none => none
  | .call w =>
    match s.running w with
    | some x =>
      match (s.frame x).code with
      | .call callee rest => some (s.callFunction w x callee rest)
      | _ => none
    | none => none
  | .sync w =>
    match s.running w with
    | some x =>
      match (s.frame x).code with
      | .sync rest => some (s.sync w x rest)
      | _ => none
    | none => none
  | .get w =>
    match s.running w with
    | some x =>
      match (s.frame x).code with
      | .get rest => some (s.goOn x rest)
      | _ => none
    | none => none
  | .return_ w =>
    match s.running w with
    | some x =>
      if (s.frame x).code = .ret ∧ (s.frame x).unsynched = false then
        match (s.frame x).kind with
        | .outermost => none
        | .called caller =>
          if (s.frame caller).place = .calling x then some (s.returnToCaller w x caller) else none
        | .spawned parent =>
          if (s.frame parent).place = .detached x then some (s.undoDetach w x parent)
          else some (s.returnFromSpawn w x parent)
        | .future parent =>
          if (s.frame parent).place = .detached x then some (s.undoDetach w x parent)
          else some (s.returnFromFuture w x)
      else none
    | none => none
  | .suspend w =>
    match s.running w with
    | some x => some (s.suspend w x)
    | none => none
  | .resume w x =>
    match (s.frame x).place with
    | .suspended saved_ped => if s.current w = none then some (s.resume w x saved_ped) else none
    | _ => none
  | .steal w x =>
    match (s.frame x).place with
    | .detached child => if s.current w = none then some (s.steal w x child) else none
    | _ => none
  | .setupForExecution w =>
    match s.current w with
    | some x => if (s.frame x).place = .next w then some (s.setupForExecution w x) else none
    | none => none
  | .returnDirect =>
    if s.running worker0 = some 0 ∧ (s.frame 0).code = .ret ∧ (s.frame 0).unsynched = false then
      some (s.saveLeaf worker0)
    else none
  | .suspendReturn w =>
    if s.running w = some 0 ∧ (s.frame 0).code = .ret ∧ (s.frame 0).unsynched = false then
      some (s.suspendReturn w)
    else none
  | .resumeReturn parent_pedigree =>
    match (s.frame 0).place with
    | .exiting _ => if s.current worker0 = none then some (s.resumeReturn worker0 parent_pedigree) else none
    | _ => none
  | .write address value =>
    if s.Vacant address then some ((s.setNode address value).starting none) else none

/-- The outermost function is entered on worker 0, whose pedigree leaf has been loaded. -/
def StrandState.initial (worker0 : W) (program : StrandCode) (rank root : UInt64)
    (memory : PedigreeAddr → PedigreeNode) : StrandState W where
  -- `make_worker`, and `load_pedigree_leaf_into_user_worker` on worker 0
  ped := fun w =>
    if w = worker0 then { rank := rank, parent := some tlsRoot } else { rank := 1, parent := none }
  work_stolen := fun _ => false
  node := Function.update memory tlsRoot { rank := root, parent := none }
  frame := Function.update (fun _ => StrandState.noFrame) 0
    { (StrandState.noFrame : StrandFrame W) with code := program, place := .running worker0 }
  count := 1
  current := fun w => if w = worker0 then some 0 else none
  started := some 0
  leaf := none

/-- The machine of a program whose outermost function is entered with a leaf of the given rank under a root
of the given rank, whatever is in the memory that its helpers will use. -/
def strandMachine (worker0 : W) (program : StrandCode) (rank root : UInt64) :
    Machine (StrandState W) (StrandLabel W) where
  start s := ∃ memory, s = StrandState.initial worker0 program rank root memory
  step := strandStep worker0

end StrandMachine

end CilkL
