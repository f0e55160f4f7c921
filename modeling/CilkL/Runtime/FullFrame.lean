/-
Module: CilkL.Runtime.FullFrame
Layer: Runtime
Purpose: The tree of full frames with the reducer protocol of `scheduler.c`: continuations are stolen
  (`detach_for_steal`, `unroll_call_stack`, `make_child`), children return to a stolen parent and frames
  stall at syncs, with the critical sections under a frame's lock as steps and the merges of maps
  between them. A strand executes a fork-join program of updates, spawns, calls and syncs; its deque is
  the stack of callers, of which the spawned ones can be stolen. Left out: exceptions, pedigrees, fibers,
  futures (their full frames are not linked into the tree) and `simulated_stolen` frames. Reduce
  functions use no reducers, so they leave no map in `w->reducer_map`.
Imports: CilkL.Library.Machine, CilkL.Runtime.ReducerMap
Trusted boundary: human-reviewed spec (translated from scheduler.c and deque.c)
Main exports: Stmt, Strand, FullFrame, FrameAction, frameStep, treeStep, frameMachine
Open obligations: none
-/
import CilkL.Library.Machine
import CilkL.Runtime.ReducerMap

namespace CilkL

/-! ### Programs -/

/-- A statement of a fork-join program. -/
inductive Stmt (κ M : Type) where
  /-- Apply the operation of the reducer `key` to its view. -/
  | update (key : κ) (value : M)
  | spawn (body : List (Stmt κ M))
  | call (body : List (Stmt κ M))
  | sync

variable {κ M : Type}

mutual

/-- The updates of a statement in the order of the serial execution. -/
def Stmt.updates : Stmt κ M → List (κ × M)
  | .update key value => [(key, value)]
  | .spawn body => programUpdates body
  | .call body => programUpdates body
  | .sync => []

/-- The updates of a program in the order of the serial execution. -/
def programUpdates : List (Stmt κ M) → List (κ × M)
  | [] => []
  | stmt :: rest => stmt.updates ++ programUpdates rest

end

/-! ### Full frames -/

/-- How a caller invoked the function that runs above it. -/
inductive Link where
  /-- By a spawn: the caller's continuation is in the deque. -/
  | spawned
  | called
deriving DecidableEq, Repr

/-- A stack frame below the running one with the rest of its function. -/
structure Caller (κ M : Type) where
  link : Link
  rest : List (Stmt κ M)

/-- What the worker that owns a full frame does, with the rest of the frame's function. -/
inductive Strand (κ M : Type) where
  /-- It runs user code on top of the callers, youngest first, with its `w->reducer_map`. -/
  | running (current : List (Stmt κ M)) (callers : List (Caller κ M))
      (map : Option (ReducerMap κ M))
  /-- A stolen frame waits for the full frame it called. -/
  | suspended (rest : List (Stmt κ M))
  /-- It returned to a stolen parent and is about to lock it. -/
  | returning (map : Option (ReducerMap κ M))
  /-- The slow path of a spawn return, outside the lock. -/
  | reducing (left middle right : Option (ReducerMap κ M))
  /-- About to lock the parent again. -/
  | reduced (map : Option (ReducerMap κ M))
  /-- It stalls at a sync. -/
  | syncing (map : Option (ReducerMap κ M)) (rest : List (Stmt κ M))
  /-- The slow path of a sync, about to lock the frame. -/
  | syncLocking (middle : Option (ReducerMap κ M)) (rest : List (Stmt κ M))
  /-- The slow path of a sync, outside the lock. -/
  | syncReducing (left middle : Option (ReducerMap κ M)) (rest : List (Stmt κ M))
  /-- The reductions of the sync are done; about to decrement the join counter. -/
  | stalling (rest : List (Stmt κ M))
  | stalled (rest : List (Stmt κ M))
  /-- The join counter reached 0; a worker is about to resume the frame. -/
  | synched (rest : List (Stmt κ M))

/-- A full frame with the full frames of its children, leftmost first. -/
structure FullFrame (κ M : Type) where
  isCallChild : Bool
  /-- `CILK_FRAME_UNSYNCHED` of the frame's call stack. -/
  unsynched : Bool
  joinCounter : Nat
  /-- The children that unlinked themselves and did not decrement the join counter yet. -/
  departed : Nat
  childrenReducerMap : Option (ReducerMap κ M)
  rightReducerMap : Option (ReducerMap κ M)
  children : List (FullFrame κ M)
  strand : Strand κ M
  /-- The map the frame's strand started with. -/
  start : Option (ReducerMap κ M)
  /-- The updates of the frame's program, with all it spawns and calls, in serial order. -/
  serial : List (κ × M)
  /-- Those of them that come before the strand's place in the program. -/
  earlier : List (κ × M)

/-- A full frame of `__cilkrts_make_full_frame`. -/
def makeFullFrame (isCallChild : Bool) (strand : Strand κ M) (start : Option (ReducerMap κ M))
    (serial : List (κ × M)) : FullFrame κ M :=
  { isCallChild := isCallChild, unsynched := false, joinCounter := 0, departed := 0
    childrenReducerMap := none, rightReducerMap := none, children := [], strand := strand
    start := start, serial := serial, earlier := [] }

/-! ### Steals -/

/-- The callers' remaining updates. -/
def callersUpdates (callers : List (Caller κ M)) : List (κ × M) :=
  callers.flatMap fun caller => programUpdates caller.rest

/-- The continuation at the head of the deque: the callers above it, its rest and the rests of the
    functions below it, which were called and not spawned. -/
def oldestSpawn : List (Caller κ M) →
    Option (List (Caller κ M) × List (Stmt κ M) × List (List (Stmt κ M)))
  | [] => none
  | caller :: callers =>
      match oldestSpawn callers with
      | some (younger, stolen, older) => some (caller :: younger, stolen, older)
      | none =>
          match caller.link with
          | .spawned => some ([], caller.rest, callers.map Caller.rest)
          | .called => none

/-- The remaining updates of a call stack, youngest function first. -/
def stackUpdates (stack : List (List (Stmt κ M))) : List (κ × M) := stack.flatMap programUpdates

/-- `unroll_call_stack` from the oldest function of the call stack to the stolen one, which adopts the
    child and goes to the thief: `unrolled` are the functions still to promote, oldest first. -/
def unrollCallStack (child : FullFrame κ M) (frame : FullFrame κ M) (sf : List (Stmt κ M)) :
    List (List (Stmt κ M)) → FullFrame κ M
  | [] =>
      { frame with
        unsynched := true
        joinCounter := frame.joinCounter + 2
        children := frame.children ++ [child]
        strand := .running sf [] none
        earlier := frame.earlier ++ child.serial }
  | sf' :: unrolled =>
      let called := child.serial ++ stackUpdates (sf' :: unrolled).reverse
      { frame with
        joinCounter := frame.joinCounter + 1
        children := frame.children ++
          [unrollCallStack child (makeFullFrame true (.suspended sf') child.start called) sf' unrolled]
        strand := .suspended sf
        earlier := frame.earlier ++ called }

/-- `detach_for_steal` on a deque with the full frame `frame`. -/
def detachForSteal (frame : FullFrame κ M) : Option (FullFrame κ M) :=
  match frame.strand with
  | .running current callers map =>
      match oldestSpawn callers with
      | some (younger, stolen, older) =>
          let child :=
            { makeFullFrame false (.running current younger map) map
                (programUpdates current ++ callersUpdates younger) with joinCounter := 1 }
          let frame := { frame with joinCounter := frame.joinCounter - 1 }
          match (stolen :: older).reverse with
          | sf :: unrolled => some (unrollCallStack child frame sf unrolled)
          | [] => none
      | none => none
  | _ => none

/-! ### Reductions -/

variable [DecidableEq κ] [Monoid M]

/-- The slot to the left of the `i`-th child (`compute_left_ptrs_for_spawn_return`). -/
def FullFrame.leftOfChild (frame : FullFrame κ M) (i : Nat) : Option (ReducerMap κ M) :=
  match i with
  | 0 => frame.childrenReducerMap
  | i + 1 => (frame.children[i]?).bind FullFrame.rightReducerMap

/-- Stores a map to the left of the `i`-th child. -/
def FullFrame.setLeftOfChild (frame : FullFrame κ M) (i : Nat) (map : Option (ReducerMap κ M)) :
    FullFrame κ M :=
  match i with
  | 0 => { frame with childrenReducerMap := map }
  | i + 1 =>
      { frame with
        children := frame.children.modify i fun left => { left with rightReducerMap := map } }

/-- `fast_path_reductions_for_spawn_return`: the map to store on the left when that finishes the
    reductions, nothing when the slow path is needed. -/
def fastPathReductionsForSpawnReturn (left middle right : Option (ReducerMap κ M)) :
    Option (Option (ReducerMap κ M)) :=
  match left, middle, right with
  | left, none, none => some left
  | none, some middle, none => some (some middle)
  | none, none, some right => some (some right)
  | _, _, _ => none

/-- The locked part of the loop of `slow_path_reductions_for_spawn_return`: the map to store on the left
    when that finishes the reductions, else the maps taken out of their slots. -/
def slowPathReductionsForSpawnReturn (left middle right : Option (ReducerMap κ M)) :
    Option (ReducerMap κ M) ⊕
      Option (ReducerMap κ M) × Option (ReducerMap κ M) × Option (ReducerMap κ M) :=
  let (left, middle) := if left.isNone then (middle, none) else (left, middle)
  let (middle, right) := if middle.isNone then (right, none) else (middle, right)
  if middle.isNone then .inl left else .inr (left, middle, right)

/-- One critical section under the parent's lock in which the `i`-th child returns from its spawn with
    `map` in `w->reducer_map`: it unlinks itself or takes the maps out of their slots. -/
def spawnReturnSection (frame : FullFrame κ M) (i : Nat) (child : FullFrame κ M)
    (result : Option (ReducerMap κ M) ⊕
      Option (ReducerMap κ M) × Option (ReducerMap κ M) × Option (ReducerMap κ M)) :
    FullFrame κ M :=
  match result with
  | .inl left =>
      let frame := frame.setLeftOfChild i left
      { frame with children := frame.children.eraseIdx i, departed := frame.departed + 1 }
  | .inr (left, middle, right) =>
      let frame := frame.setLeftOfChild i none
      { frame with
        children := frame.children.set i
          { child with strand := .reducing left middle right, rightReducerMap := none } }

/-- `execute_reductions_for_spawn_return` up to the first release of the parent's lock, and the loop of
    the slow path from there on. -/
def executeReductionsForSpawnReturn (frame : FullFrame κ M) (i : Nat) : Option (FullFrame κ M) :=
  match frame.children[i]? with
  | none => none
  | some child =>
      let left := frame.leftOfChild i
      let right := child.rightReducerMap
      match child.strand with
      | .returning middle =>
          match fastPathReductionsForSpawnReturn left middle right with
          | some left => some (spawnReturnSection frame i child (.inl left))
          | none =>
              some (spawnReturnSection frame i child
                (slowPathReductionsForSpawnReturn left middle right))
      | .reduced middle =>
          some (spawnReturnSection frame i child
            (slowPathReductionsForSpawnReturn left middle right))
      | _ => none

/-- One critical section of `slow_path_reductions_for_sync`: the slot is to the left of where the next
    child would be (`compute_left_ptrs_for_sync`). -/
def slowPathReductionsForSync (frame : FullFrame κ M) (middle : Option (ReducerMap κ M))
    (rest : List (Stmt κ M)) : FullFrame κ M :=
  let left := frame.leftOfChild frame.children.length
  let (left, middle) := if left.isNone then (middle, none) else (left, middle)
  if middle.isNone then
    { frame.setLeftOfChild frame.children.length left with strand := .stalling rest }
  else
    { frame.setLeftOfChild frame.children.length none with strand := .syncReducing left middle rest }

/-- `provably_good_steal`, with the call of `__cilkrts_push_next_frame` when the join counter reaches 0. -/
def provablyGoodSteal (frame : FullFrame κ M) : FullFrame κ M :=
  let frame := { frame with joinCounter := frame.joinCounter - 1 }
  if frame.joinCounter = 0 then
    match frame.strand with
    | .stalled rest =>
        { frame with joinCounter := 1, unsynched := false, strand := .synched rest }
    | _ => { frame with joinCounter := 1, unsynched := false }
  else frame

/-- `setup_for_execution_reducers`: the frame is resumed by a worker with `map` in `w->reducer_map`. -/
def setupForExecutionReducers (frame : FullFrame κ M) (map : Option (ReducerMap κ M))
    (rest : List (Stmt κ M)) : FullFrame κ M :=
  match frame.unsynched, frame.childrenReducerMap with
  | false, some children =>
      { frame with childrenReducerMap := none, strand := .running rest [] (some children) }
  | _, _ => { frame with strand := .running rest [] map }

/-- `finalize_child_for_call` for a called full frame that returns with `map`. -/
def finalizeChildForCall (frame : FullFrame κ M) : Option (FullFrame κ M) :=
  match frame.strand, frame.children.getLast? with
  | .suspended rest, some child =>
      match child.isCallChild, child.unsynched, child.strand with
      | true, false, .running [] [] map =>
          some (setupForExecutionReducers
            { frame with
              children := frame.children.dropLast
              joinCounter := frame.joinCounter - 1 + 1 } map rest)
      | _, _, _ => none
  | _, _ => none

/-! ### Steps -/

/-- The steps of a frame: of its strand, and of its children in their critical sections under its lock. -/
inductive FrameAction where
  /-- The strand executes the next statement or leaves a function it called or spawned. -/
  | execute
  /-- A thief takes the oldest continuation of the strand's deque. -/
  | steal
  /-- The strand stalls at a sync, also the one before a function's return. -/
  | sync
  | syncFast
  | syncSection
  | syncMerge
  /-- The stalled strand decrements the join counter. -/
  | stall
  /-- A worker resumes the frame after its sync. -/
  | resume
  /-- The strand returns to a stolen parent. -/
  | spawnReturn
  | spawnReturnMerge
  /-- The `i`-th child is in a critical section of its return. -/
  | childSection (i : Nat)
  /-- A child that unlinked itself decrements the join counter. -/
  | childJoin
  /-- The called full frame returns. -/
  | callReturn
deriving DecidableEq, Repr

/-- The strand executes the next statement. -/
def execute (frame : FullFrame κ M) : Option (FullFrame κ M) :=
  match frame.strand with
  | .running (.update key value :: rest) callers map =>
      some { frame with
        strand := .running rest callers (some (updateView map key value))
        earlier := frame.earlier ++ [(key, value)] }
  | .running (.spawn body :: rest) callers map =>
      some { frame with strand := .running body (⟨.spawned, rest⟩ :: callers) map }
  | .running (.call body :: rest) callers map =>
      some { frame with strand := .running body (⟨.called, rest⟩ :: callers) map }
  | .running (.sync :: rest) callers map =>
      -- Only the frame at the bottom of the deque can have stolen children.
      if frame.unsynched ∧ callers.isEmpty then none
      else some { frame with strand := .running rest callers map }
  | .running [] (caller :: callers) map =>
      some { frame with strand := .running caller.rest callers map }
  | _ => none

/-- One step at a frame. -/
def frameStep (frame : FullFrame κ M) : FrameAction → Option (FullFrame κ M)
  | .execute => execute frame
  | .steal => detachForSteal frame
  | .sync =>
      match frame.unsynched, frame.strand with
      | true, .running (.sync :: rest) [] map => some { frame with strand := .syncing map rest }
      | true, .running [] [] map => some { frame with strand := .syncing map [] }
      | _, _ => none
  | .syncFast =>
      match frame.strand with
      | .syncing none rest => some { frame with strand := .stalling rest }
      | .syncing (some map) rest => some { frame with strand := .syncLocking (some map) rest }
      | _ => none
  | .syncSection =>
      match frame.strand with
      | .syncLocking middle rest => some (slowPathReductionsForSync frame middle rest)
      | _ => none
  | .syncMerge =>
      match frame.strand with
      | .syncReducing left middle rest =>
          some { frame with strand := .syncLocking (repeatedMergeReducerMaps left middle []) rest }
      | _ => none
  | .stall =>
      match frame.strand with
      | .stalling rest => some (provablyGoodSteal { frame with strand := .stalled rest })
      | _ => none
  | .resume =>
      match frame.strand with
      | .synched rest => some (setupForExecutionReducers frame none rest)
      | _ => none
  | .spawnReturn =>
      match frame.isCallChild, frame.unsynched, frame.strand with
      | false, false, .running [] [] map => some { frame with strand := .returning map }
      | _, _, _ => none
  | .spawnReturnMerge =>
      match frame.strand with
      | .reducing left middle right =>
          let left := repeatedMergeReducerMaps left middle []
          some { frame with strand := .reduced (repeatedMergeReducerMaps left right []) }
      | _ => none
  | .childSection i => executeReductionsForSpawnReturn frame i
  | .childJoin =>
      match frame.departed with
      | departed + 1 => some (provablyGoodSteal { frame with departed := departed })
      | 0 => none
  | .callReturn => finalizeChildForCall frame

/-- One step at the frame of the tree that a path of child indices leads to. -/
def treeStep (root : FullFrame κ M) : List Nat → FrameAction → Option (FullFrame κ M)
  | [], action => frameStep root action
  | i :: path, action =>
      match root.children[i]? with
      | none => none
      | some child =>
          match treeStep child path action with
          | none => none
          | some child' => some { root with children := root.children.set i child' }

/-- The tree at the start of a program: its full frame was called. -/
def initialFrame (program : List (Stmt κ M)) : FullFrame κ M :=
  { makeFullFrame true (.running program [] none) none (programUpdates program) with
    joinCounter := 1 }

/-- The executions of a program. -/
def frameMachine (program : List (Stmt κ M)) : Machine (FullFrame κ M) (List Nat × FrameAction) where
  start root := root = initialFrame program
  step root label := treeStep root label.1 label.2

end CilkL
