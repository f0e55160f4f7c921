/-
Module: CilkL.Runtime.FutureFiberCache
Layer: Runtime
Purpose: The caches of fibers for futures (`future_fiber_pool` of each worker), and all the places that the
  fibers of a program of spawns, calls, syncs and futures come from and go to. A strand is what a deque has
  on it; it keeps its name where its continuation is stolen, and what the victim goes on with gets a new one.
  The operations on a worker's cache, its own end of its queue of future fibers, its pool and its current
  fiber touch nothing that others use, and are one step each. Fibers have no reference counts on this
  platform; a block that is freed and allocated again counts as another fiber. A failed assertion has no
  result. The counters of the pools and the room in the arrays of a deque are left out.
Imports: CilkL.Library.Machine, CilkL.Runtime.FiberPool, CilkL.Runtime.Future
Trusted boundary: human-reviewed spec (translated from cilk-abi-future_utils.cpp, cilk-abi-future.cpp,
  cilk_future_fiber_deque.cpp, deque.c, deque_pool.c, cilk_fiber.cpp and scheduler.c)
Main exports: CactusFrame, CactusStrand, CactusState, FiberSite, CactusState.Holds, cactusStep, cactusMachine
Open obligations: none
-/
import CilkL.Library.Exclusive
import CilkL.Library.Machine
import CilkL.Runtime.FiberPool
import CilkL.Runtime.Future

namespace CilkL

/-- `MAX_FUTURE_FIBERS_IN_POOL`. -/
def maxFutureFibersInPool : Int := 128

/-- How a function was invoked. -/
inductive Invocation (δ β : Type) where
  /-- It is the outermost function. -/
  | root
  | called
  /-- By a spawn; the continuation of the function below it is in the deque. -/
  | spawned
  /-- As a future, on the fiber that was taken for it; `initial` is `initial_fiber` of the function below. -/
  | future (fiber initial : β)
  /-- By a spawn of the function at a height of the strand `parent`, whose continuation was stolen. -/
  | spawnedStolen (parent : δ) (height : Nat)
  /-- As a future of a function whose continuation was stolen. -/
  | futureStolen (fiber : β)
deriving DecidableEq, Repr

/-- The continuation of the function below is in the deque. -/
def Invocation.inDeque {δ β : Type} : Invocation δ β → Bool
  | .spawned | .future _ _ => true
  | _ => false

/-- The fiber that was taken for the future that the function is. -/
def Invocation.futureFiber? {δ β : Type} : Invocation δ β → Option β
  | .future fiber _ | .futureStolen fiber => some fiber
  | _ => none

/-- A function on the cactus stack. -/
structure CactusFrame (δ β : Type) where
  invocation : Invocation δ β
  /-- The strands of the children that were spawned before a steal of the continuation, left to right. -/
  children : List δ
  /-- `fiber_child` of its full frame. -/
  fiberChild : Option β
  /-- The fiber it was on before the first steal since its last sync. No code reads this. -/
  home : Option β
deriving DecidableEq, Repr

/-- There is nothing to wait for at a sync. -/
def CactusFrame.synced {δ β : Type} (frame : CactusFrame δ β) : Prop :=
  frame.children = [] ∧ frame.fiberChild = none

/-- A function that has spawned nothing yet. -/
def CactusFrame.enter {δ β : Type} (invocation : Invocation δ β) : CactusFrame δ β :=
  ⟨invocation, [], none, none⟩

/-- Where a strand is. -/
inductive CactusPlace (ω : Type) where
  | unused
  | on (w : ω)
  | suspended
  /-- At a sync whose children have not all returned. -/
  | stalled
  | over
  /-- Its deque was destroyed by a hand-off. -/
  | dropped
deriving DecidableEq, Repr

/-- It has functions that will go on. -/
def CactusPlace.live {ω : Type} : CactusPlace ω → Bool
  | .on _ | .suspended | .stalled => true
  | _ => false

/-- A strand with its deque. -/
structure CactusStrand (ω δ β : Type) where
  place : CactusPlace ω
  /-- The youngest function first. -/
  frames : List (CactusFrame δ β)
  /-- `fiber_self` of the deque's full frame. -/
  fiberSelf : Option β
  /-- The queue of future fibers, from its head to its tail. -/
  queue : List β
  /-- `fiber` of the deque. -/
  fiber : Option β
deriving DecidableEq, Repr

/-- The workers, their fibers and the strands. -/
structure CactusState (ω δ β : Type) where
  futureFiberPool : ω → Nat → Option β
  futureFiberPoolIdx : ω → Int
  fiberPool : ω → FiberPool β
  globalPool : List β
  /-- All fibers that were ever allocated from the heap. -/
  allocated : List β
  /-- `fiber` in a worker's `random_steal`. -/
  spare : ω → Option β
  /-- The fiber a worker runs on; none is its scheduling fiber. -/
  current : ω → Option β
  strand : δ → CactusStrand ω δ β
  /-- An exception left the function of a future. -/
  unwound : Bool

/-- The places where fibers are. -/
inductive FiberSite (ω δ : Type) where
  /-- A slot of a worker's cache. -/
  | slot (w : ω) (i : Nat)
  | pool (w : ω)
  | globalPool
  | spare (w : ω)
  /-- `fiber_self` of a deque's full frame. -/
  | self (d : δ)
  | queue (d : δ)
  /-- `fiber_child` of the full frame of the function at a height of a strand. -/
  | child (d : δ) (height : Nat)
deriving DecidableEq, Repr

/-- The steps. -/
inductive CactusLabel (ω δ β : Type) where
  | call (d : δ)
  | spawn (d : δ)
  /-- `__spawn_future_helper_helper` up to the future; what the heap gives if there is no fiber in the cache
      and the pool, and what it gives after the global pool. -/
  | spawnFuture (d : δ) (heap heapOfParent : Option β)
  /-- A called or spawned function returns, with its parent on the same deque. -/
  | leave (d : δ)
  /-- A future returns, with its parent on the same deque. -/
  | futureReturn (d : δ)
  /-- A thief allocates a fiber. -/
  | allocate (u : ω) (heap heapOfParent : Option β)
  | giveBack (u : ω)
  /-- The thief `u` takes the oldest continuation of `d`; what was above it becomes the strand `c`. -/
  | steal (u : ω) (d c : δ)
  /-- A spawned function returns to a parent that was stolen. -/
  | childReturn (d : δ)
  /-- A future returns to a parent that was stolen. -/
  | futureReturnStolen (d : δ)
  /-- A sync has to wait. -/
  | stall (d : δ)
  /-- The provably good steal of a function that waits. -/
  | resumeStalled (u : ω) (d : δ)
  /-- In `get`. -/
  | suspend (d : δ)
  /-- A worker goes on with a suspended deque. -/
  | resume (u : ω) (d : δ)
  /-- A future ends with `__cilkrts_resume_suspended(e, 2)`. -/
  | handOff (d e : δ)
  /-- An exception leaves the function of a future, and unwinds `__spawn_future_helper`. -/
  | throw (d : δ)
deriving DecidableEq, Repr

variable {ω δ β : Type}

/-- The oldest continuation in a deque: the functions above the one it spawned, that one, and the functions
from its own down. -/
def splitOldest : List (CactusFrame δ β) →
    Option (List (CactusFrame δ β) × CactusFrame δ β × List (CactusFrame δ β))
  | [] => none
  | frame :: below =>
      match splitOldest below with
      | some (younger, child, older) => some (frame :: younger, child, older)
      | none => if frame.invocation.inDeque then some ([], frame, below) else none

/-- The function that has that many below it. -/
def atHeight (h : Nat) : List (CactusFrame δ β) → Option (CactusFrame δ β)
  | [] => none
  | frame :: below => if below.length = h then some frame else atHeight h below

/-- Change the function that has that many below it. -/
def modifyHeight (h : Nat) (change : CactusFrame δ β → CactusFrame δ β) :
    List (CactusFrame δ β) → List (CactusFrame δ β)
  | [] => []
  | frame :: below => if below.length = h then change frame :: below else frame :: modifyHeight h change below

namespace CactusState

/-- A fiber is at a place. The full frame of a deque that a hand-off destroyed is nobody's. -/
def Holds (s : CactusState ω δ β) : FiberSite ω δ → β → Prop
  | .slot w i, f => (i : Int) ≤ s.futureFiberPoolIdx w ∧ s.futureFiberPool w i = some f
  | .pool w, f => f ∈ (s.fiberPool w).fibers
  | .globalPool, f => f ∈ s.globalPool
  | .spare w, f => s.spare w = some f
  | .self d, f => (s.strand d).place ≠ .dropped ∧ (s.strand d).fiberSelf = some f
  | .queue d, f => f ∈ (s.strand d).queue
  | .child d h, f => ∃ frame, atHeight h (s.strand d).frames = some frame ∧ frame.fiberChild = some f

variable [DecidableEq ω] [DecidableEq δ] [DecidableEq β]

abbrev setStrand (s : CactusState ω δ β) (d : δ) (x : CactusStrand ω δ β) : CactusState ω δ β :=
  { s with strand := setAt s.strand d x }

abbrev setCurrent (s : CactusState ω δ β) (w : ω) (fiber : Option β) : CactusState ω δ β :=
  { s with current := setAt s.current w fiber }

/-- `cilk_fiber_allocate` from the pool of a worker. -/
def cilkFiberAllocate (s : CactusState ω δ β) (w : ω) (heap heapOfParent : Option β) :
    Option (Option β × CactusState ω δ β) :=
  match (s.fiberPool w).fibers, heap, s.globalPool, heapOfParent with
  | fiber :: fibers, _, _, _ =>
      some (some fiber, { s with fiberPool := setAt s.fiberPool w { s.fiberPool w with fibers := fibers } })
  | [], none, fiber :: fibers, _ => some (some fiber, { s with globalPool := fibers })
  | [], some fiber, _, _ | [], none, [], some fiber =>
      if fiber ∈ s.allocated then none else some (some fiber, { s with allocated := fiber :: s.allocated })
  | [], none, [], none => some (none, s)

/-- `cilk_fiber_remove_reference` with the pool of a worker. -/
def cilkFiberRemoveReference (s : CactusState ω δ β) (w : ω) (fiber : β) : Option (CactusState ω δ β) :=
  ((s.fiberPool w).deallocateSelf fiber).map fun pool => { s with fiberPool := setAt s.fiberPool w pool }

/-- The fiber that `__cilkrts_switch_fibers` takes. -/
def takeFiber (s : CactusState ω δ β) (w : ω) (heap heapOfParent : Option β) :
    Option (Option β × CactusState ω δ β) :=
  let idx := s.futureFiberPoolIdx w
  if 0 ≤ idx then
    some (s.futureFiberPool w idx.toNat,
      { s with futureFiberPoolIdx := setAt s.futureFiberPoolIdx w (idx - 1) })
  else s.cilkFiberAllocate w heap heapOfParent

/-- The end of a future's fiber: into the cache if there is room, else `cilk_fiber_remove_reference`. -/
def returnFiber (s : CactusState ω δ β) (w : ω) (fiber : β) : Option (CactusState ω δ β) :=
  let idx := s.futureFiberPoolIdx w
  if idx < maxFutureFibersInPool - 1 then
    some { s with
      futureFiberPool := setAt s.futureFiberPool w (setAt (s.futureFiberPool w) (idx + 1).toNat (some fiber))
      futureFiberPoolIdx := setAt s.futureFiberPoolIdx w (idx + 1) }
  else s.cilkFiberRemoveReference w fiber

end CactusState

/-- The function of a strand invokes another one. -/
def CactusStrand.push (x : CactusStrand ω δ β) (invocation : Invocation δ β) : CactusStrand ω δ β :=
  { x with frames := .enter invocation :: x.frames }

/-- A strand that has ended. -/
def CactusStrand.ended (ω δ β : Type) : CactusStrand ω δ β := ⟨.over, [], none, [], none⟩

variable [DecidableEq ω] [DecidableEq δ] [DecidableEq β]

instance (frame : CactusFrame δ β) : Decidable frame.synced := inferInstanceAs (Decidable (_ ∧ _))

namespace CactusState

/-- `finish_spawn_return_on_user_stack` of the strand `d`, whose parent is at a height of the strand `p`,
and the switch into the runtime. -/
def finishSpawnReturn (s : CactusState ω δ β) (w : ω) (d p : δ) (height : Nat) (fiberSelf : β) :
    Option (CactusState ω δ β) :=
  match atHeight height (s.strand p).frames with
  | some parent =>
      let notLeftmost := parent.children.head? ≠ some d ∨ parent.fiberChild ≠ none
      let unlink := fun parent : CactusFrame δ β => { parent with
        children := parent.children.erase d
        fiberChild := if notLeftmost then parent.fiberChild else some fiberSelf }
      let spliced := (s.setStrand p { s.strand p with
        frames := modifyHeight height unlink (s.strand p).frames }).setStrand d (.ended ω δ β)
      -- `fiber_to_free`
      if notLeftmost then (spliced.setCurrent w none).cilkFiberRemoveReference w fiberSelf
      else some (spliced.setCurrent w none)
  | none => none

/-- `detach_for_steal`, where `x` is the strand, `younger` and `child` go to the strand `c`, and `parent` and
`below` are stolen. -/
def detachForSteal (s : CactusState ω δ β) (u : ω) (d c : δ) (younger : List (CactusFrame δ β))
    (child parent : CactusFrame δ β) (below : List (CactusFrame δ β)) : Option (CactusState ω δ β) :=
  let x := s.strand d
  match child.invocation with
  | .spawned =>
      match s.spare u with
      | some fiber =>
          let child := { child with invocation := .spawnedStolen d below.length }
          let parent := { parent with
            children := parent.children ++ [c]
            home := if parent.synced then x.fiberSelf else parent.home }
          some { ((s.setStrand c { x with frames := younger ++ [child] }).setStrand d
            ⟨.on u, parent :: below, some fiber, [], none⟩).setCurrent u (some fiber) with
            spare := setAt s.spare u none }
      | none => none
  | .future fiber _ =>
      match x.queue, x.fiberSelf with
      | popped :: queue, some fiberSelf =>
          let child := { child with invocation := .futureStolen fiber }
          some (((s.setStrand c { x with
            frames := younger ++ [child], fiberSelf := some popped, queue := queue }).setStrand d
            ⟨.on u, parent :: below, some fiberSelf, [], none⟩).setCurrent u (some fiberSelf))
      | _, _ => none
  | _ => none

end CactusState

/-- One step. After an exception has left a future the program goes on in ways that are left out. -/
def cactusStep (s : CactusState ω δ β) (label : CactusLabel ω δ β) : Option (CactusState ω δ β) :=
  if s.unwound then none
  else match label with
  | .call d =>
      match (s.strand d).place with
      | .on _ => some (s.setStrand d ((s.strand d).push .called))
      | _ => none
  | .spawn d =>
      match (s.strand d).place with
      | .on _ => some (s.setStrand d ((s.strand d).push .spawned))
      | _ => none
  | .spawnFuture d heap heapOfParent =>
      match (s.strand d).place with
      | .on w =>
          match s.takeFiber w heap heapOfParent, s.current w with
          | some (some fiber, s), some initial =>
              let x := { s.strand d with queue := (s.strand d).queue ++ [fiber] }
              some ((s.setStrand d (x.push (.future fiber initial))).setCurrent w (some fiber))
          | _, _ => none
      | _ => none
  | .leave d =>
      match (s.strand d).place, (s.strand d).frames with
      | .on _, frame :: below =>
          if frame.synced ∧ (frame.invocation = .called ∨ frame.invocation = .spawned) then
            some (s.setStrand d { s.strand d with frames := below })
          else none
      | _, _ => none
  | .futureReturn d =>
      match (s.strand d).place, (s.strand d).frames with
      | .on w, frame :: below =>
          match frame.invocation, s.current w with
          | .future _ initial, some current =>
              if frame.synced ∧ (s.strand d).queue ≠ [] then
                let x := { s.strand d with frames := below, queue := (s.strand d).queue.dropLast }
                ((s.setStrand d x).setCurrent w (some initial)).returnFiber w current
              else none
          | _, _ => none
      | _, _ => none
  | .allocate u heap heapOfParent =>
      if s.current u = none ∧ s.spare u = none then
        (s.cilkFiberAllocate u heap heapOfParent).map fun (fiber, s) =>
          { s with spare := setAt s.spare u fiber }
      else none
  | .giveBack u =>
      match s.spare u with
      | some fiber => { s with spare := setAt s.spare u none }.cilkFiberRemoveReference u fiber
      | none => none
  | .steal u d c =>
      if s.current u = none ∧ (s.strand c).place = .unused then
        match (s.strand d).place, splitOldest (s.strand d).frames with
        | .on _, some (younger, child, parent :: below) | .suspended, some (younger, child, parent :: below) =>
            s.detachForSteal u d c younger child parent below
        | _, _ => none
      else none
  | .childReturn d =>
      match (s.strand d).place, (s.strand d).frames with
      | .on w, [frame] =>
          match frame.invocation, (s.strand d).fiberSelf with
          | .spawnedStolen p height, some fiberSelf =>
              if frame.synced then s.finishSpawnReturn w d p height fiberSelf else none
          | _, _ => none
      | _, _ => none
  | .futureReturnStolen d =>
      match (s.strand d).place, (s.strand d).frames with
      | .on w, [frame] =>
          match frame.invocation, (s.strand d).fiberSelf with
          | .futureStolen _, some fiberSelf =>
              if frame.synced then
                ((s.setStrand d (.ended ω δ β)).setCurrent w none).cilkFiberRemoveReference w fiberSelf
              else none
          | _, _ => none
      | _, _ => none
  | .stall d =>
      match (s.strand d).place, (s.strand d).frames, (s.strand d).fiberSelf with
      | .on w, frame :: _, some fiberSelf =>
          if frame.synced then none
          else
            let x := { s.strand d with place := .stalled, fiberSelf := none }
            ((s.setStrand d x).setCurrent w none).cilkFiberRemoveReference w fiberSelf
      | _, _, _ => none
  | .resumeStalled u d =>
      match (s.strand d).place, (s.strand d).frames with
      | .stalled, frame :: below =>
          match frame.fiberChild with
          | some fiber =>
              if s.current u = none ∧ s.spare u = none ∧ frame.children = [] then
                let frame := { frame with fiberChild := none, home := none }
                some ((s.setStrand d { s.strand d with
                  place := .on u, frames := frame :: below, fiberSelf := some fiber }).setCurrent u (some fiber))
              else none
          | none => none
      | _, _ => none
  | .suspend d =>
      match (s.strand d).place with
      | .on w =>
          some ((s.setStrand d { s.strand d with place := .suspended, fiber := s.current w }).setCurrent w none)
      | _ => none
  | .resume u d =>
      match (s.strand d).place, (s.strand d).fiber with
      | .suspended, some fiber =>
          if s.current u = none ∧ s.spare u = none then
            some ((s.setStrand d { s.strand d with place := .on u, fiber := none }).setCurrent u (some fiber))
          else none
      | _, _ => none
  | .handOff d e =>
      match (s.strand d).place, (s.strand d).frames, (s.strand e).place, (s.strand e).fiber with
      | .on w, frame :: below, .suspended, some fiber =>
          match frame.invocation.futureFiber?, s.current w with
          | some _, some current =>
              -- `deque_destroy` asserts `head == tail`
              if frame.synced ∧ (frame :: below).all (!·.invocation.inDeque) then
                (((s.setStrand d { s.strand d with place := .dropped }).setStrand e
                  { s.strand e with place := .on w, fiber := none }).setCurrent w (some fiber)).returnFiber
                  w current
              else none
          | _, _ => none
      | _, _, _, _ => none
  | .throw d =>
      match (s.strand d).place, (s.strand d).frames with
      | .on _, frame :: below =>
          match frame.invocation.futureFiber? with
          | some _ => some { s.setStrand d { s.strand d with frames := below } with unwound := true }
          | none => none
      | _, _ => none

/-- After `make_worker`, where the outermost functions are about to run. -/
structure CactusState.Initial (s : CactusState ω δ β) : Prop where
  idx : ∀ w, s.futureFiberPoolIdx w = maxFutureFibersInPool - 1
  exclusive : Exclusive s.Holds
  allocated : ∀ place f, s.Holds place f → f ∈ s.allocated
  pools : ∀ w, (s.fiberPool w).fibers.Nodup ∧ (s.fiberPool w).size ≤ (s.fiberPool w).maxSize.toNat
  globalPool : s.globalPool.Nodup
  spare : ∀ w, s.spare w = none
  strand : ∀ d, (s.strand d = ⟨.unused, [], none, [], none⟩) ∨
    ∃ w f, s.strand d = ⟨.on w, [.enter .root], some f, [], none⟩ ∧ s.current w = some f
  current : ∀ w f, s.current w = some f → ∃ d, (s.strand d).place = .on w
  unwound : s.unwound = false

variable (ω δ β) in
def cactusMachine : Machine (CactusState ω δ β) (CactusLabel ω δ β) where
  start := CactusState.Initial
  step := cactusStep

end CilkL
