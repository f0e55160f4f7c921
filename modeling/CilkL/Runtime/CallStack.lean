/-
Module: CilkL.Runtime.CallStack
Layer: Runtime
Purpose: The promotion of a call chain to full frames: `unroll_call_stack` with `make_child`,
  `make_unrunnable` and `__cilkrts_advance_frame`, on the memory of the stack frames and full frames, and
  the strand that builds the chains: calls, spawns, the spawns of futures and what is stolen from it. The
  frames of a strand are a list beside their memory, with a mark where the continuation is in the deque.
  A failed assertion and a loop that runs out of fuel have no result. The worker's lock and the locks of
  the full frames, the pedigrees and the exceptions of the frames are left out.
Imports: CilkL.Library.Machine, CilkL.Runtime.DequePool
Trusted boundary: human-reviewed spec (translated from scheduler.c, full_frame.c, sysdep-unix.c, cilk-abi.c
  and cilk-abi-future.cpp)
Main exports: CallFrame, FrameRecord, FrameHeap, FrameHeap.makeChild, FrameHeap.unrollCallStack, stackStep,
  stackMachine
Open obligations: none
-/
import CilkL.Library.Machine
import CilkL.Runtime.DequePool

namespace CilkL

/-- The flags of a stack frame. -/
structure FrameFlags where
  stolen : Bool
  unsynched : Bool
  detached : Bool
  futureParent : Bool
  last : Bool
  suspended : Bool
deriving DecidableEq, Repr

/-- The flags of a frame that is entered. -/
def FrameFlags.entered (last : Bool) : FrameFlags where
  stolen := false
  unsynched := false
  detached := false
  futureParent := false
  last := last
  suspended := false

/-- `sf->flags & mask` in `unroll_call_stack`. -/
def FrameFlags.masked (flags : FrameFlags) : Bool :=
  flags.detached || flags.stolen || flags.last

/-- `__cilkrts_stack_frame`. -/
structure CallFrame (ω φ : Type) where
  flags : FrameFlags
  callParent : Option φ
  worker : Option ω
  /-- `SP(sf)`. -/
  sp : Int
  /-- `FP(sf)`. -/
  fp : Int
deriving DecidableEq, Repr

/-- `full_frame`. -/
@[ext]
structure FrameRecord (ω φ ψ β : Type) where
  parent : Option ψ
  rightmostChild : Option ψ
  leftSibling : Option ψ
  rightSibling : Option ψ
  callStack : Option φ
  joinCounter : Int
  isCallChild : Bool
  fiberSelf : Option β
  syncSp : Int
  frameSize : Int
  syncMaster : Option ω
deriving DecidableEq, Repr

/-- The stack frames and the full frames. -/
structure FrameHeap (ω φ ψ β : Type) where
  frames : φ → CallFrame ω φ
  fulls : ψ → FrameRecord ω φ ψ β

/-- The argument `fiber` of `make_child`. -/
inductive ChildFiber (β : Type) where
  | null
  /-- `PLACEHOLDER_FIBER`. -/
  | placeholder
  | fiber (f : β)
deriving DecidableEq, Repr

/-- The fiber that the parent gets. -/
def ChildFiber.parentFiber {β : Type} : ChildFiber β → Option β
  | .fiber f => some f
  | _ => none

variable {ω φ ψ β : Type} [DecidableEq ω] [DecidableEq φ] [DecidableEq ψ]

/-- `__cilkrts_make_full_frame`. -/
def madeFullFrame (sf : Option φ) : FrameRecord ω φ ψ β where
  parent := none
  rightmostChild := none
  leftSibling := none
  rightSibling := none
  callStack := sf
  joinCounter := 0
  isCallChild := false
  fiberSelf := none
  syncSp := 0
  frameSize := 0
  syncMaster := none

namespace FrameHeap

/-- A store into a stack frame. -/
abbrev setFrame (heap : FrameHeap ω φ ψ β) (sf : φ) (frame : CallFrame ω φ) : FrameHeap ω φ ψ β :=
  { heap with frames := setAt heap.frames sf frame }

/-- A store into a full frame. -/
abbrev setFull (heap : FrameHeap ω φ ψ β) (ff : ψ) (record : FrameRecord ω φ ψ β) : FrameHeap ω φ ψ β :=
  { heap with fulls := setAt heap.fulls ff record }

/-- `double_link`. -/
def doubleLink (fulls : ψ → FrameRecord ω φ ψ β) (left right : Option ψ) : ψ → FrameRecord ω φ ψ β :=
  let fulls := match left with
    | some l => setAt fulls l { fulls l with rightSibling := right }
    | none => fulls
  match right with
  | some r => setAt fulls r { fulls r with leftSibling := left }
  | none => fulls

/-- `push_child`. -/
def pushChild (fulls : ψ → FrameRecord ω φ ψ β) (parentFf childFf : ψ) : ψ → FrameRecord ω φ ψ β :=
  let fulls := doubleLink fulls (fulls parentFf).rightmostChild (some childFf)
  let fulls := doubleLink fulls (some childFf) none
  setAt fulls parentFf { fulls parentFf with rightmostChild := some childFf }

/-- The part of `make_child` for a parent that is no future parent. -/
def linkChild (fulls : ψ → FrameRecord ω φ ψ β) (parentFf childFf : ψ) (fiber : ChildFiber β) :
    ψ → FrameRecord ω φ ψ β :=
  let fulls := setAt fulls childFf { fulls childFf with parent := some parentFf }
  let fulls := pushChild fulls parentFf childFf
  let isCallChild := match fiber with
    | .null => true
    | _ => false
  let fulls := setAt fulls childFf { fulls childFf with
    isCallChild := isCallChild, fiberSelf := (fulls parentFf).fiberSelf, syncMaster := none }
  setAt fulls parentFf { fulls parentFf with
    fiberSelf := if isCallChild then none else fiber.parentFiber
    joinCounter := (fulls parentFf).joinCounter + 1 }

/-- `make_child(w, parent_ff, child_sf, fiber)`, where `childFf` is the full frame that is made. -/
def makeChild (heap : FrameHeap ω φ ψ β) (parentFf childFf : ψ) (childSf : Option φ)
    (fiber : ChildFiber β) : Option (FrameHeap ω φ ψ β) :=
  let heap := heap.setFull childFf (madeFullFrame childSf)
  -- `CILK_ASSERT(parent_ff->call_stack)`
  match (heap.fulls parentFf).callStack with
  | some sf =>
      if (heap.frames sf).flags.futureParent then some heap
      else some { heap with fulls := linkChild heap.fulls parentFf childFf fiber }
  | none => none

/-- `__cilkrts_put_stack`. -/
def putStack (heap : FrameHeap ω φ ψ β) (ff : ψ) (sf : φ) : FrameHeap ω φ ψ β :=
  heap.setFull ff { heap.fulls ff with syncSp := (heap.frames sf).sp + (heap.fulls ff).syncSp }

/-- `__cilkrts_make_unrunnable_sysdep`. -/
def makeUnrunnableSysdep (heap : FrameHeap ω φ ψ β) (ff : ψ) (sf : φ) (isLoot : Bool) :
    FrameHeap ω φ ψ β :=
  if isLoot then
    let frame := heap.frames sf
    let record := heap.fulls ff
    let heap := heap.setFull ff { record with
      frameSize := if record.frameSize = 0 then frame.fp - frame.sp else record.frameSize }
    heap.setFrame sf { frame with sp := 0 }
  else heap

/-- `make_unrunnable(w, ff, sf, is_loot, why)`. -/
def makeUnrunnable (heap : FrameHeap ω φ ψ β) (ff : ψ) (sf : φ) (isLoot : Bool) : FrameHeap ω φ ψ β :=
  let heap := heap.setFull ff { heap.fulls ff with callStack := some sf }
  let frame := heap.frames sf
  let heap := heap.setFrame sf { frame with
    flags := { frame.flags with stolen := true, suspended := true }, worker := none }
  let heap := if isLoot ∧ (heap.frames sf).flags.futureParent = false then heap.putStack ff sf else heap
  heap.makeUnrunnableSysdep ff sf isLoot

/-- The loop of `unroll_call_stack` that reverses the call stack from `sf` on, onto `revSf`: the frames, and
the last `rev_sf`. -/
def reverseCalls : Nat → FrameHeap ω φ ψ β → φ → Option φ → Option (FrameHeap ω φ ψ β × φ)
  | 0, _, _, _ => none
  | fuel + 1, heap, sf, revSf =>
      let frame := heap.frames sf
      let heap := heap.setFrame sf { frame with callParent := revSf }
      match if frame.flags.masked then none else frame.callParent with
      | some tSf => reverseCalls fuel heap tSf (some sf)
      | none => some (heap, sf)

/-- `__cilkrts_advance_frame`. -/
def advanceFrame (heap : FrameHeap ω φ ψ β) (sf : φ) : FrameHeap ω φ ψ β × Option φ :=
  (heap.setFrame sf { heap.frames sf with callParent := none }, (heap.frames sf).callParent)

/-- The loop of `unroll_call_stack` that promotes the frames after `sf`; `fresh` are the blocks that the
allocator returns. -/
def promoteCalls (lootSf : φ) :
    List ψ → FrameHeap ω φ ψ β → ψ → φ → Option (FrameHeap ω φ ψ β × ψ)
  | [], heap, ff, sf =>
      match heap.advanceFrame sf with
      | (heap, none) => some (heap, ff)
      | (_, some _) => none
  | childFf :: fresh, heap, ff, sf =>
      match heap.advanceFrame sf with
      | (heap, none) => some (heap, ff)
      | (heap, some tSf) =>
          match heap.makeChild ff childFf (some tSf) .null with
          | some heap => promoteCalls lootSf fresh (heap.makeUnrunnable childFf tSf (tSf = lootSf)) childFf tSf
          | none => none

/-- `unroll_call_stack(w, ff, loot_sf)`, where `frameFf` is the `frame_ff` of the active deque of `w`. -/
def unrollCallStack (fuel : Nat) (heap : FrameHeap ω φ ψ β) (w : ω) (frameFf : Option ψ) (ff : ψ)
    (lootSf : φ) (fresh : List ψ) : Option (FrameHeap ω φ ψ β × ψ) :=
  let frame := heap.frames lootSf
  let heap :=
    if (frame.worker ≠ some w ∨ frameFf ≠ some ff) ∧ frame.flags.futureParent = false then
      heap.setFrame lootSf { frame with flags := { frame.flags with unsynched := true } }
    else heap
  match reverseCalls fuel heap lootSf none with
  | some (heap, sf) => promoteCalls lootSf fresh (heap.makeUnrunnable ff sf (sf = lootSf)) ff sf
  | none => none

end FrameHeap

/-! ### The strand -/

/-- Where a strand is in the spawn of a spawn helper or of a future. -/
inductive StackPhase where
  | running
  /-- The current frame was marked as a future parent. -/
  | futureStarted
  /-- The helper was entered. -/
  | helperEntered
  /-- Its parent is in the deque, and the helper is about to set its flag. -/
  | helperPublished
  /-- The current frame goes on behind the future, and is about to take the mark away. -/
  | futureJoined
deriving DecidableEq, Repr

/-- A strand, the worker that runs it and the memory of the frames. -/
structure StackState (ω φ ψ β : Type) where
  heap : FrameHeap ω φ ψ β
  owner : ω
  /-- The frames of the strand, the current one first. -/
  calls : List (StackCall φ)
  phase : StackPhase

/-- The steps. -/
inductive StackLabel (ω φ ψ β : Type) where
  /-- `__cilkrts_enter_frame_1` of a called function. -/
  | enterFrame (sf : φ) (sp fp : Int)
  | startFuture
  /-- `__cilkrts_enter_frame_fast_1` of a helper. -/
  | enterHelper (sf : φ) (sp fp : Int)
  /-- The two stores of `__cilkrts_detach`. -/
  | publish
  | setDetached
  /-- A called function returns. -/
  | leaveFrame
  /-- A helper returns to its parent, which was not stolen. -/
  | undoDetach
  | endFuture
  /-- The strand ends in its oldest frame. -/
  | finish
  /-- The worker goes on with a frame that was stolen or suspended. -/
  | resume (w : ω) (sf : φ) (frame : CallFrame ω φ)
  /-- `detach_for_steal` by worker `w`, of the frame at the head. -/
  | steal (w : ω) (frameFf : Option ψ) (ff : ψ) (fresh : List ψ)
  /-- Other code stores into full frames and into stack frames of other strands. -/
  | other (heap : FrameHeap ω φ ψ β)

/-- The frames of a strand. -/
def StackState.frames (s : StackState ω φ ψ β) : List φ := s.calls.map (·.frame)

/-- A frame is entered by the owner. -/
def StackState.enter (s : StackState ω φ ψ β) (sf : φ) (sp fp : Int) (phase : StackPhase) :
    StackState ω φ ψ β :=
  { s with
    heap := s.heap.setFrame sf ⟨.entered false, s.frames.head?, some s.owner, sp, fp⟩
    calls := ⟨sf, false⟩ :: s.calls
    phase := phase }

/-- The flags of the current frame are replaced. -/
def StackState.setFlags (s : StackState ω φ ψ β) (sf : φ) (change : FrameFlags → FrameFlags)
    (phase : StackPhase) : StackState ω φ ψ β :=
  { s with
    heap := s.heap.setFrame sf { s.heap.frames sf with flags := change (s.heap.frames sf).flags }
    phase := phase }

/-- The frames that `unroll_call_stack` walks over, of those from the stolen one on: up to the first that
stops it. -/
def chainOf (frames : φ → CallFrame ω φ) : List φ → List φ
  | [] => []
  | sf :: older => if (frames sf).flags.masked then [sf] else sf :: chainOf frames older

/-- `sf->worker = victim` in `detach_for_steal`. -/
def StackState.lootHeap (s : StackState ω φ ψ β) (sf : φ) : FrameHeap ω φ ψ β :=
  s.heap.setFrame sf { s.heap.frames sf with worker := some s.owner }

/-- The phase in which a frame goes on. -/
def StackState.phaseOf (s : StackState ω φ ψ β) (sf : φ) : StackPhase :=
  if (s.heap.frames sf).flags.futureParent then .futureJoined else .running

def stackStep (s : StackState ω φ ψ β) : StackLabel ω φ ψ β → Option (StackState ω φ ψ β)
  | .enterFrame sf sp fp =>
      if s.phase = .running ∧ s.calls ≠ [] ∧ sf ∉ s.frames then some (s.enter sf sp fp .running) else none
  | .startFuture =>
      match s.calls, s.phase with
      | call :: _, .running => some (s.setFlags call.frame ({ · with futureParent := true }) .futureStarted)
      | _, _ => none
  | .enterHelper sf sp fp =>
      if (s.phase = .running ∨ s.phase = .futureStarted) ∧ s.calls ≠ [] ∧ sf ∉ s.frames then
        some (s.enter sf sp fp .helperEntered)
      else none
  | .publish =>
      match s.calls, s.phase with
      | helper :: parent :: calls, .helperEntered =>
          some { s with
            calls := helper :: { parent with detached := true } :: calls, phase := .helperPublished }
      | _, _ => none
  | .setDetached =>
      match s.calls, s.phase with
      | helper :: _, .helperPublished => some (s.setFlags helper.frame ({ · with detached := true }) .running)
      | _, _ => none
  | .leaveFrame =>
      match s.calls, s.phase with
      | _ :: parent :: calls, .running =>
          if parent.detached then none else some { s with calls := parent :: calls }
      | _, _ => none
  | .undoDetach =>
      match s.calls, s.phase with
      | _ :: parent :: calls, .running =>
          if parent.detached then
            some { s with
              calls := { parent with detached := false } :: calls, phase := s.phaseOf parent.frame }
          else none
      | _, _ => none
  | .endFuture =>
      match s.calls, s.phase with
      | call :: _, .futureJoined => some (s.setFlags call.frame ({ · with futureParent := false }) .running)
      | _, _ => none
  | .finish =>
      match s.calls, s.phase with
      | [_], .running => some { s with calls := [] }
      | _, _ => none
  | .resume w sf frame =>
      if s.calls = [] ∧ frame.flags.stolen = true then
        let resumed := { s with heap := s.heap.setFrame sf frame, owner := w, calls := [⟨sf, false⟩] }
        some { resumed with phase := resumed.phaseOf sf }
      else none
  | .steal w frameFf ff fresh =>
      match headOf s.calls with
      | some (younger, sf, older) =>
          -- the allocator returns new blocks, as many as it is asked for
          if (ff :: fresh).Nodup ∧
              fresh.length + 1 = (chainOf s.heap.frames (sf :: older.map (·.frame))).length then
            ((s.lootHeap sf).unrollCallStack (older.length + 1) w frameFf ff sf fresh).map fun promoted =>
              { s with heap := promoted.1, calls := younger }
          else none
      | none => none
  | .other heap =>
      if ∀ sf ∈ s.frames, heap.frames sf = s.heap.frames sf then some { s with heap := heap } else none

/-- The first frame of a user's thread, with nothing in the deque. -/
def StackState.Initial (s : StackState ω φ ψ β) : Prop :=
  ∃ sf, s.calls = [⟨sf, false⟩] ∧ (s.heap.frames sf).flags = .entered true ∧ s.phase = .running

variable (ω φ ψ β) in
def stackMachine : Machine (StackState ω φ ψ β) (StackLabel ω φ ψ β) where
  start := StackState.Initial
  step := stackStep

end CilkL
