/-
Module: CilkL.Runtime.FutureFiberQueue
Layer: Runtime
Purpose: One deque with its queue of future fibers (`cilk_future_fiber_deque.cpp`). The frames of the THE
  protocol carry the fiber of the future they spawned: `none` is the parent of an ordinary spawn,
  `some fiber` a frame pushed with `CILK_FRAME_FUTURE_PARENT` set while its future runs on `fiber`. The
  steps of the THE protocol are interleaved with those of `__cilkrts_switch_fibers`,
  `__cilkrts_switch_fibers_back`, `__cilkrts_reset_future_fiber_deque` and of the
  `__cilkrts_pop_head_future_fiber` that `detach_for_steal` calls before the lock is released. A failed
  `CILK_ASSERT` stops its side for good.
Imports: CilkL.Runtime.TheProtocol
Trusted boundary: human-reviewed spec (translated from cilk_future_fiber_deque.cpp,
  cilk-abi-future_utils.cpp, cilk-abi-future.cpp, except-gcc.cpp, deque.c and scheduler.c)
Main exports: FiberOwnerPc, FiberThiefPc, FiberState, FiberLabel, fiberStep, fiberQueueMachine, fiberRunStep,
  fiberRunMachine
Open obligations: none
-/
import CilkL.Runtime.TheProtocol

namespace CilkL

/-- Where the owner is in the functions of the future-fiber queue. -/
inductive FiberOwnerPc (φ : Type) where
  /-- Outside of them. -/
  | idle
  /-- In `__cilkrts_enqueue_future_fiber`, about to store the new fiber. -/
  | enqueueStore (fiber : φ)
  /-- About to assert that the queue has room. -/
  | enqueueAssert (fiber : φ)
  /-- About to store `fiber_tail`. -/
  | enqueueTail (fiber : φ)
  /-- On the new fiber, about to `__cilkrts_detach` from the future's parent. -/
  | enqueued (fiber : φ)
  /-- The future on `fiber` returned to its parent: about to read `fiber_tail`. -/
  | popTail (fiber : φ)
  /-- In `__cilkrts_pop_tail_future_fiber`, about to assert `t >= fiber_head`. -/
  | popTailAssert (fiber : φ) (t : Int)
  /-- About to store `fiber_tail`. -/
  | popTailStore (fiber : φ) (t : Int)
  /-- About to return `*t`. -/
  | popTailReturn (fiber : φ) (t : Int)
  /-- The parent was stolen: about to store `fiber_head` in `__cilkrts_reset_future_fiber_deque`. -/
  | resetHead
  /-- About to store `fiber_tail`. -/
  | resetTail
  /-- The assertion that the queue has room failed. -/
  | overflow
  /-- The assertion `t >= fiber_head` failed. -/
  | failed
deriving DecidableEq, Repr

/-- Where the thief that holds the lock is in `__cilkrts_pop_head_future_fiber`. -/
inductive FiberThiefPc (φ : Type) where
  /-- Outside of it. -/
  | idle
  /-- The stolen frame's future runs on `fiber`: about to advance `fiber_head`. -/
  | popHead (fiber : φ)
  /-- `fiber_head` was advanced from `h`; about to assert `fiber_head <= fiber_tail`. -/
  | popHeadAssert (fiber : φ) (h : Int)
  /-- About to return `*h`. -/
  | popHeadReturn (fiber : φ) (h : Int)
  /-- The assertion failed. -/
  | failed
deriving DecidableEq, Repr

/-- A fiber taken from the queue: the one the future runs on and the one the queue gave. -/
structure FiberPop (φ : Type) where
  running : φ
  popped : Option φ
deriving DecidableEq, Repr

/-- The deque, its queue of future fibers and the history of the pops. -/
structure FiberState (φ : Type) where
  the : TheState (Option φ)
  fiberHead : Int
  fiberTail : Int
  fiberLtqLimit : Int
  fiberLtq : Int → Option φ
  owner : FiberOwnerPc φ
  thief : FiberThiefPc φ
  /-- The fibers thieves popped, oldest first. -/
  headPops : List (FiberPop φ)
  /-- The fibers the owner dropped, oldest first. -/
  tailPops : List (FiberPop φ)

/-- A deque after `deque_init`. -/
def FiberState.initial (φ : Type) (ltqLimit protectedTail fiberLtqLimit : Int) : FiberState φ :=
  { the := .initial _ ltqLimit protectedTail, fiberHead := 0, fiberTail := 0
    fiberLtqLimit := fiberLtqLimit, fiberLtq := fun _ => none, owner := .idle, thief := .idle
    headPops := [], tailPops := [] }

/-- The atomic steps. -/
inductive FiberLabel (φ : Type) where
  /-- A step of the THE protocol. -/
  | the (label : TheLabel (Option φ))
  /-- The owner calls `__cilkrts_switch_fibers`, which takes `fiber` for the new future. -/
  | switchFibers (fiber : φ)
  | enqueueStore
  | enqueueAssert
  | enqueueTail
  | popTailRead
  | popTailAssert
  | popTailStore
  | popTailReturn
  | resetHead
  | resetTail
  | popHeadAdvance
  | popHeadAssert
  | popHeadReturn
deriving DecidableEq, Repr

/-- The steps of the thieves and of the worker that resumes a suspended deque. -/
def TheLabel.Foreign {α : Type} : TheLabel α → Prop
  | .resume | .thiefLock _ | .giveUp | .incrementE | .testTail | .testProtected | .abort
  | .advanceHead | .fetchFrame | .decrementE | .thiefUnlock => True
  | _ => False

instance TheLabel.decidableForeign {α : Type} (label : TheLabel α) : Decidable label.Foreign := by
  cases label <;> unfold TheLabel.Foreign <;> infer_instance

variable {φ : Type}

/-- The fiber of the future whose parent is pushed next. -/
def FiberOwnerPc.payload : FiberOwnerPc φ → Option φ
  | .enqueued fiber => some fiber
  | _ => none

/-- Whether a step of the THE protocol is due: between the queue's functions the owner pushes frames of
    ordinary spawns, after an enqueue the future's parent, and in the queue's functions it takes no step
    of the protocol except those that end the locked check. -/
def FiberOwnerPc.Allows (pc : FiberOwnerPc φ) (label : TheLabel (Option φ)) : Prop :=
  match label with
  | .pushSlot frame => frame = pc.payload ∧ (pc = .idle ∨ pc.payload ≠ none)
  | .pushTail => pc = .idle ∨ pc.payload ≠ none
  | .popUndo | .ownerUnlock => True
  | label => label.Foreign ∨ pc = .idle

instance FiberOwnerPc.decidableAllows [DecidableEq φ] (pc : FiberOwnerPc φ)
    (label : TheLabel (Option φ)) : Decidable (pc.Allows label) := by
  cases label <;> unfold FiberOwnerPc.Allows <;> infer_instance

/-- What the owner does with the queue after a pop of `frame`: switch back to the parent's fiber when
    `frame` spawned a future. -/
def FiberOwnerPc.afterPop (frame : Option (Pushed (Option φ))) : FiberOwnerPc φ :=
  match frame.bind Pushed.frame with
  | some fiber => .popTail fiber
  | none => .idle

/-- The owner's place in the queue's functions after a step of the THE protocol from `s` to `s'`. -/
def FiberOwnerPc.next (pc : FiberOwnerPc φ) (label : TheLabel (Option φ))
    (s s' : TheState (Option φ)) : FiberOwnerPc φ :=
  match label with
  | .pushTail => .idle
  | .popCompare =>
      match s'.owner with
      | .running => afterPop s.spawned.getLast?
      | _ => pc
  | .popTest =>
      match s'.owner with
      | .popUndo => .resetHead
      | _ => afterPop s.spawned.getLast?
  | _ => pc

/-- The thief's place after a step of the THE protocol to `s'`: `detach_for_steal` pops a fiber when the
    frame it read has `CILK_FRAME_FUTURE_PARENT`. -/
def FiberThiefPc.next (pc : FiberThiefPc φ) (label : TheLabel (Option φ))
    (s' : TheState (Option φ)) : FiberThiefPc φ :=
  match label, s'.thief with
  | .fetchFrame, .detached (some ⟨_, some fiber⟩) => .popHead fiber
  | _, _ => pc

/-- One atomic step. -/
def fiberStep [DecidableEq φ] (s : FiberState φ) : FiberLabel φ → Option (FiberState φ)
  | .the label =>
      if s.owner.Allows label ∧ (label = .thiefUnlock → s.thief = .idle) then
        match theStep s.the label with
        | some the =>
            some { s with
              the := the
              owner := s.owner.next label s.the the
              thief := s.thief.next label the }
        | none => none
      else none
  | .switchFibers fiber =>
      if s.owner = .idle ∧ s.the.owner = .running then some { s with owner := .enqueueStore fiber }
      else none
  | .enqueueStore =>
      match s.owner with
      | .enqueueStore fiber =>
          some { s with
            fiberLtq := fun i => if i = s.fiberTail then some fiber else s.fiberLtq i
            owner := .enqueueAssert fiber }
      | _ => none
  | .enqueueAssert =>
      match s.owner with
      | .enqueueAssert fiber =>
          some { s with
            owner := if s.fiberTail + 1 < s.fiberLtqLimit then .enqueueTail fiber else .overflow }
      | _ => none
  | .enqueueTail =>
      match s.owner with
      | .enqueueTail fiber =>
          some { s with fiberTail := s.fiberTail + 1, owner := .enqueued fiber }
      | _ => none
  | .popTailRead =>
      match s.owner, s.the.owner with
      | .popTail fiber, .running => some { s with owner := .popTailAssert fiber (s.fiberTail - 1) }
      | _, _ => none
  | .popTailAssert =>
      match s.owner with
      | .popTailAssert fiber t =>
          some { s with owner := if s.fiberHead ≤ t then .popTailStore fiber t else .failed }
      | _ => none
  | .popTailStore =>
      match s.owner with
      | .popTailStore fiber t => some { s with fiberTail := t, owner := .popTailReturn fiber t }
      | _ => none
  | .popTailReturn =>
      match s.owner with
      | .popTailReturn fiber t =>
          some { s with owner := .idle, tailPops := s.tailPops ++ [⟨fiber, s.fiberLtq t⟩] }
      | _ => none
  | .resetHead =>
      match s.owner, s.the.owner with
      | .resetHead, .running => some { s with fiberHead := 0, owner := .resetTail }
      | _, _ => none
  | .resetTail =>
      match s.owner with
      | .resetTail => some { s with fiberTail := s.fiberHead, owner := .idle }
      | _ => none
  | .popHeadAdvance =>
      match s.thief with
      | .popHead fiber =>
          some { s with
            fiberHead := s.fiberHead + 1
            thief := .popHeadAssert fiber s.fiberHead }
      | _ => none
  | .popHeadAssert =>
      match s.thief with
      | .popHeadAssert fiber h =>
          some { s with
            thief := if s.fiberHead ≤ s.fiberTail then .popHeadReturn fiber h else .failed }
      | _ => none
  | .popHeadReturn =>
      match s.thief with
      | .popHeadReturn fiber h =>
          some { s with thief := .idle, headPops := s.headPops ++ [⟨fiber, s.fiberLtq h⟩] }
      | _ => none

variable (φ) in
/-- A deque with its queue of future fibers. -/
def fiberQueueMachine [DecidableEq φ] : Machine (FiberState φ) (FiberLabel φ) where
  start s := ∃ ltqLimit protectedTail fiberLtqLimit,
    s = .initial φ ltqLimit protectedTail fiberLtqLimit
  step := fiberStep

/-- The steps with exceptions. -/
inductive FiberRunLabel (φ : Type) where
  /-- A step that no exception is about. -/
  | normal (label : FiberLabel φ)
  /-- `__cilkrts_return_exception` in a helper whose parent was stolen: under the lock
      `__cilkrts_pop_tail` finds the deque empty, and `__cilkrts_exception_from_spawn` leaves it. -/
  | exceptionFromSpawn
deriving DecidableEq, Repr

/-- One atomic step with exceptions. A deque that its worker left, by this step, by a return to a stolen
    parent or at a stalled sync, is set up again for what the worker steals. -/
def fiberRunStep [DecidableEq φ] (s : FiberState φ) : FiberRunLabel φ → Option (FiberState φ)
  | .normal label => fiberStep s label
  | .exceptionFromSpawn =>
      if s.owner = .idle ∧ s.the.owner = .running ∧ s.the.lock = .free ∧ s.the.spawned ≠ [] ∧
          ¬ s.the.head < s.the.tail then
        some { s with the := { s.the with spawned := [] } }
      else none

variable (φ) in
/-- A deque from `deque_init` on, both of whose arrays have `ltqsize` slots. -/
def fiberRunMachine [DecidableEq φ] (ltqsize : Int) : Machine (FiberState φ) (FiberRunLabel φ) where
  start s := ∃ protectedTail, s = .initial φ ltqsize protectedTail ltqsize
  step := fiberRunStep

end CilkL
