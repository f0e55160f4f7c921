/-
Module: CilkL.Runtime.SiblingList
Layer: Runtime
Purpose: The sibling lists of the full frames and the places they name for reducer maps and exceptions: frames
  are made, pushed under a parent by steals and calls, return to it under its lock, and are destroyed, and
  the parents of returning children and the frames at a sync compute the fields to their left and use them
  until they release the lock. One step is one critical section or a part of one between two looks at the
  lists. The children that are pushed and not unlinked are kept beside the memory in the order of the pushes.
Imports: CilkL.Runtime.CallStack
Trusted boundary: human-reviewed spec (translated from scheduler.c and full_frame.c)
Main exports: unlinkChild, LeftSlot, SpliceLeftPtrs, computeLeftPtrsForSpawnReturn, computeLeftPtrsForSync,
  SiblingState, SiblingLabel, siblingStep, siblingMachine
Open obligations: none
-/
import CilkL.Runtime.CallStack

namespace CilkL

variable {ω φ ψ β : Type}

/-! ### The left of a frame -/

/-- A pair of fields that a frame's results are deposited in. -/
inductive LeftSlot (ψ : Type) where
  /-- `right_reducer_map` or `right_pending_exception`. -/
  | right (ff : ψ)
  /-- `children_reducer_map` or `child_pending_exception`. -/
  | children (ff : ψ)
deriving DecidableEq, Repr

/-- `splice_left_ptrs`. -/
structure SpliceLeftPtrs (ψ : Type) where
  mapPtr : LeftSlot ψ
  exceptionPtr : LeftSlot ψ
deriving DecidableEq, Repr

/-- `compute_left_ptrs_for_spawn_return`; `none` where the code uses a null parent. -/
def computeLeftPtrsForSpawnReturn (fulls : ψ → FrameRecord ω φ ψ β) (ff : ψ) :
    Option (SpliceLeftPtrs ψ) :=
  match (fulls ff).leftSibling with
  | some left => some { mapPtr := .right left, exceptionPtr := .right left }
  | none =>
      match (fulls ff).parent with
      | some parentFf => some { mapPtr := .children parentFf, exceptionPtr := .children parentFf }
      | none => none

variable [DecidableEq ψ]

/-- `compute_left_ptrs_for_sync`; `none` where the assertion in it fails. -/
def computeLeftPtrsForSync (fulls : ψ → FrameRecord ω φ ψ β) (ff : ψ) : Option (SpliceLeftPtrs ψ) :=
  match (fulls ff).rightmostChild with
  | some child =>
      if (fulls child).parent = some ff then
        some { mapPtr := .right child, exceptionPtr := .right child }
      else none
  | none => some { mapPtr := .children ff, exceptionPtr := .children ff }

/-- `unlink_child`; `none` where the assertion in it fails. -/
def unlinkChild (fulls : ψ → FrameRecord ω φ ψ β) (parentFf childFf : ψ) :
    Option (ψ → FrameRecord ω φ ψ β) :=
  let fulls := FrameHeap.doubleLink fulls (fulls childFf).leftSibling (fulls childFf).rightSibling
  let clear (fulls : ψ → FrameRecord ω φ ψ β) :=
    setAt fulls childFf { fulls childFf with leftSibling := none, rightSibling := none }
  if (fulls childFf).rightSibling = none then
    -- `CILK_ASSERT(parent_ff->rightmost_child == child_ff)`
    if (fulls parentFf).rightmostChild = some childFf then
      some (clear (setAt fulls parentFf
        { fulls parentFf with rightmostChild := (fulls childFf).leftSibling }))
    else none
  else some (clear fulls)

/-! ### The machine -/

/-- Where a full frame is. -/
inductive FramePlace (ψ : Type) where
  /-- Its memory belongs to the allocator. -/
  | free
  /-- It is in no sibling list: it has no parent, or it was unlinked. -/
  | alone
  | childOf (parentFf : ψ)
deriving DecidableEq, Repr

/-- Who holds the lock of a frame and uses the fields to its left. -/
inductive FrameHold (ψ : Type) where
  /-- A child that returns from a spawn, of which the frame is the parent. -/
  | returning (childFf : ψ) (left : SpliceLeftPtrs ψ)
  /-- The frame itself at a sync. -/
  | syncing (left : SpliceLeftPtrs ψ)
deriving DecidableEq, Repr

structure SiblingState (ω φ ψ β : Type) where
  heap : FrameHeap ω φ ψ β
  place : ψ → FramePlace ψ
  /-- The locks of the frames. -/
  held : ψ → Option (FrameHold ψ)
  /-- The children that were pushed and not unlinked yet, in the order of the pushes. -/
  unfinished : ψ → List ψ

inductive SiblingLabel (ω φ ψ β : Type) where
  /-- `__cilkrts_make_full_frame` for a frame without a parent. -/
  | makeFullFrame (ff : ψ) (sf : Option φ)
  /-- `make_child` in `detach_for_steal` or `unroll_call_stack`. -/
  | makeChild (parentFf childFf : ψ) (childSf : Option φ) (fiber : ChildFiber β)
  /-- `unlink_child` in `finalize_child_for_call`. -/
  | finalizeChild (childFf : ψ)
  /-- A child that returns from a spawn locks its parent, for the first time or after a reduction. -/
  | lockParent (childFf : ψ)
  /-- `__cilkrts_frame_unlock` before a reduction, by a returning child or by a frame at a sync, and the
      unlock at the end of a sync's reductions. -/
  | unlock (ff : ψ)
  /-- `finish_spawn_return_on_user_stack` and the unlock after it. -/
  | finishSpawnReturn (parentFf : ψ)
  /-- A frame at a sync locks itself. -/
  | lockAtSync (ff : ψ)
  | destroyFullFrame (ff : ψ)
  /-- Another store into a full frame, or into memory of the allocator. -/
  | storeFull (ff : ψ) (record : FrameRecord ω φ ψ β)
  /-- A store into a stack frame. -/
  | storeFrame (sf : φ) (frame : CallFrame ω φ)

namespace SiblingState

abbrev leftSibling (s : SiblingState ω φ ψ β) (ff : ψ) : Option ψ := (s.heap.fulls ff).leftSibling

abbrev rightSibling (s : SiblingState ω φ ψ β) (ff : ψ) : Option ψ := (s.heap.fulls ff).rightSibling

abbrev rightmostChild (s : SiblingState ω φ ψ β) (ff : ψ) : Option ψ := (s.heap.fulls ff).rightmostChild

/-- The frame's parent is one that `make_child` does not link children to. -/
def isFutureParent (heap : FrameHeap ω φ ψ β) (parentFf : ψ) : Bool :=
  match (heap.fulls parentFf).callStack with
  | some sf => (heap.frames sf).flags.futureParent
  | none => false

/-- `make_child`. -/
def makeChild [DecidableEq φ] (s : SiblingState ω φ ψ β) (parentFf childFf : ψ) (childSf : Option φ)
    (fiber : ChildFiber β) : Option (SiblingState ω φ ψ β) :=
  (s.heap.makeChild parentFf childFf childSf fiber).map fun heap =>
    if isFutureParent s.heap parentFf then
      { s with heap := heap, place := setAt s.place childFf .alone }
    else
      { s with
        heap := heap
        place := setAt s.place childFf (.childOf parentFf)
        unfinished := setAt s.unfinished parentFf (s.unfinished parentFf ++ [childFf]) }

/-- `unlink_child(parent_ff, child_ff)`. -/
def unlink (s : SiblingState ω φ ψ β) (parentFf childFf : ψ) : Option (SiblingState ω φ ψ β) :=
  (unlinkChild s.heap.fulls parentFf childFf).map fun fulls =>
    { s with
      heap := { s.heap with fulls := fulls }
      place := setAt s.place childFf .alone
      unfinished := setAt s.unfinished parentFf ((s.unfinished parentFf).erase childFf) }

/-- `ff->parent` of a child that is about to return. -/
def parentOf (s : SiblingState ω φ ψ β) (childFf : ψ) : Option ψ :=
  match s.place childFf with
  | .childOf _ => (s.heap.fulls childFf).parent
  | _ => none

end SiblingState

/-- A record with the links of another one. -/
def FrameRecord.withLinks (record links : FrameRecord ω φ ψ β) : FrameRecord ω φ ψ β :=
  { record with
    parent := links.parent
    rightmostChild := links.rightmostChild
    leftSibling := links.leftSibling
    rightSibling := links.rightSibling }

def siblingStep [DecidableEq φ] (s : SiblingState ω φ ψ β) :
    SiblingLabel ω φ ψ β → Option (SiblingState ω φ ψ β)
  | .makeFullFrame ff sf =>
      if s.place ff = .free then
        some { s with heap := s.heap.setFull ff (madeFullFrame sf), place := setAt s.place ff .alone }
      else none
  | .makeChild parentFf childFf childSf fiber =>
      if s.place childFf = .free ∧ s.place parentFf ≠ .free ∧ s.held parentFf = none then
        s.makeChild parentFf childFf childSf fiber
      else none
  | .finalizeChild childFf =>
      match s.parentOf childFf with
      | some parentFf => if s.held parentFf = none then s.unlink parentFf childFf else none
      | none => none
  | .lockParent childFf =>
      match s.parentOf childFf, computeLeftPtrsForSpawnReturn s.heap.fulls childFf with
      | some parentFf, some left =>
          if s.held parentFf = none then
            some { s with held := setAt s.held parentFf (some (.returning childFf left)) }
          else none
      | _, _ => none
  | .unlock ff =>
      match s.held ff with
      | some _ => some { s with held := setAt s.held ff none }
      | none => none
  | .finishSpawnReturn parentFf =>
      match s.held parentFf with
      | some (.returning childFf _) =>
          (s.unlink parentFf childFf).map fun s => { s with held := setAt s.held parentFf none }
      | _ => none
  | .lockAtSync ff =>
      match computeLeftPtrsForSync s.heap.fulls ff with
      | some left =>
          if s.place ff ≠ .free ∧ s.held ff = none then
            some { s with held := setAt s.held ff (some (.syncing left)) }
          else none
      | none => none
  | .destroyFullFrame ff =>
      -- its callers unlinked it and hold or assert that it has no children
      if s.place ff = .alone ∧ (s.heap.fulls ff).rightmostChild = none ∧ s.held ff = none then
        some { s with place := setAt s.place ff .free }
      else none
  | .storeFull ff record =>
      -- only the functions above store into the links of a frame
      let stored := match s.place ff with
        | .free => record
        | _ => record.withLinks (s.heap.fulls ff)
      some { s with heap := s.heap.setFull ff stored }
  | .storeFrame sf frame => some { s with heap := s.heap.setFrame sf frame }

/-- No full frame was made yet. -/
def SiblingState.Initial (s : SiblingState ω φ ψ β) : Prop :=
  ∀ ff, s.place ff = .free ∧ s.held ff = none ∧ s.unfinished ff = []

variable (ω φ ψ β) in
def siblingMachine [DecidableEq φ] : Machine (SiblingState ω φ ψ β) (SiblingLabel ω φ ψ β) where
  start := SiblingState.Initial
  step := siblingStep

end CilkL
