/-
Module: CilkL.Runtime.TheProtocol
Layer: Runtime
Purpose: One deque of `deque.c` under the THE protocol: its owner in `__cilkrts_detach`,
  `__cilkrts_undo_detach` and `__cilkrts_c_THE_exception_check`, and any number of thieves in
  `dekker_protocol` and `detach_for_steal`, serialised by the victim's lock. The owner also suspends the
  deque in `deque_suspend`, where it may steal from it as a thief would and ignores what
  `dekker_protocol` returns, and starts a new full frame on it in `setup_for_execution`. Pointers into
  `ltq` are indices. A label is one atomic step; between the steps of the lock's holder the other side
  runs. `EXC_INFINITY` is left out, nothing in the runtime stores it. Frames are of any type; every push
  stores its frame with a ticket, its position in the order of the pushes, which the code never reads.
Imports: CilkL.Library.Machine, Mathlib.Data.Int.Order.Basic
Trusted boundary: human-reviewed spec (translated from deque.c, cilk-abi.c and scheduler.c)
Main exports: Pushed, LockHolder, OwnerPc, ThiefPc, TheState, TheLabel, theStep, theMachine
Open obligations: none
-/
import CilkL.Library.Machine
import Mathlib.Data.Int.Order.Basic

namespace CilkL

/-- What a slot of `ltq` holds: a frame with the ticket of its push. -/
structure Pushed (α : Type) where
  ticket : Nat
  frame : α
deriving DecidableEq, Repr

/-- Who holds the victim's lock. -/
inductive LockHolder where
  | free
  | owner
  /-- The owner that steals from the deque it is suspending. -/
  | self
  | thief (id : Nat)
deriving DecidableEq, Repr

/-- Where the owner is. -/
inductive OwnerPc where
  /-- In user code. -/
  | running
  /-- In `__cilkrts_detach`, about to store `tail`. -/
  | pushTail
  /-- In `__cilkrts_undo_detach`, about to compare `t` with `exc`. -/
  | popCompare (t : Int)
  /-- About to lock in `__cilkrts_c_THE_exception_check`. -/
  | popLock
  /-- About to `reset_THE_exception`. -/
  | popReset
  /-- About to compute `stolen_p`. -/
  | popTest
  /-- The frame was stolen: about to reverse the decrement of `tail`. -/
  | popUndo
  /-- About to unlock. -/
  | unlock
  /-- The deque is suspended. -/
  | suspended
  /-- In `setup_for_execution`, about to store `tail`. -/
  | setupTail
  /-- About to store `head`. -/
  | setupHead
  /-- About to `reset_THE_exception`. -/
  | setupExc
deriving DecidableEq, Repr

/-- Where the thief that holds the lock is. -/
inductive ThiefPc (α : Type) where
  /-- No thief holds the lock. -/
  | none
  /-- Before `increment_E`. -/
  | locked
  /-- About to test `head < tail`. -/
  | testTail
  /-- About to test `head < protected_tail`. -/
  | testProtected
  /-- `dekker_protocol` returned 1, or its result is ignored. -/
  | decided
  /-- `head` was advanced from `h`; about to read `*h`. -/
  | fetch (h : Int)
  /-- `sf` was read; the rest of `detach_for_steal` and the unlock are to come. -/
  | detached (sf : Option (Pushed α))
  /-- About to `decrement_E`. -/
  | decrement
  /-- About to unlock. -/
  | unlock
deriving DecidableEq, Repr

/-- A steal: who took which frame from which slot. -/
structure Steal (α : Type) where
  thief : LockHolder
  slot : Int
  taken : Option (Pushed α)
deriving DecidableEq, Repr

/-- One evaluation of `stolen_p`: the frame that is being popped and the result. -/
structure StolenCheck (α : Type) where
  popping : Option (Pushed α)
  stolen : Bool
deriving DecidableEq, Repr

/-- The deque, its owner, the holder of its lock and the history of the run. -/
structure TheState (α : Type) where
  head : Int
  tail : Int
  exc : Int
  protectedTail : Int
  ltqLimit : Int
  ltq : Int → Option (Pushed α)
  lock : LockHolder
  owner : OwnerPc
  thief : ThiefPc α
  /-- The frames pushed, oldest first. -/
  pushed : List (Pushed α)
  /-- The frames whose detach the owner has to undo, oldest first: they are on its call stack. -/
  spawned : List (Pushed α)
  /-- The frames pushed and neither popped by the owner nor passed by `head`, oldest first. -/
  frames : List (Pushed α)
  /-- The frames the owner popped, oldest first. -/
  popped : List (Pushed α)
  /-- The steals, oldest first. -/
  stolen : List (Steal α)
  /-- The evaluations of `stolen_p`, oldest first. -/
  checks : List (StolenCheck α)

/-- A deque after `deque_init`, with any `protected_tail`. -/
def TheState.initial (α : Type) (ltqLimit protectedTail : Int) : TheState α :=
  { head := 0, tail := 0, exc := 0, protectedTail := protectedTail, ltqLimit := ltqLimit
    ltq := fun _ => none, lock := .free, owner := .running, thief := .none, pushed := []
    spawned := [], frames := [], popped := [], stolen := [], checks := [] }

/-- The atomic steps. -/
inductive TheLabel (α : Type) where
  /-- The owner calls `__cilkrts_detach` and stores the frame at `tail`. -/
  | pushSlot (frame : α)
  | pushTail
  /-- The owner calls `__cilkrts_undo_detach` and decrements `tail`. -/
  | popDecrement
  | popCompare
  | popLock
  | popReset
  | popTest
  | popUndo
  | ownerUnlock
  /-- The owner locks in `deque_suspend` and makes another deque active. -/
  | suspend
  /-- A worker runs the suspended deque again. -/
  | resume
  /-- The owner locks to run a full frame whose children are not on this deque. -/
  | setupLock
  | setupTail
  | setupHead
  | setupExc
  /-- A thief gets the lock. -/
  | thiefLock (id : Nat)
  /-- The holder gives up before `dekker_protocol`. -/
  | giveUp
  | incrementE
  | testTail
  | testProtected
  /-- The steal is aborted because the log under replay has another victim frame. -/
  | abort
  | advanceHead
  | fetchFrame
  | decrementE
  | thiefUnlock
deriving DecidableEq, Repr

variable {α : Type}

/-- `can_steal_from`. -/
def canStealFrom (s : TheState α) : Bool := s.head < s.tail ∧ s.head < s.protectedTail

/-- The owner's pop succeeded. -/
def popSucceed (s : TheState α) : TheState α :=
  { s with
    spawned := s.spawned.dropLast
    frames := s.frames.dropLast
    popped := s.popped ++ s.spawned.getLast?.toList }

/-- One atomic step. -/
def theStep (s : TheState α) : TheLabel α → Option (TheState α)
  | .pushSlot frame =>
      match s.owner with
      | .running =>
          if s.tail < s.ltqLimit then
            let new : Pushed α := ⟨s.pushed.length, frame⟩
            some { s with
              ltq := fun i => if i = s.tail then some new else s.ltq i
              owner := .pushTail }
          else none
      | _ => none
  | .pushTail =>
      match s.owner with
      | .pushTail =>
          let new := (s.ltq s.tail).toList
          some { s with
            tail := s.tail + 1
            owner := .running
            pushed := s.pushed ++ new
            spawned := s.spawned ++ new
            frames := s.frames ++ new }
      | _ => none
  | .popDecrement =>
      match s.owner with
      | .running =>
          if s.spawned = [] then none
          else some { s with tail := s.tail - 1, owner := .popCompare (s.tail - 1) }
      | _ => none
  | .popCompare =>
      match s.owner with
      | .popCompare t =>
          if t < s.exc then some { s with owner := .popLock }
          else some (popSucceed { s with owner := .running })
      | _ => none
  | .popLock =>
      match s.owner, s.lock with
      | .popLock, .free => some { s with owner := .popReset, lock := .owner }
      | _, _ => none
  | .popReset =>
      match s.owner with
      | .popReset => some { s with exc := s.head, owner := .popTest }
      | _ => none
  | .popTest =>
      match s.owner with
      | .popTest =>
          let stolen := !decide (s.head < s.tail + 1)
          let check : StolenCheck α := ⟨s.spawned.getLast?, stolen⟩
          if stolen then
            some { s with spawned := [], owner := .popUndo, checks := s.checks ++ [check] }
          else some (popSucceed { s with owner := .unlock, checks := s.checks ++ [check] })
      | _ => none
  | .popUndo =>
      match s.owner with
      | .popUndo => some { s with tail := s.tail + 1, owner := .unlock }
      | _ => none
  | .ownerUnlock =>
      match s.owner with
      | .unlock => some { s with owner := .running, lock := .free }
      | _ => none
  | .suspend =>
      match s.owner, s.lock with
      | .running, .free => some { s with owner := .suspended, lock := .self, thief := .locked }
      | _, _ => none
  | .resume =>
      match s.owner with
      | .suspended => if s.lock = .self then none else some { s with owner := .running }
      | _ => none
  | .setupLock =>
      match s.owner, s.lock with
      | .running, .free =>
          if s.spawned = [] then some { s with owner := .setupTail, lock := .owner } else none
      | _, _ => none
  | .setupTail =>
      match s.owner with
      | .setupTail => some { s with tail := 0, owner := .setupHead }
      | _ => none
  | .setupHead =>
      match s.owner with
      | .setupHead => some { s with head := s.tail, owner := .setupExc }
      | _ => none
  | .setupExc =>
      match s.owner with
      | .setupExc => some { s with exc := s.head, owner := .unlock }
      | _ => none
  | .thiefLock id =>
      match s.lock with
      | .free => some { s with lock := .thief id, thief := .locked }
      | _ => none
  | .giveUp =>
      match s.thief with
      | .locked => some { s with thief := .unlock }
      | _ => none
  | .incrementE =>
      match s.thief with
      | .locked =>
          -- `deque_suspend` calls `dekker_protocol` only if it can steal.
          if s.lock = .self ∧ canStealFrom s = false then none
          else some { s with exc := s.exc + 1, thief := .testTail }
      | _ => none
  | .testTail =>
      match s.thief with
      | .testTail => some { s with thief := if s.head < s.tail then .testProtected else .decrement }
      | _ => none
  | .testProtected =>
      match s.thief with
      | .testProtected =>
          some { s with thief := if s.head < s.protectedTail then .decided else .decrement }
      | _ => none
  | .abort =>
      match s.thief with
      | .decided => if s.lock = .self then none else some { s with thief := .decrement }
      | _ => none
  | .advanceHead =>
      match s.thief with
      | .decided =>
          some { s with head := s.head + 1, thief := .fetch s.head, frames := s.frames.tail }
      | _ => none
  | .fetchFrame =>
      match s.thief with
      | .fetch h =>
          some { s with
            thief := .detached (s.ltq h)
            stolen := s.stolen ++ [⟨s.lock, h, s.ltq h⟩] }
      | _ => none
  | .decrementE =>
      match s.thief with
      | .decrement =>
          -- `deque_suspend` detaches whatever `dekker_protocol` returned.
          some { s with exc := s.exc - 1, thief := if s.lock = .self then .decided else .unlock }
      | _ => none
  | .thiefUnlock =>
      match s.thief with
      | .detached _ | .unlock => some { s with lock := .free, thief := .none }
      | _ => none

variable (α) in
/-- A deque with its owner and its thieves. -/
def theMachine : Machine (TheState α) (TheLabel α) where
  start s := ∃ ltqLimit protectedTail, s = .initial α ltqLimit protectedTail
  step := theStep

end CilkL
