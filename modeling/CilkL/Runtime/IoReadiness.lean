/-
Module: CilkL.Runtime.IoReadiness
Layer: Runtime
Purpose: The I/O worker's loop together with the kernel's side of its fds: whether a system call would
  finish now, and whether it came to be so after the last event the worker took up. An event mask without
  `EPOLLIN` and `EPOLLOUT`, such as a lone `EPOLLHUP` or `EPOLLERR`, is an event with both bits false.
Imports: CilkL.Runtime.IoScheduler
Trusted boundary: human-reviewed spec (translated from io_scheduler.cpp)
Main exports: IoHappening, ReadinessState, readinessStep, readinessMachine, RetriedSinceEvent, Processed
Open obligations: none
-/
import CilkL.Runtime.IoScheduler

namespace CilkL

/-- What the history of a run records. -/
inductive IoHappening where
  /-- The `for` loop takes up an event of this fd. -/
  | event (fd : Int)
  /-- A system call of this direction on this fd for the operation of this ticket. -/
  | attempt (dir : Direction) (fd : Int) (ticket : Nat) (result : SysResult)
deriving DecidableEq, Repr

/-- The worker, the kernel's view of the fds and the history, newest first. -/
structure ReadinessState where
  io : IoWorkerState
  /-- The front event's `EPOLLIN` half is done, or is being handled; its `EPOLLOUT` half is still due. -/
  half : Bool
  history : List IoHappening
  /-- A system call of this direction on this fd would finish with data, end of file or an error. -/
  ready : Direction → Int → Bool
  /-- `ready` came true after the worker took up the last event of the fd: epoll owes another event. -/
  turned : Direction → Int → Bool

inductive ReadinessLabel where
  /-- The state of a file changes. -/
  | kernel (dir : Direction) (fd : Int) (ready : Bool)
  /-- A step of the worker or of the threads that submit to it. -/
  | io (label : IoLabel)
deriving DecidableEq, Repr

/-- Replace the entry of one direction of one fd. -/
def setFlag (flags : Direction → Int → Bool) (dir : Direction) (fd : Int) (value : Bool) :
    Direction → Int → Bool :=
  fun d f => if d = dir ∧ f = fd then value else flags d f

/-- Record a system call. The kernel does not answer `EAGAIN` when the call could finish. -/
def ReadinessState.attempt (s : ReadinessState) (dir : Direction) (fd : Int) (ticket : Nat)
    (result : SysResult) : Option ReadinessState :=
  if result = .fail eagain ∧ s.ready dir fd = true then none
  else some { s with history := .attempt dir fd ticket result :: s.history }

/-- Record that an event is taken up, unless its `EPOLLIN` half has been already. -/
def ReadinessState.takeUp (s : ReadinessState) (eventfd : Int) (event : EpollEvent) :
    ReadinessState :=
  if s.half then { s with half := false }
  else
    { s with
      half := decide (event.fd ≠ eventfd) && event.readable
      history := .event event.fd :: s.history
      turned := fun d f => if f = event.fd then false else s.turned d f }

/-- What a step of the worker does to the history and to the kernel's side. -/
def ReadinessState.record (eventfd : Int) (s : ReadinessState) : IoLabel → Option ReadinessState
  | .dispatch =>
      match s.io.pc with
      | .dispatch (event :: _) => some (s.takeUp eventfd event)
      | _ => some s
  | .syscall result =>
      match s.io.pc with
      | .handle dir fd _ =>
          match s.io.blockedOps dir fd with
          | item :: _ => s.attempt dir fd item.ticket result
          | [] => none
      | .perform dir item => s.attempt dir item.op.fildes item.ticket result
      | _ => none
  | _ => some s

/-- One step. -/
def readinessStep (eventfd : Int) (s : ReadinessState) : ReadinessLabel → Option ReadinessState
  | .kernel dir fd ready =>
      some { s with
        ready := setFlag s.ready dir fd ready
        turned := setFlag s.turned dir fd (s.turned dir fd || (ready && !s.ready dir fd)) }
  | .io label =>
      match ioStep eventfd s.io label, s.record eventfd label with
      | some io, some next => some { next with io := io }
      | _, _ => none

/-- The I/O worker from its first `epoll_wait` on, with files in any state. -/
def readinessMachine (eventfd : Int) : Machine ReadinessState ReadinessLabel where
  start s := s.io = .initial eventfd ∧ s.half = false ∧ s.history = []
  step := readinessStep eventfd

/-- The last attempt of the operation came after every event of the fd, and returned `EAGAIN`. -/
def RetriedSinceEvent (dir : Direction) (fd : Int) (ticket : Nat) : List IoHappening → Prop
  | [] => False
  | .event f :: earlier => f ≠ fd ∧ RetriedSinceEvent dir fd ticket earlier
  | .attempt d f t result :: earlier =>
      if d = dir ∧ f = fd ∧ t = ticket then result = .fail eagain
      else RetriedSinceEvent dir fd ticket earlier

instance RetriedSinceEvent.decidable (dir : Direction) (fd : Int) (ticket : Nat) :
    (history : List IoHappening) → Decidable (RetriedSinceEvent dir fd ticket history)
  | [] => inferInstanceAs (Decidable False)
  | .event f :: earlier =>
      have := RetriedSinceEvent.decidable dir fd ticket earlier
      inferInstanceAs (Decidable (f ≠ fd ∧ RetriedSinceEvent dir fd ticket earlier))
  | .attempt d f t result :: earlier =>
      have := RetriedSinceEvent.decidable dir fd ticket earlier
      inferInstanceAs (Decidable (if d = dir ∧ f = fd ∧ t = ticket then result = .fail eagain
        else RetriedSinceEvent dir fd ticket earlier))

/-- The body of the `for` loop is at work on an event of this fd. -/
def Processing (s : ReadinessState) (fd : Int) : Prop :=
  match s.io.pc with
  | .handle _ f _ => f = fd
  | .dispatch (event :: _) => s.half = true ∧ event.fd = fd
  | _ => False

instance (s : ReadinessState) (fd : Int) : Decidable (Processing s fd) := by
  unfold Processing
  split <;> infer_instance

/-- An event of this fd has been taken up, and no event of it is being processed. -/
def Processed (s : ReadinessState) (fd : Int) : Prop :=
  .event fd ∈ s.history ∧ ¬ Processing s fd

end CilkL
