/-
Module: CilkL.Runtime.IoWakeup
Layer: Runtime
Purpose: The I/O worker's loop on top of the ring of its `io_queue`, with the reports epoll owes for the
  queue's eventfd. The worker pops through the atomic steps of `io_queue_pop` while the producer is in
  `io_queue_push`. The registration of the eventfd is edge-triggered: a write leaves a report pending
  until `epoll_wait` delivers one, also a write that happens while a report is pending; a pending report
  may come to nothing when the counter is 0 again.
Imports: CilkL.Runtime.IoScheduler
Trusted boundary: human-reviewed spec (translated from io_scheduler.cpp and cilk-io-queue.c)
Main exports: WakeupState, WakeupLabel, wakeupStep, wakeupMachine
Open obligations: none
-/
import CilkL.Runtime.IoScheduler

namespace CilkL

/-- The worker's loop, the ring and epoll's view of the eventfd. The loop's own list of queued operations
    is not used: the operations come out of the ring. -/
structure WakeupState where
  io : IoWorkerState
  ring : QueueState
  /-- Epoll has not reported the last write to the eventfd yet. -/
  reportPending : Bool
  /-- An event for the eventfd was reported and the queue was not found empty since. -/
  unanswered : Bool

/-- The atomic steps. -/
inductive WakeupLabel where
  /-- The coworker calls `cilk_read` or `cilk_write`, which calls `io_queue_push`. -/
  | submit (dir : Direction) (fildes : Int) (buf nbyte fut : Nat)
  /-- A later step of `io_queue_push`. -/
  | pushTest
  | pushWrite
  | pushStore
  | pushNotify
  /-- A pending report turns out to be void: the eventfd is not readable any more. -/
  | withdraw
  /-- `epoll_wait` returns these events. -/
  | wait (events : List EpollEvent)
  /-- A step of `io_queue_pop`. -/
  | popTest
  | popRead
  | popStore
  | popDrain
  /-- Another step of the loop. -/
  | loop (label : IoLabel)
deriving DecidableEq, Repr

/-- The steps of the loop that are not about the queue. -/
def IoLabel.Plain : IoLabel → Prop
  | .submit .. | .wait _ | .pop => False
  | _ => True

instance IoLabel.decidablePlain : (label : IoLabel) → Decidable label.Plain
  | .submit .. | .wait _ | .pop => isFalse not_false
  | .workDone | .dispatch | .syscall _ | .check | .add | .delete _ | .clear => isTrue trivial

/-- A step of the ring. -/
def WakeupState.ringStep (s : WakeupState) (label : QueueLabel) : Option WakeupState :=
  (queueStep s.ring label).map fun ring => { s with ring := ring }

/-- One atomic step. -/
def wakeupStep (eventfd : Int) (s : WakeupState) : WakeupLabel → Option WakeupState
  | .submit dir fildes buf nbyte fut => s.ringStep (.pushCall (cilkOp dir fildes buf nbyte fut))
  | .pushTest => s.ringStep .pushTest
  | .pushWrite => s.ringStep .pushWrite
  | .pushStore => s.ringStep .pushStore
  | .pushNotify =>
      (s.ringStep .pushNotify).map fun s =>
        { s with reportPending := s.reportPending || (s.io.interest eventfd).isSome }
  | .withdraw =>
      if s.ring.queue.eventfd = 0 then some { s with reportPending := false } else none
  | .wait events =>
      match s.io.pc with
      | .epollWait =>
          let reported : Bool := events.any fun event => event.fd = eventfd
          some { s with
            io := { s.io with pc := .dispatch events }
            reportPending := s.reportPending && !reported
            unanswered := s.unanswered || reported }
      | _ => none
  | .popTest =>
      match s.io.pc, queueStep s.ring .popTest with
      | .popQueue, some ring =>
          match ring.consumer with
          | .idle =>
              -- The queue is empty: `curr_op` is `inv_op`.
              some { s with
                ring := ring
                io := { s.io with pc := .deleteReady .read (s.io.readyFds .read) }
                unanswered := false }
          | _ => some { s with ring := ring }
      | _, _ => none
  | .popRead => s.ringStep .popRead
  | .popStore => s.ringStep .popStore
  | .popDrain =>
      match s.ring.consumer, queueStep s.ring .popDrain with
      | .drain ret, some ring =>
          some { s with ring := ring, io := receiveOp s.io ⟨s.ring.popped.length, ret⟩ }
      | _, _ => none
  | .loop label =>
      if label.Plain then
        (ioStep eventfd s.io label).map fun io =>
          { s with
            io := io
            reportPending := s.reportPending && (io.interest eventfd).isSome }
      else none

/-- The queue when the worker registers its eventfd: the coworker may have pushed already. -/
def RingBeforeRegistration (ring : QueueState) : Prop :=
  queueMachine.Reachable ring ∧ ring.consumer = .idle ∧ ring.popped = [] ∧
    ∀ op ∈ ring.pushed, op.direction ≠ none

/-- The I/O worker from the registration of the eventfd on, which is reported when it is readable. -/
def wakeupMachine (eventfd : Int) : Machine WakeupState WakeupLabel where
  start s := ∃ ring, RingBeforeRegistration ring ∧
    s = { io := .initial eventfd, ring := ring, reportPending := decide (0 < ring.queue.eventfd)
          unanswered := false }
  step := wakeupStep eventfd

end CilkL
