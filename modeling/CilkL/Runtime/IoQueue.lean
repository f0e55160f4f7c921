/-
Module: CilkL.Runtime.IoQueue
Layer: Runtime
Purpose: The single-producer single-consumer ring of `cilk-io-queue.c`, as the atomic steps of one
  producer in `io_queue_push` and one consumer in `io_queue_pop`. The ring is `q`, indexed by `head` and
  `tail` modulo `IO_Q_SIZE`; the eventfd is a semaphore counter (`EFD_SEMAPHORE`). The state also carries
  the history the properties speak about: which operations were pushed, published by a tail store, and
  returned by a pop, and how many eventfd writes and reads completed.
Imports: CilkL.Library.Machine, Mathlib
Trusted boundary: human-reviewed spec (translated from cilk-io-queue.h and cilk-io-queue.c)
Main exports: IoOp, IoQueue, QueueState, QueueLabel, queueStep, queueMachine
Open obligations: none
-/
import CilkL.Library.Machine
import Mathlib

namespace CilkL

/-- `io_op_t`. Pointers (`buf`, and the future behind `fut`) are addresses. -/
structure IoOp where
  type : Int
  fildes : Int
  buf : Nat
  nbyte : Nat
  res : Int
  fut : Nat
deriving DecidableEq, Repr, Inhabited

/-- `IOTYPE__INVALID`. -/
def iotypeInvalid : Int := -1

/-- `IOTYPE__READ`. -/
def iotypeRead : Int := 0

/-- `IOTYPE__WRITE`. -/
def iotypeWrite : Int := 1

/-- `inv_op`: only the type is given, the other fields are zero-initialised. -/
def invOp : IoOp :=
  { type := iotypeInvalid, fildes := 0, buf := 0, nbyte := 0, res := 0, fut := 0 }

/-- `IO_Q_SIZE(q)`, which is `DEFAULT_IO_Q_SIZE` for every queue. -/
def ioQSize : Nat := 4096

/-- The largest value an eventfd counter holds; a write that would exceed it blocks. -/
def eventfdMax : Nat := 2 ^ 64 - 2

/-- `io_queue_t`. The field `eventfd` is the counter of the eventfd object behind the descriptor. -/
structure IoQueue where
  head : Nat
  tail : Nat
  eventfd : Nat
  q : Nat → IoOp

/-- `new_io_queue`. -/
def newIoQueue : IoQueue :=
  { head := 0, tail := 0, eventfd := 0, q := fun _ => invOp }

/-- Where the producer is inside `io_queue_push`; `t` is the local of that name. -/
inductive ProducerPc where
  | idle
  /-- About to test `t == q->head`. -/
  | test (op : IoOp) (t : Nat)
  /-- About to execute `q->q[q->tail] = *op`. -/
  | write (op : IoOp) (t : Nat)
  /-- About to execute `q->tail = t`. -/
  | store (op : IoOp) (t : Nat)
  /-- About to write 1 to the eventfd. -/
  | notify
deriving DecidableEq, Repr

/-- Where the consumer is inside `io_queue_pop`; `ret` is the local of that name. -/
inductive ConsumerPc where
  | idle
  /-- The queue tested non-empty; about to read the slot at `q->head`. -/
  | read
  /-- About to execute `q->head = (q->head + 1) % IO_Q_SIZE(q)`. -/
  | store (ret : IoOp)
  /-- About to read the eventfd, which blocks while its counter is 0. -/
  | drain (ret : IoOp)
deriving DecidableEq, Repr

/-- The queue, both threads and the history of the run. -/
structure QueueState where
  queue : IoQueue
  producer : ProducerPc
  consumer : ConsumerPc
  /-- Operations `io_queue_push` was called with, oldest first. -/
  pushed : List IoOp
  /-- Operations whose tail store has happened, oldest first. -/
  published : List IoOp
  /-- Operations other than `inv_op` that `io_queue_pop` has returned, oldest first. -/
  popped : List IoOp
  /-- Completed eventfd writes. -/
  eventWrites : Nat
  /-- Completed eventfd reads. -/
  eventReads : Nat

/-- The state before any push or pop. -/
def QueueState.initial : QueueState :=
  { queue := newIoQueue, producer := .idle, consumer := .idle, pushed := [], published := []
    popped := [], eventWrites := 0, eventReads := 0 }

/-- The atomic steps of the two threads. -/
inductive QueueLabel where
  /-- The producer calls `io_queue_push` and computes `t`. -/
  | pushCall (op : IoOp)
  /-- One evaluation of the spin condition `t == q->head`. -/
  | pushTest
  | pushWrite
  | pushStore
  | pushNotify
  /-- The consumer calls `io_queue_pop` and evaluates the empty test. -/
  | popTest
  | popRead
  | popStore
  | popDrain
deriving DecidableEq, Repr

/-- One atomic step. -/
def queueStep (s : QueueState) : QueueLabel → Option QueueState
  | .pushCall op =>
      match s.producer with
      | .idle =>
          some { s with
            producer := .test op ((s.queue.tail + 1) % ioQSize)
            pushed := s.pushed ++ [op] }
      | _ => none
  | .pushTest =>
      match s.producer with
      | .test op t =>
          if t = s.queue.head then some s else some { s with producer := .write op t }
      | _ => none
  | .pushWrite =>
      match s.producer with
      | .write op t =>
          some { s with
            queue := { s.queue with q := fun i => if i = s.queue.tail then op else s.queue.q i }
            producer := .store op t }
      | _ => none
  | .pushStore =>
      match s.producer with
      | .store op t =>
          some { s with
            queue := { s.queue with tail := t }
            producer := .notify
            published := s.published ++ [op] }
      | _ => none
  | .pushNotify =>
      match s.producer with
      | .notify =>
          if s.queue.eventfd < eventfdMax then
            some { s with
              queue := { s.queue with eventfd := s.queue.eventfd + 1 }
              producer := .idle
              eventWrites := s.eventWrites + 1 }
          else none
      | _ => none
  | .popTest =>
      match s.consumer with
      | .idle =>
          -- Equal indices: the call returns `inv_op` and the consumer is idle again.
          if s.queue.head = s.queue.tail then some s else some { s with consumer := .read }
      | _ => none
  | .popRead =>
      match s.consumer with
      | .read => some { s with consumer := .store (s.queue.q s.queue.head) }
      | _ => none
  | .popStore =>
      match s.consumer with
      | .store ret =>
          some { s with
            queue := { s.queue with head := (s.queue.head + 1) % ioQSize }
            consumer := .drain ret }
      | _ => none
  | .popDrain =>
      match s.consumer with
      | .drain ret =>
          if s.queue.eventfd = 0 then none
          else
            some { s with
              queue := { s.queue with eventfd := s.queue.eventfd - 1 }
              consumer := .idle
              popped := s.popped ++ [ret]
              eventReads := s.eventReads + 1 }
      | _ => none

/-- The ring with its two threads. -/
def queueMachine : Machine QueueState QueueLabel where
  start s := s = .initial
  step := queueStep

end CilkL
