/-
Module: CilkL.Runtime.IoScheduler
Layer: Runtime
Purpose: The loop of `scheduler_thread_proc_for_io_worker` with `perform_io_until_block` and
  `handle_event`, one label for each system call, queue operation and loop test. The kernel's results,
  the epoll events and the operations other threads submit are chosen by the labels. Reads and writes go
  through the same code with their own fd sets and deques, so both are indexed by a direction.
  Epoll is modelled by its interest list: `EPOLL_CTL_ADD` of a registered fd fails with `EEXIST` and
  leaves the mask as it is, `EPOLL_CTL_DEL` removes the fd altogether.
  Every submitted operation carries a ticket, its position in the order of submission; the code never
  reads it.
Imports: CilkL.Runtime.IoQueue, Mathlib.Data.Finset.Basic, Mathlib.Data.Int.Order.Basic
Trusted boundary: human-reviewed spec (translated from io_scheduler.cpp and cilk-io.cpp)
Main exports: Direction, performIteration, handleEvent, IoWorkerState, ioStep, ioMachine
Open obligations: none
-/
import CilkL.Runtime.IoQueue
import Mathlib.Data.Finset.Basic
import Mathlib.Data.Int.Order.Basic

namespace CilkL

/-- The two halves of the I/O worker's state: `first`/`read` and `second`/`write`. -/
inductive Direction where
  | read
  | write
deriving DecidableEq, Repr

/-- The direction that shares an fd's epoll entry with this one. -/
def Direction.other : Direction → Direction
  | .read => .write
  | .write => .read

/-- The direction of an operation; `none` for a type the loop ignores. -/
def IoOp.direction (op : IoOp) : Option Direction :=
  if op.type = iotypeRead then some .read
  else if op.type = iotypeWrite then some .write
  else none

/-- `EAGAIN`. -/
def eagain : Int := 11

/-- `EWOULDBLOCK`, which Linux defines as `EAGAIN`. -/
def ewouldblock : Int := 11

/-- `EEXIST`. -/
def eexist : Int := 17

/-- `ENOENT`. -/
def enoent : Int := 2

/-- What a read or write system call does: transfer bytes, or return -1 and set `errno`. -/
inductive SysResult where
  | count (bytes : Nat)
  | fail (error : Int)
deriving DecidableEq, Repr

/-- The value the system call returns. -/
def SysResult.value : SysResult → Int
  | .count bytes => bytes
  | .fail _ => -1

/-- `errno` after the system call: a successful call leaves it alone. -/
def SysResult.errnoAfter (errno : Int) : SysResult → Int
  | .count _ => errno
  | .fail error => error

/-- Addition to a `size_t` or to a `char*`, modulo 2^64. -/
def wordAdd (word : Nat) (delta : Int) : Nat := ((word + delta) % 2 ^ 64).toNat

/-- How one system call of `perform_io_until_block` ends. -/
inductive PerformOutcome where
  /-- The `do`-`while` loop goes round again. -/
  | again (op : IoOp)
  /-- The function returns 1. -/
  | blocked (op : IoOp)
  /-- The function calls `put` with this result and returns 0. -/
  | put (op : IoOp) (retVal errnoVal : Int)
deriving DecidableEq, Repr

/-- The body of the loop in `perform_io_until_block` after its system call returned `result`, and what
    follows the loop when it ends. -/
def performIteration (dir : Direction) (errno : Int) (op : IoOp) (result : SysResult) :
    PerformOutcome :=
  let res := result.value
  let op :=
    { op with nbyte := wordAdd op.nbyte (-res), res := op.res + res, buf := wordAdd op.buf res }
  if 0 < op.nbyte ∧ 0 < res ∧ dir ≠ .read then .again op
  else if res < 0 then
    let op := { op with nbyte := wordAdd op.nbyte res, buf := wordAdd op.buf (-res) }
    if errno = eagain ∨ errno = ewouldblock then .blocked { op with res := op.res - res }
    else .put { op with res := -1 } (-1) errno
  else .put op op.res errno

/-- An operation with its ticket. -/
structure IoItem where
  ticket : Nat
  op : IoOp
deriving DecidableEq, Repr

/-- A call of `put`: the operation and the `io_future_result`. -/
structure Completion where
  item : IoItem
  retVal : Int
  errnoVal : Int
deriving DecidableEq, Repr

/-- One entry of `triggered_events`; `readable` is `EPOLLIN`, `writable` is `EPOLLOUT`. -/
structure EpollEvent where
  fd : Int
  readable : Bool
  writable : Bool
deriving DecidableEq, Repr

/-- Where the worker is in its loop. -/
inductive IoPc where
  /-- About to call `epoll_wait`. -/
  | epollWait
  /-- In the `for` loop, with the events that are still to be looked at. -/
  | dispatch (events : List EpollEvent)
  /-- In `handle_event(syscall_no, fd, ..)`, about to issue the system call of the front operation;
      then the remaining events, the first of which may still owe its `EPOLLOUT` half. -/
  | handle (dir : Direction) (fd : Int) (events : List EpollEvent)
  /-- At `if (check_queue)`. -/
  | checkQueue
  /-- About to call `io_queue_pop`. -/
  | popQueue
  /-- In `perform_io_until_block(.., curr_op)`, about to issue the system call. -/
  | perform (dir : Direction) (item : IoItem)
  /-- `perform_io_until_block` returned 1 for `curr_op`. -/
  | block (dir : Direction) (item : IoItem)
  /-- In the loop that removes the ready fds of one direction from epoll. -/
  | deleteReady (dir : Direction) (todo : Finset Int)
  /-- The loop found `work_done` set. -/
  | stopped

/-- The locals of the I/O worker, the queue it pops from, epoll's interest list and the puts so far. -/
structure IoWorkerState where
  pc : IoPc
  /-- `io_queue`: pushed and not yet popped, oldest first. -/
  ioQueue : List IoItem
  /-- Every operation submitted so far, oldest first. -/
  submitted : List IoItem
  /-- `blocked_ops`, one deque for each fd and direction. -/
  blockedOps : Direction → Int → List IoItem
  blockedFds : Direction → Finset Int
  readyFds : Direction → Finset Int
  checkQueue : Bool
  errno : Int
  /-- The direction an fd is registered for in `epoll_fd`. -/
  interest : Int → Option Direction
  /-- The calls of `put`, oldest first. -/
  completed : List Completion

/-- The state at the first `epoll_wait`; only the queue's eventfd is registered. -/
def IoWorkerState.initial (eventfd : Int) : IoWorkerState :=
  { pc := .epollWait, ioQueue := [], submitted := [], blockedOps := fun _ _ => []
    blockedFds := fun _ => ∅, readyFds := fun _ => ∅, checkQueue := true, errno := 0
    interest := fun fd => if fd = eventfd then some .read else none, completed := [] }

/-- The operation `cilk_read` or `cilk_write` pushes. -/
def cilkOp (dir : Direction) (fildes : Int) (buf nbyte fut : Nat) : IoOp :=
  { type := match dir with
      | .read => iotypeRead
      | .write => iotypeWrite
    fildes := fildes, buf := buf, nbyte := nbyte, res := 0, fut := fut }

/-- The choices of the other threads and of the kernel, and the worker's own steps. -/
inductive IoLabel where
  /-- Another thread calls `cilk_read` or `cilk_write` on a worker with an `io_queue`. -/
  | submit (dir : Direction) (fildes : Int) (buf nbyte fut : Nat)
  /-- `work_done` is set when the loop tests it. -/
  | workDone
  /-- `epoll_wait` returns these events. -/
  | wait (events : List EpollEvent)
  /-- Look at the next event. -/
  | dispatch
  /-- The pending read or write system call returns. -/
  | syscall (result : SysResult)
  /-- Test and clear `check_queue`. -/
  | check
  /-- `io_queue_pop` and the tests on `curr_op`. -/
  | pop
  /-- File the blocked `curr_op` and call `EPOLL_CTL_ADD`. -/
  | add
  /-- `EPOLL_CTL_DEL` of one ready fd. -/
  | delete (fd : Int)
  /-- The ready set is exhausted and cleared. -/
  | clear
deriving DecidableEq, Repr

/-- Set the deque of one fd and direction. -/
def setBlockedOps (ops : Direction → Int → List IoItem) (dir : Direction) (fd : Int)
    (items : List IoItem) : Direction → Int → List IoItem :=
  fun d f => if d = dir ∧ f = fd then items else ops d f

/-- Replace the fd set of one direction. -/
def setFds (sets : Direction → Finset Int) (dir : Direction) (fds : Finset Int) :
    Direction → Finset Int :=
  fun d => if d = dir then fds else sets d

/-- `handle_event` at its loop test. With an empty deque the fd moves from the blocked to the ready set
    and the function returns; else it goes on to the system call of the front operation. -/
def handleEvent (s : IoWorkerState) (dir : Direction) (fd : Int) (events : List EpollEvent) :
    IoWorkerState :=
  if s.blockedOps dir fd = [] then
    { s with
      blockedFds := setFds s.blockedFds dir ((s.blockedFds dir).erase fd)
      readyFds := setFds s.readyFds dir (insert fd (s.readyFds dir))
      pc := .dispatch events }
  else { s with pc := .handle dir fd events }

/-- The body of the `for` loop on one event. Its `EPOLLIN` half comes first; the `EPOLLOUT` half stays
    at the front of the list as an event of its own. -/
def dispatchEvent (s : IoWorkerState) (eventfd : Int) (event : EpollEvent)
    (events : List EpollEvent) : IoWorkerState :=
  if event.fd = eventfd then { s with checkQueue := true, pc := .dispatch events }
  else if event.readable then
    handleEvent s .read event.fd ({ event with readable := false } :: events)
  else if event.writable then handleEvent s .write event.fd events
  else { s with pc := .dispatch events }

/-- What follows one system call on the front operation of a blocked deque. -/
def handleResult (s : IoWorkerState) (dir : Direction) (fd : Int) (events : List EpollEvent)
    (item : IoItem) (items : List IoItem) (result : SysResult) : IoWorkerState :=
  let s := { s with errno := result.errnoAfter s.errno }
  match performIteration dir s.errno item.op result with
  | .again op =>
      { s with blockedOps := setBlockedOps s.blockedOps dir fd ({ item with op := op } :: items) }
  | .blocked op =>
      { s with
        blockedOps := setBlockedOps s.blockedOps dir fd ({ item with op := op } :: items)
        pc := .dispatch events }
  | .put op retVal errnoVal =>
      handleEvent
        { s with
          blockedOps := setBlockedOps s.blockedOps dir fd items
          completed := s.completed ++ [⟨{ item with op := op }, retVal, errnoVal⟩] }
        dir fd events

/-- What follows one system call on `curr_op`. -/
def performResult (s : IoWorkerState) (dir : Direction) (item : IoItem) (result : SysResult) :
    IoWorkerState :=
  let s := { s with errno := result.errnoAfter s.errno }
  match performIteration dir s.errno item.op result with
  | .again op => { s with pc := .perform dir { item with op := op } }
  | .blocked op => { s with pc := .block dir { item with op := op } }
  | .put op retVal errnoVal =>
      { s with
        pc := .popQueue
        completed := s.completed ++ [⟨{ item with op := op }, retVal, errnoVal⟩] }

/-- The body of the `do` loop on a popped operation. -/
def receiveOp (s : IoWorkerState) (item : IoItem) : IoWorkerState :=
  match item.op.direction with
  | some dir =>
      if item.op.fildes ∈ s.blockedFds dir then
        { s with
          pc := .popQueue
          blockedOps := setBlockedOps s.blockedOps dir item.op.fildes
            (s.blockedOps dir item.op.fildes ++ [item]) }
      else { s with pc := .perform dir item }
  | none =>
      if item.op.type = iotypeInvalid then { s with pc := .deleteReady .read (s.readyFds .read) }
      else { s with pc := .popQueue }

/-- `epoll_ctl(epoll_fd, EPOLL_CTL_ADD, fd, ..)` with the event mask of one direction. -/
def epollAdd (s : IoWorkerState) (dir : Direction) (fd : Int) : IoWorkerState :=
  match s.interest fd with
  | some _ => { s with errno := eexist }
  | none => { s with interest := fun f => if f = fd then some dir else s.interest f }

/-- `epoll_ctl(epoll_fd, EPOLL_CTL_DEL, fd, ..)`. -/
def epollDel (s : IoWorkerState) (fd : Int) : IoWorkerState :=
  match s.interest fd with
  | some _ => { s with interest := fun f => if f = fd then none else s.interest f }
  | none => { s with errno := enoent }

/-- The branch taken when `curr_op` would have blocked. -/
def blockOp (s : IoWorkerState) (dir : Direction) (item : IoItem) : IoWorkerState :=
  let fd := item.op.fildes
  epollAdd
    { s with
      pc := .popQueue
      readyFds := setFds s.readyFds dir ((s.readyFds dir).erase fd)
      blockedFds := setFds s.blockedFds dir (insert fd (s.blockedFds dir))
      blockedOps := setBlockedOps s.blockedOps dir fd (s.blockedOps dir fd ++ [item]) }
    dir fd

/-- After the loop over one ready set: clear it and go on to the next set or to the top. -/
def clearReady (s : IoWorkerState) : Direction → IoWorkerState
  | .read =>
      { s with
        readyFds := setFds s.readyFds .read ∅
        pc := .deleteReady .write (s.readyFds .write) }
  | .write => { s with readyFds := setFds s.readyFds .write ∅, pc := .epollWait }

/-- One step. -/
def ioStep (eventfd : Int) (s : IoWorkerState) : IoLabel → Option IoWorkerState
  | .submit dir fildes buf nbyte fut =>
      let item : IoItem := ⟨s.submitted.length, cilkOp dir fildes buf nbyte fut⟩
      some { s with ioQueue := s.ioQueue ++ [item], submitted := s.submitted ++ [item] }
  | .workDone =>
      match s.pc with
      | .epollWait => some { s with pc := .stopped }
      | _ => none
  | .wait events =>
      match s.pc with
      | .epollWait => some { s with pc := .dispatch events }
      | _ => none
  | .dispatch =>
      match s.pc with
      | .dispatch [] => some { s with pc := .checkQueue }
      | .dispatch (event :: events) => some (dispatchEvent s eventfd event events)
      | _ => none
  | .syscall result =>
      match s.pc with
      | .handle dir fd events =>
          match s.blockedOps dir fd with
          | item :: items => some (handleResult s dir fd events item items result)
          | [] => none
      | .perform dir item => some (performResult s dir item result)
      | _ => none
  | .check =>
      match s.pc with
      | .checkQueue =>
          if s.checkQueue then some { s with checkQueue := false, pc := .popQueue }
          else some { s with pc := .deleteReady .read (s.readyFds .read) }
      | _ => none
  | .pop =>
      match s.pc with
      | .popQueue =>
          match s.ioQueue with
          | [] => some { s with pc := .deleteReady .read (s.readyFds .read) }
          | item :: rest => some (receiveOp { s with ioQueue := rest } item)
      | _ => none
  | .add =>
      match s.pc with
      | .block dir item => some (blockOp s dir item)
      | _ => none
  | .delete fd =>
      match s.pc with
      | .deleteReady dir todo =>
          if fd ∈ todo then some (epollDel { s with pc := .deleteReady dir (todo.erase fd) } fd)
          else none
      | _ => none
  | .clear =>
      match s.pc with
      | .deleteReady dir todo => if todo = ∅ then some (clearReady s dir) else none
      | _ => none

/-- The I/O worker with the threads that submit operations to it. -/
def ioMachine (eventfd : Int) : Machine IoWorkerState IoLabel where
  start s := s = .initial eventfd
  step := ioStep eventfd

end CilkL
