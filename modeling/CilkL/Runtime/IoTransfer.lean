/-
Module: CilkL.Runtime.IoTransfer
Layer: Runtime
Purpose: One read or write from `cilk_read` or `cilk_write` to the `put` of its result, in both I/O modes,
  with the integer types of the source. In the first, `perform_io_until_block` is entered, and entered
  again after each return of 1, until an entry returns 0; the kernel's results and the `errno` that an
  entry finds are the labels. Here `res` is the `int` it is declared as, so the `long` that `syscall`
  returns is truncated on assignment; `performIteration` reads it as the kernel returned it. In the
  second, a single system call follows `epoll_wait`. A file is what it answers at each readiness, and
  between two of them it answers `EAGAIN`.
Imports: CilkL.Library.Machine, CilkL.Runtime.IoScheduler
Trusted boundary: human-reviewed spec (translated from io_scheduler.cpp and cilk-io.cpp)
Main exports: toInt32, performIterationInt, Transfer, transferMachine, FileAnswer, directIo,
  ioThreadMachine
Open obligations: none
-/
import CilkL.Library.Machine
import CilkL.Runtime.IoScheduler

namespace CilkL

/-- The conversion of a `long` to the `int res` of `perform_io_until_block`. -/
def toInt32 (value : Int) : Int := (value + 2 ^ 31) % 2 ^ 32 - 2 ^ 31

/-- A value in the `ssize_t` field `res`. -/
def toSsize (value : Int) : Int := (value + 2 ^ 63) % 2 ^ 64 - 2 ^ 63

/-- The largest value of an `int`. -/
def intMax : Nat := 2 ^ 31 - 1

/-- The largest value of an `ssize_t`, which is the largest count a system call can return. -/
def ssizeMax : Nat := 2 ^ 63 - 1

/-- `EAGAIN` or `EWOULDBLOCK`. -/
def wouldBlock (error : Int) : Prop := error = eagain ∨ error = ewouldblock

instance (error : Int) : Decidable (wouldBlock error) :=
  inferInstanceAs (Decidable (_ ∨ _))

/-- The body of the loop in `perform_io_until_block` after its system call returned `result`, and what
follows the loop when it ends, with `res` an `int`, `op.res` an `ssize_t` and `errno` as it stands. -/
def performIterationInt (dir : Direction) (errno : Int) (op : IoOp) (result : SysResult) :
    PerformOutcome :=
  let res := toInt32 result.value
  let op :=
    { op with
      nbyte := wordAdd op.nbyte (-res), res := toSsize (op.res + res), buf := wordAdd op.buf res }
  if 0 < op.nbyte ∧ 0 < res ∧ dir ≠ .read then .again op
  else if res < 0 then
    let op := { op with nbyte := wordAdd op.nbyte res, buf := wordAdd op.buf (-res) }
    if wouldBlock errno then .blocked { op with res := toSsize (op.res - res) }
    else .put { op with res := -1 } (-1) errno
  else .put op op.res errno

/-- Where the operation is. -/
inductive TransferPhase where
  /-- Not performed yet, or queued. -/
  | submitted
  /-- Inside `perform_io_until_block`, about to issue the system call. -/
  | calling
  /-- The last entry returned 1. -/
  | blocked
  /-- The last entry returned 0. -/
  | done
deriving DecidableEq, Repr

/-- A system call: the operation at the time it was issued, whose `buf` and `nbyte` are its arguments, and
what it returned. -/
structure SysCall where
  op : IoOp
  result : SysResult
deriving DecidableEq, Repr

/-- The bytes a system call transferred. -/
def SysResult.bytes : SysResult → Nat
  | .count bytes => bytes
  | .fail _ => 0

/-- One operation on its way through the I/O thread. -/
structure Transfer where
  phase : TransferPhase
  op : IoOp
  errno : Int
  /-- The system calls so far, newest first. -/
  calls : List SysCall
  /-- The results handed to `put`, newest first: `ret_val` and `errno_val`. -/
  puts : List (Int × Int)
deriving DecidableEq, Repr

/-- The operation as it was submitted. -/
def Transfer.initial (op : IoOp) : Transfer :=
  { phase := .submitted, op := op, errno := 0, calls := [], puts := [] }

/-- What happens to an operation. -/
inductive TransferLabel where
  /-- The I/O thread enters `perform_io_until_block`, with some value in `errno`. -/
  | enter (errno : Int)
  /-- The pending system call returns. -/
  | syscall (result : SysResult)
deriving DecidableEq, Repr

/-- The counts a system call that asked for `nbyte` bytes may return. -/
def SysResult.possible (nbyte : Nat) : SysResult → Prop
  | .count bytes => bytes ≤ nbyte ∧ bytes ≤ ssizeMax
  | .fail _ => True

instance (nbyte : Nat) (result : SysResult) : Decidable (result.possible nbyte) := by
  cases result <;> unfold SysResult.possible <;> infer_instance

/-- The pending system call returned: its entry in the log, and the `errno` it leaves. -/
def Transfer.called (s : Transfer) (result : SysResult) : Transfer :=
  { s with errno := result.errnoAfter s.errno, calls := ⟨s.op, result⟩ :: s.calls }

/-- The operation after its pending system call returned. -/
def Transfer.afterCall (dir : Direction) (s : Transfer) (result : SysResult) : Transfer :=
  match performIterationInt dir (result.errnoAfter s.errno) s.op result with
  | .again op => { s.called result with op := op }
  | .blocked op => { s.called result with phase := .blocked, op := op }
  | .put op retVal errnoVal =>
      { s.called result with phase := .done, op := op, puts := (retVal, errnoVal) :: s.puts }

/-- One step of an operation. An entry that returned 1 is followed by another one on the next event of the
fd; after a return of 0 the operation is dropped from its queue. -/
def transferStep (dir : Direction) (s : Transfer) : TransferLabel → Option Transfer
  | .enter errno =>
      if s.phase = .submitted ∨ s.phase = .blocked then
        some { s with phase := .calling, errno := errno }
      else none
  | .syscall result =>
      if s.phase = .calling ∧ result.possible s.op.nbyte then some (s.afterCall dir result) else none

/-- The operations as `cilk_read` and `cilk_write` submit them: nothing is transferred yet, and the buffer
and the size are machine words. -/
def IoOp.Fresh (op : IoOp) : Prop := op.res = 0 ∧ op.buf < 2 ^ 64 ∧ op.nbyte < 2 ^ 64

/-- An operation performed by the I/O thread. -/
def transferMachine (dir : Direction) (op : IoOp) : Machine Transfer TransferLabel where
  start s := s = Transfer.initial op
  step := transferStep dir

/-- The bytes that the calls of a log transferred. -/
def accepted (calls : List SysCall) : Nat :=
  (calls.map fun call => call.result.bytes).sum

/-- What a file answers to the system call that finds it ready. -/
inductive FileAnswer where
  /-- It accepts or supplies this many bytes, or as many as were asked for. -/
  | transfers (bytes : Nat)
  /-- It fails, and not for want of readiness. -/
  | fails (error : Int) (hard : ¬ wouldBlock error)
deriving DecidableEq

/-- The result of a system call that asks for `nbyte` bytes. -/
def FileAnswer.result (nbyte : Nat) : FileAnswer → SysResult
  | .transfers bytes => .count (min bytes (min nbyte ssizeMax))
  | .fails error _ => .fail error

/-- The addresses of the bytes that a system call transferred, in order. -/
def SysCall.addresses (call : SysCall) : List Nat :=
  (List.range call.result.bytes).map fun (i : Nat) => wordAdd call.op.buf i

/-- What the program sees of a finished operation: `ret_val`, `errno_val` when `ret_val` is -1, and the
addresses of the bytes that were transferred, in order. -/
structure IoOutcome where
  retVal : Int
  errnoVal : Option Int
  bytes : List Nat
deriving DecidableEq, Repr

/-- What the program sees of an `io_future_result` and of the system calls behind it. -/
def IoOutcome.of (retVal errnoVal : Int) (calls : List SysCall) : IoOutcome :=
  { retVal := retVal
    errnoVal := if retVal = -1 then some errnoVal else none
    bytes := calls.reverse.flatMap SysCall.addresses }

/-- `cilk_read` and `cilk_write` on a worker without an `io_queue`: `epoll_wait` returns at the first
readiness of the file, if there is one, and one system call follows. -/
def directIo (op : IoOp) (errno : Int) : List FileAnswer → Option IoOutcome
  | [] => none
  | answer :: _ =>
      let result := answer.result op.nbyte
      some (IoOutcome.of result.value (result.errnoAfter errno) [⟨op, result⟩])

/-- An operation on the I/O thread together with what its file has still to answer. -/
structure IoThreadState where
  transfer : Transfer
  file : List FileAnswer

/-- What happens to an operation on the I/O thread. -/
inductive IoThreadLabel where
  /-- `perform_io_until_block` is entered. -/
  | enter (errno : Int)
  /-- The file is not ready for the pending system call. -/
  | notReady
  /-- The file is ready for the pending system call. -/
  | ready
deriving DecidableEq, Repr

/-- One step of an operation on the I/O thread. -/
def ioThreadStep (dir : Direction) (s : IoThreadState) : IoThreadLabel → Option IoThreadState
  | .enter errno =>
      (transferStep dir s.transfer (.enter errno)).map fun transfer => ⟨transfer, s.file⟩
  | .notReady =>
      (transferStep dir s.transfer (.syscall (.fail eagain))).map fun transfer => ⟨transfer, s.file⟩
  | .ready =>
      match s.file with
      | [] => none
      | answer :: rest =>
          (transferStep dir s.transfer (.syscall (answer.result s.transfer.op.nbyte))).map
            fun transfer => ⟨transfer, rest⟩

/-- An operation performed by the I/O thread on a file. -/
def ioThreadMachine (dir : Direction) (op : IoOp) (file : List FileAnswer) :
    Machine IoThreadState IoThreadLabel where
  start s := s = ⟨Transfer.initial op, file⟩
  step := ioThreadStep dir

/-- What the program sees of an operation on the I/O thread once its result is put. -/
def IoThreadState.outcome (s : IoThreadState) : Option IoOutcome :=
  match s.transfer.phase, s.transfer.puts with
  | .done, (retVal, errnoVal) :: _ => some (IoOutcome.of retVal errnoVal s.transfer.calls)
  | _, _ => none

end CilkL
