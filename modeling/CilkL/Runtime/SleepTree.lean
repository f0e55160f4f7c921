/-
Module: CilkL.Runtime.SleepTree
Layer: Runtime
Purpose: How the system workers are put to sleep and woken. Each has a signal node, which is a run word and
  a counting semaphore; the first user worker in Cilk and the last one out send to the root, and every
  worker passes on to its children what it was told. A message to run is two steps, the store and the
  post. What `worker_runnable` reads outside the signal node comes with the label. The explicit requests
  `__cilkrts_suspend` and `__cilkrts_resume` are left out.
Imports: CilkL.Library.Machine, Mathlib.Logic.Function.Basic
Trusted boundary: human-reviewed spec (translated from scheduler.c and signal_node.c)
Main exports: SignalMsg, notifiedChildren, workerRunnable, SleepPhase, SleepTree, sleepMachine
Open obligations: none
-/
import CilkL.Library.Machine
import Mathlib.Logic.Function.Basic

namespace CilkL

/-- The messages of `signal_node_msg`: 0 to wait and 1 to run. -/
inductive SignalMsg where
  | wait
  | run
  deriving DecidableEq, Repr

/-- The workers that `notify_children` sends to, for worker `self` of `P` workers. -/
def notifiedChildren (P self : Nat) : List Nat :=
  let parent_num := self - 1
  let num_sys_workers := P - 1
  let child_num := parent_num * 2 + 1
  if child_num < num_sys_workers then
    (child_num + 1) ::
      (if child_num + 1 < num_sys_workers then [child_num + 1 + 1] else [])
  else []

/-- `enum schedule_t`. -/
inductive Schedule where
  | run
  | wait
  | exit
  deriving DecidableEq, Repr

/-- `worker_runnable` for a system worker, of which there is one only when `P` is at least 2: whether it
has a next frame, the flag `work_done`, whether its steal failures exceed the maximum, and
`signal_node_should_wait`. -/
def workerRunnable (self : Nat) (next_frame work_done failures should_wait : Bool) : Schedule :=
  if next_frame then .run
  else if work_done then .exit
  else if self = 1 then if failures && should_wait then .wait else .run
  else if should_wait then .wait
  else .run

/-- Where a system worker is. It starts in `signal_node_wait`. -/
inductive SleepPhase where
  /-- In the loop of `search_until_work_found_or_done`, or running user code. -/
  | searching
  /-- In `notify_children_wait`, with the children it has still to tell. -/
  | notifyWait (rest : List Nat)
  /-- In `signal_node_wait`, about to test the run word. -/
  | testing
  /-- In `signal_node_wait`, on the semaphore. -/
  | waiting
  /-- In `notify_children_run`, with the children it has still to tell, and whether the first of them has
  its run word set already and only the post is due. -/
  | notifyRun (rest : List Nat) (post : Bool)
  /-- Left the scheduler. -/
  | exited
  deriving DecidableEq, Repr

/-- The wait section: from the decision to wait to the last notification after it, and from the start of
the thread to the end of its first notification. -/
@[simp, grind]
def SleepPhase.inWaitSection : SleepPhase → Bool
  | .searching => false
  | .notifyWait _ => true
  | .testing => true
  | .waiting => true
  | .notifyRun _ _ => true
  | .exited => false

/-- The state of the runtime that decides who sleeps. The last two fields are not in the source: a message
counts as sent once `signal_node_msg` has returned. -/
structure SleepTree where
  /-- User workers in Cilk. -/
  Q : Nat
  work_done : Bool
  /-- `wake_runtime` has set the root's run word and has still to post; it holds the global lock. -/
  waking : Bool
  run : Nat → Bool
  sem : Nat → Nat
  phase : Nat → SleepPhase
  /-- The last message from a worker to a worker; worker 0 stands for `wake_runtime` and `sleep_runtime`. -/
  told : Nat → Nat → Option SignalMsg
  /-- The last message that was sent to a worker. -/
  message : Nat → Option SignalMsg

namespace SleepTree

/-- Before any user worker entered. -/
def initial : SleepTree where
  Q := 0
  work_done := false
  waking := false
  run := fun _ => false
  sem := fun _ => 0
  phase := fun _ => .testing
  told := fun _ _ => none
  message := fun _ => none

variable (s : SleepTree)

/-- The worker goes on at `phase`. -/
def setPhase (w : Nat) (phase : SleepPhase) : SleepTree :=
  { s with phase := Function.update s.phase w phase }

/-- A message has been sent. -/
def sent (sender c : Nat) (msg : SignalMsg) : SleepTree :=
  { s with told := Function.update s.told sender (Function.update (s.told sender) c (some msg)),
           message := Function.update s.message c (some msg) }

/-- `signal_node_msg(node, 0)`. -/
def msgWait (sender c : Nat) : SleepTree :=
  { s with run := Function.update s.run c false }.sent sender c .wait

/-- The store of `signal_node_msg(node, 1)`. -/
def msgRunStore (c : Nat) : SleepTree := { s with run := Function.update s.run c true }

/-- The `sem_post` of `signal_node_msg(node, 1)`. -/
def msgRunPost (sender c : Nat) : SleepTree :=
  { s with sem := Function.update s.sem c (s.sem c + 1) }.sent sender c .run

end SleepTree

/-- One step of a system worker of `P` workers. The flags are whether it has a next frame and whether its
steal failures exceed the maximum, which count when it is searching. -/
def sleepWorkerStep (P w : Nat) (next_frame failures : Bool) (s : SleepTree) : Option SleepTree :=
  match s.phase w with
  | .searching =>
    match workerRunnable w next_frame s.work_done failures (!s.run w) with
    | .run => some s
    | .wait => some (s.setPhase w (.notifyWait (notifiedChildren P w)))
    | .exit => some (s.setPhase w .exited)
  | .notifyWait [] => some (s.setPhase w .testing)
  | .notifyWait (c :: rest) => some ((s.msgWait w c).setPhase w (.notifyWait rest))
  | .testing =>
    if s.run w then some (s.setPhase w (.notifyRun (notifiedChildren P w) false))
    else some (s.setPhase w .waiting)
  | .waiting =>
    if s.sem w = 0 then none
    else some ({ s with sem := Function.update s.sem w (s.sem w - 1) }.setPhase w .testing)
  | .notifyRun [] _ => some (s.setPhase w .searching)
  | .notifyRun (c :: rest) false => some ((s.msgRunStore c).setPhase w (.notifyRun (c :: rest) true))
  | .notifyRun (c :: rest) true => some ((s.msgRunPost w c).setPhase w (.notifyRun rest false))
  | .exited => none

/-- What happens next. -/
inductive SleepLabel where
  /-- `__cilkrts_enter_cilk`, with `wake_runtime` up to its post for the first user worker. -/
  | enter
  /-- The post of `wake_runtime`. -/
  | wakePost
  /-- `__cilkrts_leave_cilk`, with `sleep_runtime` for the last user worker. -/
  | leave
  /-- `__cilkrts_stop_workers` sets `work_done`. -/
  | stop
  /-- A step of a system worker. -/
  | worker (w : Nat) (next_frame failures : Bool)
  deriving DecidableEq, Repr

/-- One step. The global lock is held from the store to the post of `wake_runtime`. -/
def sleepStep (P : Nat) (s : SleepTree) : SleepLabel → Option SleepTree
  | .enter =>
    if s.waking then none
    else if s.Q = 0 ∧ 1 < P then some { s.msgRunStore 1 with Q := s.Q + 1, waking := true }
    else some { s with Q := s.Q + 1 }
  | .wakePost => if s.waking then some { s.msgRunPost 0 1 with waking := false } else none
  | .leave =>
    if s.waking ∨ s.Q = 0 then none
    else if s.Q = 1 ∧ 1 < P then some { s.msgWait 0 1 with Q := s.Q - 1 }
    else some { s with Q := s.Q - 1 }
  | .stop => some { s with work_done := true }
  | .worker w next_frame failures =>
    if 1 ≤ w ∧ w < P then sleepWorkerStep P w next_frame failures s else none

/-- The machine of `P` workers. -/
def sleepMachine (P : Nat) : Machine SleepTree SleepLabel where
  start s := s = SleepTree.initial
  step := sleepStep P

end CilkL
