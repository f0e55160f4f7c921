/-
Module: CilkL.Runtime.ReplayWait
Layer: Runtime
Purpose: How a spawned function that returns waits, when a log is replayed, until its parent is stolen:
  `replay_wait_for_steal_if_parent_was_stolen`, interleaved with the thieves that advance the head of the
  worker's active deque. A worker's `tail` and `head` point to the fields of that deque, so the model has
  the addresses of these fields next to what they hold.
Imports: CilkL.Library.Machine, CilkL.Runtime.ReplayCursor, CilkL.Runtime.SyncReplay
Trusted boundary: human-reviewed spec (translated from record-replay.cpp, record-replay.h and deque.c)
Main exports: ActiveDeque, TailAndHead, ActiveDeque.dequeSwitch, WaitCall, ReplayWait, replayWaitStep,
  replayWaitMachine
Open obligations: none
-/
import CilkL.Library.Machine
import CilkL.Runtime.ReplayCursor
import CilkL.Runtime.SyncReplay

namespace CilkL

/-- `sizeof` a pointer. -/
def pointerSize : UInt64 := 8

/-- `struct deque`: its address, and the entries of `ltq` that its first two fields, `tail` and `head`,
point to. What `malloc` returns is not null, and the fields fit behind it. -/
structure ActiveDeque where
  address : UInt64
  tail : Nat
  head : Nat
  allocated : pointerSize.toNat ≤ address.toNat ∧ address.toNat + 2 * pointerSize.toNat < 2 ^ 64

/-- `&d->tail`. -/
def ActiveDeque.tailAddress (d : ActiveDeque) : UInt64 := d.address

/-- `&d->head`. -/
def ActiveDeque.headAddress (d : ActiveDeque) : UInt64 := d.address + pointerSize

/-- `w->tail` and `w->head`. -/
structure TailAndHead where
  tail : UInt64
  head : UInt64

/-- What `deque_switch` sets them to. -/
def ActiveDeque.dequeSwitch (d : ActiveDeque) : TailAndHead :=
  { tail := d.tailAddress, head := d.headAddress }

/-- What does not change while the worker is in the call. -/
structure WaitCall where
  record_or_replay : RecordReplay
  replay_list_root : List ReplayEntry
  /-- `w->l->replay_list_entry` when the function is called. -/
  replay_list_entry : Nat
  /-- The chain from `w->pedigree.parent`. -/
  parent : List UInt64
  /-- The worker's active deque when the function is called. -/
  deque : ActiveDeque

/-- Where the worker is in the function. -/
inductive WaitPhase where
  | entered
  /-- About to evaluate the condition of the loop. -/
  | looping
  /-- The loop has ended. -/
  | left
  | returned
deriving DecidableEq, Repr

/-- The worker and its active deque. -/
structure ReplayWait where
  deque : ActiveDeque
  phase : WaitPhase
  replay_list_entry : Nat

/-- A step of the worker, or a steal from its deque. -/
inductive WaitLabel where
  | enter
  | evaluate
  | consume
  | steal
deriving DecidableEq, Repr

/-- The test before the loop: the current entry is an ORPHANED one with the pedigree of the parent. -/
def WaitCall.matches (call : WaitCall) : Bool :=
  call.record_or_replay = .replayLog &&
    call.replay_list_root[call.replay_list_entry]?.any fun entry =>
      entry.match .orphaned call.parent

/-- `(w->tail - 1) < w->head`. -/
def TailAndHead.tailBelowHead (w : TailAndHead) : Bool := w.tail - pointerSize < w.head

/-- One step. -/
def replayWaitStep (call : WaitCall) (s : ReplayWait) : WaitLabel → Option ReplayWait
  | .enter =>
      if s.phase = .entered then
        some { s with phase := if call.matches then .looping else .returned }
      else none
  | .evaluate =>
      if s.phase = .looping then
        if s.deque.dequeSwitch.tailBelowHead then some { s with phase := .left }
        -- `__cilkrts_sleep`
        else some s
      else none
  | .consume =>
      if s.phase = .left then
        some { s with
          phase := .returned
          replay_list_entry := nextEntry call.replay_list_root s.replay_list_entry }
      else none
  | .steal =>
      -- `can_steal_from` and `detach_for_steal`
      if s.deque.head < s.deque.tail then
        some { s with deque := { s.deque with head := s.deque.head + 1 } }
      else none

/-- The runs of one call. -/
def replayWaitMachine (call : WaitCall) : Machine ReplayWait WaitLabel where
  start s :=
    s = { deque := call.deque, phase := .entered, replay_list_entry := call.replay_list_entry }
  step := replayWaitStep call

end CilkL
