/-
Module: CilkL.Proofs.IoReadiness
Layer: Proofs
Purpose: Which events reach the operations blocked on their fd. The worker retries the queue of a
  direction only when the mask has that direction's bit. As long as every event it takes up has the bit of
  every direction with a non-empty queue on the fd, each head operation has been retried since the last
  event of its fd, its last attempt returned `EAGAIN`, and it could finish only after a change that epoll
  still has to report. An event that carries `EPOLLHUP` alone breaks the condition.
Imports: CilkL.Proofs.EpollInterest, CilkL.Runtime.IoReadiness
Trusted boundary: none (fully proved)
Main exports: EventReachesQueues, ReadinessInv, ReadinessInv.of_step, event_reaches_blocked
Open obligations: none
-/
import CilkL.Proofs.EpollInterest
import CilkL.Runtime.IoReadiness

namespace CilkL

/-- The mask has the bit that makes the loop call `handle_event` for this direction. -/
def EpollEvent.covers (event : EpollEvent) : Direction → Bool
  | .read => event.readable
  | .write => event.writable

/-- Every direction with a non-empty queue on the event's fd is covered by the event's mask. -/
def CoversBlocked (eventfd : Int) (io : IoWorkerState) (event : EpollEvent) : Prop :=
  (io.blockedOps .read event.fd = [] ∨ (event.fd ≠ eventfd ∧ event.covers .read = true)) ∧
    (io.blockedOps .write event.fd = [] ∨ (event.fd ≠ eventfd ∧ event.covers .write = true))

instance (eventfd : Int) (io : IoWorkerState) (event : EpollEvent) :
    Decidable (CoversBlocked eventfd io event) := inferInstanceAs (Decidable (_ ∧ _))

/-- A fresh event that the step takes up covers the blocked queues of its fd. -/
def EventReachesQueues (eventfd : Int) (s : ReadinessState) : ReadinessLabel → Prop
  | .io .dispatch =>
      match s.io.pc with
      | .dispatch (event :: _) => s.half = true ∨ CoversBlocked eventfd s.io event
      | _ => True
  | _ => True

/-- What is asked of the event at the front, at any place in the loop, can be decided. -/
@[reducible] def EventReachesQueues.decidableAt (half : Bool) (covers : EpollEvent → Prop)
    [DecidablePred covers] : (pc : IoPc) →
      Decidable (match pc with
        | .dispatch (event :: _) => half = true ∨ covers event
        | _ => True)
  | .dispatch (_ :: _) => inferInstanceAs (Decidable (_ ∨ _))
  | .dispatch [] | .epollWait | .handle .. | .checkQueue | .popQueue | .perform .. | .block ..
  | .deleteReady .. | .stopped => isTrue trivial

instance (eventfd : Int) : ∀ s label, Decidable (EventReachesQueues eventfd s label)
  | s, .io .dispatch => EventReachesQueues.decidableAt s.half (CoversBlocked eventfd s.io) s.io.pc
  | _, .kernel .. => isTrue trivial
  | _, .io (.submit ..) | _, .io .workDone | _, .io (.wait _) | _, .io (.syscall _) | _, .io .check
  | _, .io .pop | _, .io .add | _, .io (.delete _) | _, .io .clear => isTrue trivial

/-- The head operation of this queue has had its retry, and what lets it finish is still to be reported. -/
def Settled (s : ReadinessState) (dir : Direction) (fd : Int) : Prop :=
  ∀ item, (s.io.blockedOps dir fd).head? = some item →
    RetriedSinceEvent dir fd item.ticket s.history ∧
      (s.ready dir fd = true → s.turned dir fd = true)

/-- The event that is being processed still leads to a retry of this queue. -/
def RetryDue (s : ReadinessState) (dir : Direction) (fd : Int) : Prop :=
  match s.io.pc with
  | .handle d f events =>
      f = fd ∧ (d = dir ∨ (s.half = true ∧ dir = .write ∧
        ∃ event ∈ events.head?, event.writable = true))
  | .dispatch events =>
      s.half = true ∧ dir = .write ∧ ∃ event ∈ events.head?, event.fd = fd ∧ event.writable = true
  | _ => False

/-- Where the `EPOLLOUT` half of an event waits for its turn. -/
def HalfFront (eventfd : Int) (s : ReadinessState) : Prop :=
  match s.io.pc with
  | .handle .read fd events =>
      s.half = true ∧ fd ≠ eventfd ∧
        ∃ event rest, events = event :: rest ∧ event.fd = fd ∧ event.readable = false
  | .dispatch events =>
      s.half = true →
        ∃ event rest, events = event :: rest ∧ event.fd ≠ eventfd ∧ event.readable = false
  | _ => s.half = false

/-- What holds of the worker, the history and the kernel's side. -/
structure ReadinessInv (eventfd : Int) (s : ReadinessState) : Prop where
  loop : IoInv s.io
  front : HalfFront eventfd s
  settled : ∀ dir fd, RetryDue s dir fd ∨ Settled s dir fd
  /-- The operation about to be filed has just returned `EAGAIN`. -/
  blocking : ∀ dir item, s.io.pc = .block dir item →
    RetriedSinceEvent dir item.op.fildes item.ticket s.history ∧
      (s.ready dir item.op.fildes = true → s.turned dir item.op.fildes = true)

theorem Settled.of_empty {s : ReadinessState} {dir : Direction} {fd : Int}
    (empty : s.io.blockedOps dir fd = []) : Settled s dir fd := by
  intro item head
  simp [empty] at head

/-- An empty queue, or one whose head stays, is not disturbed by a step that records nothing. -/
theorem Settled.of_sameHead {s s' : ReadinessState} {dir : Direction} {fd : Int}
    (settled : Settled s dir fd)
    (sameHead : (s'.io.blockedOps dir fd).head? = (s.io.blockedOps dir fd).head?)
    (history : s'.history = s.history) (ready : s'.ready = s.ready) (turned : s'.turned = s.turned) :
    Settled s' dir fd := by
  intro item head
  rw [sameHead] at head
  rw [history, ready, turned]
  exact settled item head

/-- An attempt for another queue does not disturb this one. -/
theorem Settled.of_attempt {s s' : ReadinessState} {dir d : Direction} {fd f : Int} {ticket : Nat}
    {result : SysResult} (settled : Settled s dir fd) (other : ¬ (d = dir ∧ f = fd))
    (sameHead : s'.io.blockedOps dir fd = s.io.blockedOps dir fd)
    (history : s'.history = .attempt d f ticket result :: s.history)
    (ready : s'.ready = s.ready) (turned : s'.turned = s.turned) : Settled s' dir fd := by
  intro item head
  rw [sameHead] at head
  have before := settled item head
  rw [history, ready, turned]
  refine ⟨?_, before.2⟩
  have distinct : ¬ (d = dir ∧ f = fd ∧ ticket = item.ticket) := fun same => other ⟨same.1, same.2.1⟩
  simpa only [RetriedSinceEvent, if_neg distinct] using before.1

/-- Only the event being processed has a retry due. -/
theorem RetryDue.processing {s : ReadinessState} {dir : Direction} {fd : Int}
    (due : RetryDue s dir fd) : Processing s fd := by
  unfold RetryDue at due
  unfold Processing
  split at due
  · rename_i pc
    simpa [pc] using due.1
  · rename_i events pc
    obtain ⟨half, -, event, head, sameFd, -⟩ := due
    cases events with
    | nil => simp at head
    | cons front rest =>
        simp only [List.head?_cons, Option.mem_def, Option.some.injEq] at head
        simp [pc, half, head, sameFd]
  · exact absurd due id

/-- No event is being processed, so every queue is settled. -/
theorem ReadinessInv.settled_of_idle {eventfd : Int} {s : ReadinessState} {dir : Direction} {fd : Int}
    (inv : ReadinessInv eventfd s) (idle : ¬ Processing s fd) : Settled s dir fd := by
  rcases inv.settled dir fd with due | settled
  · exact absurd due.processing idle
  · exact settled

/-- `handle_event` either finds the queue empty or goes to its system call. -/
theorem handleEvent_pc (s : IoWorkerState) (dir : Direction) (fd : Int) (events : List EpollEvent) :
    (s.blockedOps dir fd = [] ∧ (handleEvent s dir fd events).pc = .dispatch events) ∨
      (s.blockedOps dir fd ≠ [] ∧ (handleEvent s dir fd events).pc = .handle dir fd events) := by
  unfold handleEvent
  split
  · rename_i empty
    exact .inl ⟨empty, rfl⟩
  · rename_i nonempty
    exact .inr ⟨nonempty, rfl⟩

/-! ### Steps outside the event loop -/

theorem ReadinessInv.of_initial {eventfd : Int} {s : ReadinessState}
    (initial : s.io = .initial eventfd ∧ s.half = false ∧ s.history = []) :
    ReadinessInv eventfd s := by
  obtain ⟨io, half, history⟩ := initial
  refine ⟨io ▸ .of_initial eventfd, ?_, ?_, ?_⟩
  · simp [HalfFront, io, IoWorkerState.initial, half]
  · intro dir fd
    exact .inr (.of_empty (by simp [io, IoWorkerState.initial]))
  · simp [io, IoWorkerState.initial]

/-- A change in the kernel that lets a blocked operation finish is one that epoll has to report. -/
theorem ReadinessInv.of_kernel {eventfd : Int} {s : ReadinessState} {dir : Direction} {fd : Int}
    {ready : Bool} (inv : ReadinessInv eventfd s) :
    ReadinessInv eventfd
      { s with
        ready := setFlag s.ready dir fd ready
        turned := setFlag s.turned dir fd (s.turned dir fd || (ready && !s.ready dir fd)) } := by
  have flags : ∀ d f, (s.ready d f = true → s.turned d f = true) →
      setFlag s.ready dir fd ready d f = true →
      setFlag s.turned dir fd (s.turned dir fd || (ready && !s.ready dir fd)) d f = true := by
    intro d f before now
    by_cases here : d = dir ∧ f = fd
    · obtain ⟨rfl, rfl⟩ := here
      simp only [setFlag, and_self, if_true] at now ⊢
      cases was : s.ready d f with
      | true => simp [before was]
      | false => simp [now]
    · simp only [setFlag, if_neg here] at now ⊢
      exact before now
  refine ⟨inv.loop, inv.front, ?_, ?_⟩
  · intro d f
    apply (inv.settled d f).imp id
    intro settled item head
    exact ⟨(settled item head).1, flags d f (settled item head).2⟩
  · intro d item pc
    exact ⟨(inv.blocking d item pc).1, flags d _ (inv.blocking d item pc).2⟩

/-- A step that leaves the program counter and the queues alone. -/
theorem ReadinessInv.of_sameLoop {eventfd : Int} {s : ReadinessState} {io : IoWorkerState}
    (inv : ReadinessInv eventfd s) (loop : IoInv io) (pc : io.pc = s.io.pc)
    (blockedOps : io.blockedOps = s.io.blockedOps) : ReadinessInv eventfd { s with io := io } := by
  refine ⟨loop, ?_, ?_, ?_⟩
  · have front := inv.front
    unfold HalfFront at front ⊢
    exact pc ▸ front
  · intro dir fd
    apply (inv.settled dir fd).imp
    · intro due
      unfold RetryDue at due ⊢
      exact pc ▸ due
    · exact fun settled => settled.of_sameHead (congrArg _ (congrFun₂ blockedOps dir fd)) rfl rfl rfl
  · exact fun dir item at_block => inv.blocking dir item (pc ▸ at_block)

/-- The program counter is outside the event loop and is not about to file an operation. -/
def IoPc.Outside : IoPc → Prop
  | .handle .. | .dispatch _ | .block .. => False
  | _ => True

/-- A step outside the event loop keeps the heads of the queues. -/
theorem ReadinessInv.of_outside {eventfd : Int} {s : ReadinessState} {io : IoWorkerState}
    (inv : ReadinessInv eventfd s) (loop : IoInv io) (outside : s.io.pc.Outside ∨ s.io.pc = .dispatch [])
    (stays : io.pc.Outside ∨ ∃ events, io.pc = .dispatch events)
    (heads : ∀ dir fd, (io.blockedOps dir fd).head? = (s.io.blockedOps dir fd).head?) :
    ReadinessInv eventfd { s with io := io } := by
  have half : s.half = false := by
    have front := inv.front
    unfold HalfFront at front
    rcases outside with outside | last
    · cases pc : s.io.pc <;> simp [pc, IoPc.Outside] at outside <;> simpa [pc] using front
    · simpa [last] using front
  have idle : ∀ fd, ¬ Processing s fd := by
    intro fd
    rcases outside with outside | last
    · cases pc : s.io.pc <;> simp [pc, IoPc.Outside] at outside <;> simp [Processing, pc]
    · simp [Processing, last]
  refine ⟨loop, ?_, ?_, ?_⟩
  · unfold HalfFront
    rcases stays with stays | ⟨events, pc⟩
    · cases pc : io.pc <;> simp [pc, IoPc.Outside] at stays <;> simpa [pc] using half
    · simp [pc, half]
  · intro dir fd
    exact .inr ((inv.settled_of_idle (idle fd)).of_sameHead (heads dir fd) rfl rfl rfl)
  · intro dir item pc
    rcases stays with stays | ⟨events, other⟩
    · exact absurd stays (by simp [show io.pc = _ from pc, IoPc.Outside])
    · rw [show io.pc = _ from pc] at other
      cases other

/-- Filing the operation makes it the head of a queue that was empty. -/
theorem ReadinessInv.of_blockOp {eventfd : Int} {s : ReadinessState} {dir : Direction} {item : IoItem}
    (inv : ReadinessInv eventfd s) (pc : s.io.pc = .block dir item)
    (loop : IoInv (blockOp s.io dir item)) :
    ReadinessInv eventfd { s with io := blockOp s.io dir item } := by
  have half : s.half = false := by simpa [HalfFront, pc] using inv.front
  have idle : ∀ fd, ¬ Processing s fd := by simp [Processing, pc]
  have next : (blockOp s.io dir item).pc = .popQueue ∧ (blockOp s.io dir item).blockedOps =
      setBlockedOps s.io.blockedOps dir item.op.fildes
        (s.io.blockedOps dir item.op.fildes ++ [item]) := by
    simp only [blockOp, epollAdd]
    split <;> exact ⟨rfl, rfl⟩
  have empty : s.io.blockedOps dir item.op.fildes = [] := by
    have locals := inv.loop.locals
    simp only [IoLocals, pc] at locals
    exact locals.2
  refine ⟨loop, by simpa [HalfFront, next.1] using half, ?_, by simp [next.1]⟩
  intro d f
  refine .inr ?_
  by_cases here : d = dir ∧ f = item.op.fildes
  · obtain ⟨rfl, rfl⟩ := here
    intro head headEq
    simp only [next.2, setBlockedOps_self, empty, List.nil_append, List.head?_cons,
      Option.some.injEq] at headEq
    exact headEq ▸ inv.blocking d item pc
  · refine (inv.settled_of_idle (idle f)).of_sameHead ?_ rfl rfl rfl
    simp only [next.2, setBlockedOps_other here]

/-! ### System calls -/

/-- An operation is left blocked only by `EAGAIN`. -/
theorem performIteration_blocked {dir : Direction} {errno : Int} {op op' : IoOp} {result : SysResult}
    (blocked : performIteration dir (result.errnoAfter errno) op result = .blocked op') :
    result = .fail eagain := by
  simp only [performIteration] at blocked
  split at blocked
  · simp at blocked
  · split at blocked
    · rename_i failed
      split at blocked
      · rename_i again
        cases result with
        | count bytes =>
            simp only [SysResult.value] at failed
            omega
        | fail error =>
            simp only [SysResult.errnoAfter, eagain, ewouldblock, or_self] at again
            rw [again, eagain]
      · simp at blocked
    · simp at blocked

/-- The attempt just recorded is the last one. -/
theorem RetriedSinceEvent.of_attempt {dir : Direction} {fd : Int} {ticket : Nat}
    {history : List IoHappening} :
    RetriedSinceEvent dir fd ticket (.attempt dir fd ticket (.fail eagain) :: history) := by
  simp [RetriedSinceEvent]

/-- `attempt` records the call; a call that could finish did not return `EAGAIN`. -/
theorem attempt_eq_some {s s' : ReadinessState} {dir : Direction} {fd : Int} {ticket : Nat}
    {result : SysResult} (recorded : s.attempt dir fd ticket result = some s') :
    s' = { s with history := .attempt dir fd ticket result :: s.history } ∧
      (result = .fail eagain → s.ready dir fd = false) := by
  unfold ReadinessState.attempt at recorded
  split at recorded
  · simp at recorded
  · rename_i consistent
    refine ⟨(Option.some.inj recorded).symm, ?_⟩
    intro again
    simpa [again] using consistent

theorem ReadinessInv.of_perform {eventfd : Int} {s s' : ReadinessState} {dir : Direction}
    {item : IoItem} {result : SysResult} (inv : ReadinessInv eventfd s)
    (pc : s.io.pc = .perform dir item) (loop : IoInv (performResult s.io dir item result))
    (recorded : s.attempt dir item.op.fildes item.ticket result = some s') :
    ReadinessInv eventfd { s' with io := performResult s.io dir item result } := by
  obtain ⟨rfl, consistent⟩ := attempt_eq_some recorded
  have half : s.half = false := by simpa [HalfFront, pc] using inv.front
  have idle : ∀ fd, ¬ Processing s fd := by simp [Processing, pc]
  have empty : s.io.blockedOps dir item.op.fildes = [] := by
    have locals := inv.loop.locals
    simp only [IoLocals, pc] at locals
    exact locals.2
  have blockedOps : (performResult s.io dir item result).blockedOps = s.io.blockedOps := by
    simp only [performResult]
    split <;> rfl
  refine ⟨loop, ?_, ?_, ?_⟩
  · simp only [performResult]
    split <;> simpa [HalfFront] using half
  · intro d f
    refine .inr ?_
    by_cases here : dir = d ∧ item.op.fildes = f
    · obtain ⟨rfl, rfl⟩ := here
      exact .of_empty (by rw [blockedOps, empty])
    · exact (inv.settled_of_idle (idle f)).of_attempt here (congrFun₂ blockedOps d f) rfl rfl rfl
  · intro d next atBlock
    cases outcome : performIteration dir (result.errnoAfter s.io.errno) item.op result with
    | again op => simp [performResult, outcome] at atBlock
    | put op retVal errnoVal => simp [performResult, outcome] at atBlock
    | blocked op =>
        have again := performIteration_blocked outcome
        have sameFd : op.fildes = item.op.fildes := by
          have keeps := performIteration_keeps dir (result.errnoAfter s.io.errno) item.op result
          rw [outcome] at keeps
          exact keeps.2
        simp only [performResult, outcome, IoPc.block.injEq] at atBlock
        obtain ⟨rfl, rfl⟩ := atBlock
        simp only [sameFd, again]
        refine ⟨.of_attempt, ?_⟩
        intro ready
        simp [consistent again] at ready

/-- The step after a system call in `handle_event`: the call for the queue is repeated, or the queue is
    settled and the loop goes on. -/
theorem ReadinessInv.of_afterHandle {eventfd : Int} {s s' : ReadinessState} {dir : Direction}
    {fd : Int} {events : List EpollEvent} {ticket : Nat} {result : SysResult}
    (inv : ReadinessInv eventfd s) (pc : s.io.pc = .handle dir fd events) (loop : IoInv s'.io)
    (history : s'.history = .attempt dir fd ticket result :: s.history) (half : s'.half = s.half)
    (ready : s'.ready = s.ready) (turned : s'.turned = s.turned)
    (others : ∀ d f, ¬ (d = dir ∧ f = fd) → s'.io.blockedOps d f = s.io.blockedOps d f)
    (next : s'.io.pc = .handle dir fd events ∨ (s'.io.pc = .dispatch events ∧ Settled s' dir fd)) :
    ReadinessInv eventfd s' := by
  have front := inv.front
  simp only [HalfFront, pc] at front
  refine ⟨loop, ?_, ?_, ?_⟩
  · rcases next with next | ⟨next, -⟩
    · simpa only [HalfFront, next, half] using front
    · simp only [HalfFront, next, half]
      intro halfDue
      cases dir with
      | read =>
          obtain ⟨-, notEventfd, event, rest, eventsEq, sameFd, notReadable⟩ := front
          exact ⟨event, rest, eventsEq, sameFd.symm ▸ notEventfd, notReadable⟩
      | write => simp [halfDue] at front
  · intro d f
    by_cases here : d = dir ∧ f = fd
    · obtain ⟨rfl, rfl⟩ := here
      rcases next with next | ⟨-, settled⟩
      · exact .inl (by simp [RetryDue, next])
      · exact .inr settled
    · rcases inv.settled d f with due | settled
      · refine .inl ?_
        simp only [RetryDue, pc] at due
        obtain ⟨rfl, rfl | ⟨halfDue, rfl, event, head, writable⟩⟩ := due
        · exact absurd ⟨rfl, rfl⟩ here
        · rcases next with next | ⟨next, -⟩
          · simp only [RetryDue, next, half]
            exact ⟨trivial, .inr ⟨halfDue, trivial, event, head, writable⟩⟩
          · cases dir with
            | read =>
                obtain ⟨-, -, other, rest, eventsEq, sameFd, -⟩ := front
                simp only [eventsEq, List.head?_cons, Option.mem_def, Option.some.injEq] at head
                simp only [RetryDue, next, half]
                exact ⟨halfDue, trivial, event, by simp [eventsEq, head], head ▸ sameFd, writable⟩
            | write => simp [halfDue] at front
      · exact .inr (settled.of_attempt (fun same => here ⟨same.1.symm, same.2.symm⟩)
          (others d f here) history ready turned)
  · intro d item atBlock
    rcases next with next | ⟨next, -⟩ <;> simp [next] at atBlock

theorem ReadinessInv.of_handle {eventfd : Int} {s s' : ReadinessState} {dir : Direction} {fd : Int}
    {events : List EpollEvent} {item : IoItem} {items : List IoItem} {result : SysResult}
    (inv : ReadinessInv eventfd s) (pc : s.io.pc = .handle dir fd events)
    (loop : IoInv (handleResult s.io dir fd events item items result))
    (recorded : s.attempt dir fd item.ticket result = some s') :
    ReadinessInv eventfd { s' with io := handleResult s.io dir fd events item items result } := by
  obtain ⟨rfl, consistent⟩ := attempt_eq_some recorded
  refine inv.of_afterHandle pc loop rfl rfl rfl rfl ?_ ?_
  · intro d f other
    simp only [handleResult]
    split
    · exact setBlockedOps_other other _ _
    · exact setBlockedOps_other other _ _
    · rw [handleEvent_blockedOps]
      exact setBlockedOps_other other _ _
  · cases outcome : performIteration dir (result.errnoAfter s.io.errno) item.op result with
    | again op => exact .inl (by simp [handleResult, outcome, pc])
    | blocked op =>
        have again := performIteration_blocked outcome
        refine .inr ⟨by simp [handleResult, outcome], ?_⟩
        intro head headEq
        simp only [handleResult, outcome, setBlockedOps_self, List.head?_cons,
          Option.some.injEq] at headEq
        subst headEq
        rw [again]
        refine ⟨.of_attempt, ?_⟩
        intro ready
        simp [consistent again] at ready
    | put op retVal errnoVal =>
        simp only [handleResult, outcome]
        rcases handleEvent_pc _ dir fd events with ⟨empty, next⟩ | ⟨-, next⟩
        · refine .inr ⟨next, .of_empty ?_⟩
          rw [handleEvent_blockedOps]
          exact empty
        · exact .inl next

/-! ### Events -/

/-- The `EPOLLOUT` half of an event whose `EPOLLIN` half is done. -/
theorem ReadinessInv.of_secondHalf {eventfd : Int} {s : ReadinessState} {event : EpollEvent}
    {events : List EpollEvent} (inv : ReadinessInv eventfd s)
    (pc : s.io.pc = .dispatch (event :: events)) (half : s.half = true)
    (loop : IoInv (dispatchEvent s.io eventfd event events)) :
    ReadinessInv eventfd
      { s.takeUp eventfd event with io := dispatchEvent s.io eventfd event events } := by
  have front := inv.front
  simp only [HalfFront, pc, half, true_implies] at front
  obtain ⟨_, _, eventsEq, other, notReadable⟩ := front
  cases eventsEq
  have takenUp : s.takeUp eventfd event = { s with half := false } := by
    simp [ReadinessState.takeUp, half]
  -- Only the writers of this fd were still waiting for their retry.
  have others : ∀ d f, ¬ (d = .write ∧ f = event.fd ∧ event.writable = true) → Settled s d f := by
    intro d f notThis
    rcases inv.settled d f with due | settled
    · simp only [RetryDue, pc, List.head?_cons, Option.mem_def, Option.some.injEq] at due
      obtain ⟨-, rfl, _, rfl, rfl, writable⟩ := due
      exact absurd ⟨rfl, rfl, writable⟩ notThis
    · exact settled
  by_cases writable : event.writable = true
  · have dispatched : dispatchEvent s.io eventfd event events =
        handleEvent s.io .write event.fd events := by
      simp [dispatchEvent, other, notReadable, writable]
    rw [dispatched] at loop ⊢
    rw [takenUp]
    have next := handleEvent_pc s.io .write event.fd events
    refine ⟨loop, ?_, ?_, ?_⟩
    · rcases next with ⟨-, next⟩ | ⟨-, next⟩ <;> simp [HalfFront, next]
    · intro d f
      by_cases here : d = .write ∧ f = event.fd
      · obtain ⟨rfl, rfl⟩ := here
        rcases next with ⟨empty, -⟩ | ⟨-, next⟩
        · exact .inr (.of_empty (by rw [handleEvent_blockedOps, empty]))
        · exact .inl (by simp [RetryDue, next])
      · refine .inr ((others d f fun same => here ⟨same.1, same.2.1⟩).of_sameHead ?_ rfl rfl rfl)
        rw [handleEvent_blockedOps]
    · intro d item atBlock
      rcases next with ⟨-, next⟩ | ⟨-, next⟩ <;> simp [next] at atBlock
  · have dispatched : dispatchEvent s.io eventfd event events =
        { s.io with pc := .dispatch events } := by
      simp [dispatchEvent, other, notReadable, writable]
    rw [dispatched] at loop ⊢
    rw [takenUp]
    refine ⟨loop, by simp [HalfFront], ?_, by simp⟩
    intro d f
    exact .inr ((others d f fun same => writable same.2.2).of_sameHead rfl rfl rfl rfl)

/-- A fresh event whose mask covers the blocked queues of its fd: each of them gets its retry. -/
theorem ReadinessInv.of_freshEvent {eventfd : Int} {s : ReadinessState} {event : EpollEvent}
    {events : List EpollEvent} (inv : ReadinessInv eventfd s)
    (pc : s.io.pc = .dispatch (event :: events)) (fresh : s.half = false)
    (covers : CoversBlocked eventfd s.io event)
    (loop : IoInv (dispatchEvent s.io eventfd event events)) :
    ReadinessInv eventfd
      { s.takeUp eventfd event with io := dispatchEvent s.io eventfd event events } := by
  have idle : ∀ fd, ¬ Processing s fd := by simp [Processing, pc, fresh]
  have blockedOps : (dispatchEvent s.io eventfd event events).blockedOps = s.io.blockedOps := by
    unfold dispatchEvent
    split
    · rfl
    · split
      · exact handleEvent_blockedOps ..
      · split
        · exact handleEvent_blockedOps ..
        · rfl
  have takenUp : s.takeUp eventfd event =
      { s with
        half := decide (event.fd ≠ eventfd) && event.readable
        history := .event event.fd :: s.history
        turned := fun d f => if f = event.fd then false else s.turned d f } := by
    simp [ReadinessState.takeUp, fresh]
  -- The other fds are not concerned.
  have settledOther : ∀ d f, f ≠ event.fd → Settled
      { s.takeUp eventfd event with io := dispatchEvent s.io eventfd event events } d f := by
    intro d f other item head
    rw [takenUp]
    simp only [blockedOps] at head
    have settled : Settled s d f := inv.settled_of_idle (idle f)
    have before := settled item head
    exact ⟨⟨other.symm, before.1⟩, by simpa [other] using before.2⟩
  have settledEmpty : ∀ d f, s.io.blockedOps d f = [] → Settled
      { s.takeUp eventfd event with io := dispatchEvent s.io eventfd event events } d f := by
    intro d f empty
    exact .of_empty (by simp [blockedOps, empty])
  by_cases isEventfd : event.fd = eventfd
  · have dispatched : (dispatchEvent s.io eventfd event events).pc = .dispatch events := by
      simp [dispatchEvent, isEventfd]
    refine ⟨loop, ?_, ?_, by simp [dispatched]⟩
    · simp [HalfFront, dispatched, takenUp, isEventfd]
    · intro d f
      by_cases here : f = event.fd
      · subst here
        have bothEmpty : s.io.blockedOps d event.fd = [] := by
          cases d with
          | read => exact covers.1.resolve_right fun covered => covered.1 isEventfd
          | write => exact covers.2.resolve_right fun covered => covered.1 isEventfd
        exact .inr (settledEmpty d _ bothEmpty)
      · exact .inr (settledOther d f here)
  · by_cases readable : event.readable = true
    · have dispatched : dispatchEvent s.io eventfd event events =
          handleEvent s.io .read event.fd ({ event with readable := false } :: events) := by
        simp [dispatchEvent, isEventfd, readable]
      have next := handleEvent_pc s.io .read event.fd ({ event with readable := false } :: events)
      rw [← dispatched] at next
      have half : (s.takeUp eventfd event).half = true := by simp [takenUp, isEventfd, readable]
      refine ⟨loop, ?_, ?_, ?_⟩
      · rcases next with ⟨-, next⟩ | ⟨-, next⟩ <;> simp [HalfFront, next, half, isEventfd]
      · intro d f
        by_cases here : f = event.fd
        · subst here
          by_cases empty : s.io.blockedOps d event.fd = []
          · exact .inr (settledEmpty d _ empty)
          · refine .inl ?_
            cases d with
            | read =>
                rcases next with ⟨isEmpty, -⟩ | ⟨-, next⟩
                · exact absurd isEmpty empty
                · simp [RetryDue, next]
            | write =>
                have writable : event.writable = true := (covers.2.resolve_left empty).2
                rcases next with ⟨-, next⟩ | ⟨-, next⟩ <;> simp [RetryDue, next, half, writable]
        · exact .inr (settledOther d f here)
      · intro d item atBlock
        rcases next with ⟨-, next⟩ | ⟨-, next⟩ <;> simp [next] at atBlock
    · have half : (s.takeUp eventfd event).half = false := by simp [takenUp, readable]
      have readEmpty : s.io.blockedOps .read event.fd = [] :=
        covers.1.resolve_right fun covered => readable covered.2
      by_cases writable : event.writable = true
      · have dispatched : dispatchEvent s.io eventfd event events =
            handleEvent s.io .write event.fd events := by
          simp [dispatchEvent, isEventfd, readable, writable]
        have next := handleEvent_pc s.io .write event.fd events
        rw [← dispatched] at next
        refine ⟨loop, ?_, ?_, ?_⟩
        · rcases next with ⟨-, next⟩ | ⟨-, next⟩ <;> simp [HalfFront, next, half]
        · intro d f
          by_cases here : f = event.fd
          · subst here
            by_cases empty : s.io.blockedOps d event.fd = []
            · exact .inr (settledEmpty d _ empty)
            · refine .inl ?_
              cases d with
              | read => exact absurd readEmpty empty
              | write =>
                  rcases next with ⟨isEmpty, -⟩ | ⟨-, next⟩
                  · exact absurd isEmpty empty
                  · simp [RetryDue, next]
          · exact .inr (settledOther d f here)
        · intro d item atBlock
          rcases next with ⟨-, next⟩ | ⟨-, next⟩ <;> simp [next] at atBlock
      · have dispatched : (dispatchEvent s.io eventfd event events).pc = .dispatch events := by
          simp [dispatchEvent, isEventfd, readable, writable]
        refine ⟨loop, by simp [HalfFront, dispatched, half], ?_, by simp [dispatched]⟩
        intro d f
        by_cases here : f = event.fd
        · subst here
          have empty : s.io.blockedOps d event.fd = [] := by
            cases d with
            | read => exact readEmpty
            | write => exact covers.2.resolve_right fun covered => writable covered.2
          exact .inr (settledEmpty d _ empty)
        · exact .inr (settledOther d f here)

/-- Popping appends to a queue that is blocked already, so no head changes. -/
theorem receiveOp_heads {s : IoWorkerState} (loop : IoInv s) (item : IoItem) (rest : List IoItem)
    (dir : Direction) (fd : Int) :
    ((receiveOp { s with ioQueue := rest } item).blockedOps dir fd).head? =
      (s.blockedOps dir fd).head? := by
  unfold receiveOp
  cases item.op.direction with
  | none =>
      dsimp only
      split <;> rfl
  | some d =>
      dsimp only
      split
      · rename_i blocked
        have nonempty := (loop.blocked_iff d item.op.fildes).1 blocked
        by_cases here : dir = d ∧ fd = item.op.fildes
        · obtain ⟨rfl, rfl⟩ := here
          simp only [setBlockedOps_self, List.head?_append_of_ne_nil _ nonempty]
        · simp only [setBlockedOps_other here]
      · rfl

theorem receiveOp_outside (s : IoWorkerState) (item : IoItem) : (receiveOp s item).pc.Outside := by
  unfold receiveOp
  split
  · split <;> trivial
  · split <;> trivial

/-! ### Every step -/

/-- Taking up an event, or leaving the `for` loop. -/
theorem ReadinessInv.of_dispatch {eventfd : Int} {s next : ReadinessState} {io : IoWorkerState}
    (inv : ReadinessInv eventfd s) (allowed : EventReachesQueues eventfd s (.io .dispatch))
    (stepped : ioStep eventfd s.io .dispatch = some io)
    (recorded : s.record eventfd .dispatch = some next) :
    ReadinessInv eventfd { next with io := io } := by
  have loop := inv.loop.of_step stepped
  cases pc : s.io.pc with
  | dispatch events =>
      cases events with
      | nil =>
          simp only [ioStep, pc, Option.some.injEq] at stepped
          simp only [ReadinessState.record, pc, Option.some.injEq] at recorded
          subst recorded stepped
          exact inv.of_outside loop (.inr pc) (.inl trivial) (fun _ _ => rfl)
      | cons event events =>
          simp only [ioStep, pc, Option.some.injEq] at stepped
          simp only [ReadinessState.record, pc, Option.some.injEq] at recorded
          simp only [EventReachesQueues, pc] at allowed
          subst recorded stepped
          by_cases half : s.half = true
          · exact inv.of_secondHalf pc half loop
          · exact inv.of_freshEvent pc (by simpa using half) (allowed.resolve_left half) loop
  | _ => simp [ioStep, pc] at stepped

/-- A system call returns. -/
theorem ReadinessInv.of_syscall {eventfd : Int} {s next : ReadinessState} {io : IoWorkerState}
    {result : SysResult} (inv : ReadinessInv eventfd s)
    (stepped : ioStep eventfd s.io (.syscall result) = some io)
    (recorded : s.record eventfd (.syscall result) = some next) :
    ReadinessInv eventfd { next with io := io } := by
  have loop := inv.loop.of_step stepped
  cases pc : s.io.pc with
  | handle dir fd events =>
      cases front : s.io.blockedOps dir fd with
      | nil => simp [ioStep, pc, front] at stepped
      | cons item items =>
          simp only [ioStep, pc, front, Option.some.injEq] at stepped
          simp only [ReadinessState.record, pc, front] at recorded
          subst stepped
          exact inv.of_handle pc loop recorded
  | perform dir item =>
      simp only [ioStep, pc, Option.some.injEq] at stepped
      simp only [ReadinessState.record, pc] at recorded
      subst stepped
      exact inv.of_perform pc loop recorded
  | _ => simp [ioStep, pc] at stepped

/-- A step of the loop that records nothing. -/
theorem ReadinessInv.of_unrecorded {eventfd : Int} {s : ReadinessState} {io : IoWorkerState}
    {label : IoLabel} (inv : ReadinessInv eventfd s) (notDispatch : label ≠ .dispatch)
    (notSyscall : ∀ result, label ≠ .syscall result)
    (stepped : ioStep eventfd s.io label = some io) : ReadinessInv eventfd { s with io := io } := by
  have loop := inv.loop.of_step stepped
  cases label with
  | dispatch => exact absurd rfl notDispatch
  | syscall result => exact absurd rfl (notSyscall result)
  | submit dir fildes buf nbyte fut =>
      simp only [ioStep, Option.some.injEq] at stepped
      subst stepped
      exact inv.of_sameLoop loop rfl rfl
  | workDone =>
      cases pc : s.io.pc <;> simp [ioStep, pc] at stepped
      subst stepped
      exact inv.of_outside loop (.inl (by simp [pc, IoPc.Outside])) (.inl trivial) (fun _ _ => rfl)
  | wait events =>
      cases pc : s.io.pc <;> simp [ioStep, pc] at stepped
      subst stepped
      exact inv.of_outside loop (.inl (by simp [pc, IoPc.Outside])) (.inr ⟨events, rfl⟩)
        (fun _ _ => rfl)
  | check =>
      cases pc : s.io.pc <;> simp [ioStep, pc] at stepped
      split at stepped <;>
      · cases stepped
        exact inv.of_outside loop (.inl (by simp [pc, IoPc.Outside])) (.inl trivial) (fun _ _ => rfl)
  | pop =>
      cases pc : s.io.pc with
      | popQueue =>
          cases queue : s.io.ioQueue with
          | nil =>
              simp only [ioStep, pc, queue, Option.some.injEq] at stepped
              subst stepped
              exact inv.of_outside loop (.inl (by simp [pc, IoPc.Outside])) (.inl trivial)
                (fun _ _ => rfl)
          | cons item rest =>
              simp only [ioStep, pc, queue, Option.some.injEq] at stepped
              subst stepped
              exact inv.of_outside loop (.inl (by simp [pc, IoPc.Outside]))
                (.inl (receiveOp_outside _ _)) (receiveOp_heads inv.loop item rest)
      | _ => simp [ioStep, pc] at stepped
  | add =>
      cases pc : s.io.pc with
      | block dir item =>
          simp only [ioStep, pc, Option.some.injEq] at stepped
          subst stepped
          exact inv.of_blockOp pc loop
      | _ => simp [ioStep, pc] at stepped
  | delete fd =>
      cases pc : s.io.pc with
      | deleteReady dir todo =>
          simp only [ioStep, pc] at stepped
          split at stepped
          · cases stepped
            have kept : (epollDel { s.io with pc := .deleteReady dir (todo.erase fd) } fd).pc =
                .deleteReady dir (todo.erase fd) ∧
                (epollDel { s.io with pc := .deleteReady dir (todo.erase fd) } fd).blockedOps =
                  s.io.blockedOps := by
              unfold epollDel
              split <;> exact ⟨rfl, rfl⟩
            exact inv.of_outside loop (.inl (by simp [pc, IoPc.Outside]))
              (.inl (by rw [kept.1]; trivial)) (fun _ _ => by rw [kept.2])
          · simp at stepped
      | _ => simp [ioStep, pc] at stepped
  | clear =>
      cases pc : s.io.pc with
      | deleteReady dir todo =>
          simp only [ioStep, pc] at stepped
          split at stepped
          · cases stepped
            cases dir <;>
            exact inv.of_outside loop (.inl (by simp [pc, IoPc.Outside])) (.inl trivial)
              (fun _ _ => rfl)
          · simp at stepped
      | _ => simp [ioStep, pc] at stepped

/-- A step that takes up no event that misses a blocked queue of its fd keeps the invariant. -/
theorem ReadinessInv.of_step {eventfd : Int} {s s' : ReadinessState} {label : ReadinessLabel}
    (inv : ReadinessInv eventfd s) (allowed : EventReachesQueues eventfd s label)
    (taken : readinessStep eventfd s label = some s') : ReadinessInv eventfd s' := by
  cases label with
  | kernel dir fd ready =>
      simp only [readinessStep, Option.some.injEq] at taken
      exact taken ▸ inv.of_kernel
  | io label =>
      simp only [readinessStep] at taken
      split at taken
      · rename_i io next stepped recorded
        cases taken
        by_cases dispatch : label = .dispatch
        · subst dispatch
          exact inv.of_dispatch allowed stepped recorded
        · by_cases syscall : ∃ result, label = .syscall result
          · obtain ⟨result, rfl⟩ := syscall
            exact inv.of_syscall stepped recorded
          · have notSyscall : ∀ result, label ≠ .syscall result :=
              fun result same => syscall ⟨result, same⟩
            have unrecorded : next = s := by
              cases label with
              | dispatch => exact absurd rfl dispatch
              | syscall result => exact absurd rfl (notSyscall result)
              | _ => exact (Option.some.inj recorded).symm
            subst unrecorded
            exact inv.of_unrecorded dispatch notSyscall stepped
      · simp at taken

/-- The condition is exact: after a step that takes up a fresh event, a queue of its fd that the mask does
    not cover is neither settled nor due for a retry. -/
theorem EventReachesQueues.of_settled {eventfd : Int} {s s' : ReadinessState}
    (settled : ∀ dir fd, RetryDue s' dir fd ∨ Settled s' dir fd)
    (taken : readinessStep eventfd s (.io .dispatch) = some s') :
    EventReachesQueues eventfd s (.io .dispatch) := by
  cases pc : s.io.pc with
  | dispatch events =>
      cases events with
      | nil => simp [EventReachesQueues, pc]
      | cons event events =>
          simp only [EventReachesQueues, pc]
          simp only [readinessStep, ioStep, ReadinessState.record, pc, Option.some.injEq] at taken
          subst taken
          by_cases half : s.half = true
          · exact .inl half
          · -- A queue that is not empty is not settled: its event is the latest thing recorded.
            have due : ∀ dir, s.io.blockedOps dir event.fd ≠ [] →
                event.fd ≠ eventfd ∧ event.covers dir = true := by
              intro dir nonempty
              have blockedOps : (dispatchEvent s.io eventfd event events).blockedOps =
                  s.io.blockedOps := by
                simp only [dispatchEvent]
                split_ifs <;> simp only [handleEvent_blockedOps]
              have retry := (settled dir event.fd).resolve_right (by
                intro settled
                obtain ⟨item, items, queue⟩ := List.exists_cons_of_ne_nil nonempty
                have since := (settled item (by simp [blockedOps, queue])).1
                simp [ReadinessState.takeUp, half, RetriedSinceEvent] at since)
              simp only [RetryDue, ReadinessState.takeUp, half, dispatchEvent, handleEvent] at retry
              cases dir <;> split_ifs at retry <;>
                simp_all [EpollEvent.covers]
            refine .inr ⟨?_, ?_⟩
            · exact (em _).imp id (due .read)
            · exact (em _).imp id (due .write)
  | _ => simp [EventReachesQueues, pc]

/-- Events reach blocked operations. In every run in which each event the worker takes up has the bit of
    every direction with a non-empty queue on its fd, once an event of an fd has been processed the head
    operation of each non-empty queue of the fd has been retried since the event and its last attempt
    returned `EAGAIN`; and if a system call of that direction would finish now, the fd has changed since
    the event, so that epoll owes another one. -/
theorem event_reaches_blocked {eventfd : Int} {s : ReadinessState}
    (run : (readinessMachine eventfd).GuardedRun (EventReachesQueues eventfd) s) {fd : Int}
    (processed : Processed s fd) {dir : Direction} {item : IoItem}
    (head : (s.io.blockedOps dir fd).head? = some item) :
    RetriedSinceEvent dir fd item.ticket s.history ∧
      (s.ready dir fd = true → s.turned dir fd = true) := by
  have inv : ReadinessInv eventfd s :=
    run.invariant (fun _ initial => .of_initial initial)
      (fun _ _ _ inv allowed taken => inv.of_step allowed taken)
  exact inv.settled_of_idle processed.2 item head

/-- The worker at its first `epoll_wait`; nothing can be read or written. -/
def quietFiles : ReadinessState :=
  { io := .initial 3, half := false, history := [], ready := fun _ _ => false
    turned := fun _ _ => false }

theorem quietFiles_start : (readinessMachine 3).start quietFiles := ⟨rfl, rfl, rfl⟩

/-- A read of fd 7 blocks. -/
def readBlocks : List ReadinessLabel :=
  [.io (.submit .read 7 64 8 1), .io (.wait [⟨3, true, false⟩]), .io .dispatch, .io .dispatch,
    .io .check, .io .pop, .io (.syscall (.fail eagain)), .io .add, .io .pop, .io .clear, .io .clear]

/-- An `EPOLLIN` event of fd 7, and the retried read blocks again. -/
def readableEvent : List ReadinessLabel :=
  readBlocks ++ [.io (.wait [⟨7, true, false⟩]), .io .dispatch, .io (.syscall (.fail eagain)),
    .io .dispatch]

theorem event_reaches_blocked_read :
    RetriedSinceEvent .read 7 0 ((readinessMachine 3).after quietFiles readableEvent).history :=
  (@event_reaches_blocked 3 _ (.after (.start quietFiles_start) readableEvent (by decide)) 7
    ⟨by decide, by decide⟩ .read ⟨0, cilkOp .read 7 64 8 1⟩ (by decide)).1

/-- The writer of fd 7 closes without writing: the read would see end of file, and epoll reports the fd
    with `EPOLLHUP` alone. -/
def hangUpEvent : List ReadinessLabel :=
  readBlocks ++ [.kernel .read 7 true, .io (.wait [⟨7, false, false⟩]), .io .dispatch]

/-- The event has been processed, the read was not retried and nothing more is to be reported. -/
theorem hang_up_ignored :
    ∃ s, (readinessMachine 3).Reachable s ∧ Processed s 7 ∧
      ∃ item, (s.io.blockedOps .read 7).head? = some item ∧
        ¬ RetriedSinceEvent .read 7 item.ticket s.history ∧
        s.ready .read 7 = true ∧ s.turned .read 7 = false :=
  ⟨(readinessMachine 3).after quietFiles hangUpEvent, .after (.start quietFiles_start) hangUpEvent,
    ⟨by decide, by decide⟩, ⟨0, cilkOp .read 7 64 8 1⟩, by decide, by decide, rfl, rfl⟩

end CilkL
