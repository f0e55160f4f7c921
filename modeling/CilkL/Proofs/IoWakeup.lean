/-
Module: CilkL.Proofs.IoWakeup
Layer: Proofs
Purpose: No I/O wake-up is lost. From the report of an event for the eventfd to the pop that finds the
  queue empty the worker has it on its list; a published operation is covered by a pending report, by a
  report on the worker's list, or by a producer that still has to write.
Imports: CilkL.Proofs.IoQueue, CilkL.Runtime.IoWakeup
Trusted boundary: none (fully proved)
Main exports: IoWorkerState.Noted, WakeupInv, WakeupInv.of_step, io_wakeup_not_lost
Open obligations: none
-/
import CilkL.Proofs.IoQueue
import CilkL.Runtime.IoWakeup

namespace CilkL

/-! ### The worker's list -/

/-- The worker will drain the queue, or is doing so, before it waits again. -/
def IoWorkerState.Noted (eventfd : Int) (s : IoWorkerState) : Prop :=
  match s.pc with
  | .dispatch events | .handle _ _ events =>
      s.checkQueue = true ∨ ∃ event ∈ events, event.fd = eventfd
  | .checkQueue => s.checkQueue = true
  | .popQueue | .perform _ _ | .block _ _ => True
  | .epollWait | .deleteReady _ _ | .stopped => False

/-- The eventfd stays registered: it is not among the fds the loop removes from epoll. -/
structure EventfdKept (eventfd : Int) (s : IoWorkerState) : Prop where
  registered : s.interest eventfd = some .read
  notReady : ∀ dir, eventfd ∉ s.readyFds dir
  notListed : ∀ dir todo, s.pc = .deleteReady dir todo → eventfd ∉ todo
  notHandled : ∀ dir fd events, s.pc = .handle dir fd events → fd ≠ eventfd

/-- `handle_event` on another fd. -/
theorem EventfdKept.handleEvent {eventfd : Int} {s : IoWorkerState} (kept : EventfdKept eventfd s)
    {dir : Direction} {fd : Int} (other : fd ≠ eventfd) (events : List EpollEvent) :
    EventfdKept eventfd (handleEvent s dir fd events) := by
  unfold CilkL.handleEvent
  split
  · refine ⟨kept.registered, ?_, by simp, by simp⟩
    intro d
    simp only [setFds]
    split
    · simp [other.symm, kept.notReady]
    · exact kept.notReady d
  · refine ⟨kept.registered, kept.notReady, by simp, ?_⟩
    intro d f rest pcEq
    cases pcEq
    exact other

theorem handleEvent_noted {eventfd : Int} {s : IoWorkerState} (dir : Direction) (fd : Int)
    {events : List EpollEvent}
    (noted : s.checkQueue = true ∨ ∃ event ∈ events, event.fd = eventfd) :
    (handleEvent s dir fd events).Noted eventfd := by
  unfold CilkL.handleEvent
  split
  · exact noted
  · exact noted

/-- What one step of the loop does to the eventfd's registration and to the worker's list. -/
structure LoopKept (eventfd : Int) (s s' : IoWorkerState) : Prop where
  kept : EventfdKept eventfd s'
  noted : s.Noted eventfd → s'.Noted eventfd

theorem LoopKept.of_dispatchEvent {eventfd : Int} {s : IoWorkerState} {event : EpollEvent}
    {events : List EpollEvent} (kept : EventfdKept eventfd s)
    (pc : s.pc = .dispatch (event :: events)) :
    LoopKept eventfd s (dispatchEvent s eventfd event events) := by
  have ofNoted : s.Noted eventfd → event.fd ≠ eventfd →
      s.checkQueue = true ∨ ∃ other ∈ events, other.fd = eventfd := by
    intro noted other
    simpa [IoWorkerState.Noted, pc, other] using noted
  unfold dispatchEvent
  split
  · exact ⟨⟨kept.registered, kept.notReady, by simp, by simp⟩, fun _ => .inl rfl⟩
  · rename_i other
    split
    · refine ⟨kept.handleEvent other _, ?_⟩
      intro noted
      apply handleEvent_noted
      simpa [other] using ofNoted noted other
    · split
      · exact ⟨kept.handleEvent other _, fun noted => handleEvent_noted _ _ (ofNoted noted other)⟩
      · exact ⟨⟨kept.registered, kept.notReady, by simp, by simp⟩, fun noted => ofNoted noted other⟩

theorem LoopKept.of_handleResult {eventfd : Int} {s : IoWorkerState} {dir : Direction} {fd : Int}
    {events : List EpollEvent} {item : IoItem} {items : List IoItem} {result : SysResult}
    (kept : EventfdKept eventfd s) (pc : s.pc = .handle dir fd events) :
    LoopKept eventfd s (handleResult s dir fd events item items result) := by
  have other := kept.notHandled dir fd events pc
  have ofNoted : s.Noted eventfd → s.checkQueue = true ∨ ∃ other ∈ events, other.fd = eventfd := by
    intro noted
    simpa [IoWorkerState.Noted, pc] using noted
  simp only [handleResult]
  split
  · refine ⟨⟨kept.registered, kept.notReady, ?_, ?_⟩, ?_⟩
    · simp [pc]
    · intro d f rest pcEq
      exact kept.notHandled d f rest pcEq
    · intro noted
      simpa [IoWorkerState.Noted, pc] using noted
  · exact ⟨⟨kept.registered, kept.notReady, by simp, by simp⟩, ofNoted⟩
  · refine ⟨?_, ?_⟩
    · apply EventfdKept.handleEvent _ other
      exact ⟨kept.registered, kept.notReady, by simp [pc], fun d f rest pcEq =>
        kept.notHandled d f rest pcEq⟩
    · intro noted
      apply handleEvent_noted
      exact ofNoted noted

theorem LoopKept.of_performResult {eventfd : Int} {s : IoWorkerState} {dir : Direction}
    {item : IoItem} {result : SysResult} (kept : EventfdKept eventfd s) :
    LoopKept eventfd s (performResult s dir item result) := by
  simp only [performResult]
  split <;>
  · exact ⟨⟨kept.registered, kept.notReady, by simp, by simp⟩, fun _ => trivial⟩

theorem LoopKept.of_blockOp {eventfd : Int} {s : IoWorkerState} {dir : Direction} {item : IoItem}
    (kept : EventfdKept eventfd s) : LoopKept eventfd s (blockOp s dir item) := by
  have notReady : ∀ d, eventfd ∉ setFds s.readyFds dir ((s.readyFds dir).erase item.op.fildes) d := by
    intro d
    simp only [setFds]
    split
    · exact fun member => kept.notReady dir (Finset.mem_of_mem_erase member)
    · exact kept.notReady d
  simp only [blockOp, epollAdd]
  split
  · exact ⟨⟨kept.registered, notReady, by simp, by simp⟩, fun _ => trivial⟩
  · rename_i unregistered
    refine ⟨⟨?_, notReady, by simp, by simp⟩, fun _ => trivial⟩
    have other : eventfd ≠ item.op.fildes := by
      rintro rfl
      simp [kept.registered] at unregistered
    simpa [other] using kept.registered

theorem LoopKept.of_epollDel {eventfd : Int} {s : IoWorkerState} {dir : Direction}
    {todo : Finset Int} {fd : Int} (kept : EventfdKept eventfd s) (pc : s.pc = .deleteReady dir todo)
    (listed : fd ∈ todo) :
    LoopKept eventfd s (epollDel { s with pc := .deleteReady dir (todo.erase fd) } fd) := by
  have notListed := kept.notListed dir todo pc
  have other : eventfd ≠ fd := by
    rintro rfl
    exact notListed listed
  have stillNotListed : ∀ d rest, IoPc.deleteReady dir (todo.erase fd) = .deleteReady d rest →
      eventfd ∉ rest := by
    intro d rest pcEq
    cases pcEq
    exact fun member => notListed (Finset.mem_of_mem_erase member)
  have notNoted : ¬ s.Noted eventfd := by simp [IoWorkerState.Noted, pc]
  simp only [epollDel]
  split
  · refine ⟨⟨?_, kept.notReady, stillNotListed, by simp⟩, fun noted => absurd noted notNoted⟩
    simpa [other] using kept.registered
  · exact ⟨⟨kept.registered, kept.notReady, stillNotListed, by simp⟩,
      fun noted => absurd noted notNoted⟩

theorem LoopKept.of_clearReady {eventfd : Int} {s : IoWorkerState} {dir : Direction}
    {todo : Finset Int} (kept : EventfdKept eventfd s) (pc : s.pc = .deleteReady dir todo) :
    LoopKept eventfd s (clearReady s dir) := by
  have notReady : ∀ dir' d, eventfd ∉ setFds s.readyFds dir' ∅ d := by
    intro dir' d
    simp only [setFds]
    split
    · exact Finset.notMem_empty eventfd
    · exact kept.notReady d
  have notNoted : ¬ s.Noted eventfd := by simp [IoWorkerState.Noted, pc]
  cases dir with
  | read =>
      refine ⟨⟨kept.registered, notReady .read, ?_, by simp [clearReady]⟩,
        fun noted => absurd noted notNoted⟩
      intro d rest pcEq
      cases pcEq
      exact kept.notReady .write
  | write =>
      exact ⟨⟨kept.registered, notReady .write, by simp [clearReady], by simp [clearReady]⟩,
        fun noted => absurd noted notNoted⟩

/-- A step of the loop that is not about the queue. It does not start in the drain loop's pop. -/
theorem LoopKept.of_step {eventfd : Int} {s s' : IoWorkerState} {label : IoLabel}
    (kept : EventfdKept eventfd s) (plain : label.Plain)
    (taken : ioStep eventfd s label = some s') : LoopKept eventfd s s' ∧ s.pc ≠ .popQueue := by
  cases label with
  | submit dir fildes buf nbyte fut => exact absurd plain id
  | wait events => exact absurd plain id
  | pop => exact absurd plain id
  | workDone =>
      cases pc : s.pc <;> simp [ioStep, pc] at taken
      subst taken
      refine ⟨⟨⟨kept.registered, kept.notReady, by simp, by simp⟩, ?_⟩, by simp⟩
      simp [IoWorkerState.Noted, pc]
  | dispatch =>
      cases pc : s.pc with
      | dispatch events =>
          cases events with
          | nil =>
              simp only [ioStep, pc, Option.some.injEq] at taken
              subst taken
              refine ⟨⟨⟨kept.registered, kept.notReady, by simp, by simp⟩, ?_⟩, by simp⟩
              simp [IoWorkerState.Noted, pc]
          | cons event events =>
              simp only [ioStep, pc, Option.some.injEq] at taken
              exact taken ▸ ⟨.of_dispatchEvent kept pc, by simp⟩
      | _ => simp [ioStep, pc] at taken
  | syscall result =>
      cases pc : s.pc with
      | handle dir fd events =>
          cases front : s.blockedOps dir fd with
          | nil => simp [ioStep, pc, front] at taken
          | cons item items =>
              simp only [ioStep, pc, front, Option.some.injEq] at taken
              exact taken ▸ ⟨.of_handleResult kept pc, by simp⟩
      | perform dir item =>
          simp only [ioStep, pc, Option.some.injEq] at taken
          exact taken ▸ ⟨.of_performResult kept, by simp⟩
      | _ => simp [ioStep, pc] at taken
  | check =>
      cases pc : s.pc <;> simp [ioStep, pc] at taken
      split at taken
      · cases taken
        exact ⟨⟨⟨kept.registered, kept.notReady, by simp, by simp⟩, fun _ => trivial⟩, by simp⟩
      · rename_i unchecked
        cases taken
        refine ⟨⟨⟨kept.registered, kept.notReady, ?_, by simp⟩, ?_⟩, by simp⟩
        · intro d rest pcEq
          cases pcEq
          exact kept.notReady .read
        · intro noted
          exact absurd (by simpa [IoWorkerState.Noted, pc] using noted) unchecked
  | add =>
      cases pc : s.pc with
      | block dir item =>
          simp only [ioStep, pc, Option.some.injEq] at taken
          exact taken ▸ ⟨.of_blockOp kept, by simp⟩
      | _ => simp [ioStep, pc] at taken
  | delete fd =>
      cases pc : s.pc with
      | deleteReady dir todo =>
          simp only [ioStep, pc] at taken
          split at taken
          · rename_i listed
            cases taken
            exact ⟨.of_epollDel kept pc listed, by simp⟩
          · simp at taken
      | _ => simp [ioStep, pc] at taken
  | clear =>
      cases pc : s.pc with
      | deleteReady dir todo =>
          simp only [ioStep, pc] at taken
          split at taken
          · cases taken
            exact ⟨.of_clearReady kept pc, by simp⟩
          · simp at taken
      | _ => simp [ioStep, pc] at taken

/-! ### Wake-ups -/

/-- What holds of the worker, the ring and the pending report. -/
structure WakeupInv (eventfd : Int) (s : WakeupState) : Prop where
  ring : QueueInv s.ring
  directed : ∀ op ∈ s.ring.pushed, op.direction ≠ none
  kept : EventfdKept eventfd s.io
  popping : s.ring.consumer ≠ .idle → s.io.pc = .popQueue
  covered : s.reportPending = true ∨ s.io.Noted eventfd ∨ s.ring.producer = .notify ∨
    s.ring.popped = s.ring.published
  answered : s.unanswered = true → s.io.Noted eventfd

theorem WakeupInv.of_initial {eventfd : Int} {ring : QueueState}
    (before : RingBeforeRegistration ring) :
    WakeupInv eventfd
      { io := .initial eventfd, ring := ring, reportPending := decide (0 < ring.queue.eventfd)
        unanswered := false } := by
  obtain ⟨reachable, idle, unpopped, directed⟩ := before
  have inv := queueInv_reachable reachable
  refine ⟨inv, directed, ⟨?_, ?_, ?_, ?_⟩, ?_, ?_, ?_⟩
  · simp [IoWorkerState.initial]
  · simp [IoWorkerState.initial]
  · simp [IoWorkerState.initial]
  · simp [IoWorkerState.initial]
  · exact fun busy => absurd idle busy
  · -- Without a report pending no write has happened, so at most the push in flight is published.
    have counterEq := inv.counter_eq
    have readsEq := inv.reads_eq
    have writesEq := inv.writes_eq
    by_cases written : 0 < ring.queue.eventfd
    · exact .inl (decide_eq_true written)
    · cases pc : ring.producer with
      | notify => exact .inr (.inr (.inl rfl))
      | _ =>
          simp only [pc, ProducerPc.owesEvent] at writesEq
          rw [unpopped, List.length_nil] at readsEq
          have none : ring.published.length = 0 := by omega
          rw [unpopped, List.length_eq_zero_iff.1 none]
          exact .inr (.inr (.inr rfl))
  · simp

/-- The producer's steps leave the consumer alone. -/
theorem queueStep_producing {s s' : QueueState} {label : QueueLabel}
    (producing : label = .pushTest ∨ label = .pushWrite ∨ label = .pushStore ∨ label = .pushNotify ∨
      ∃ op, label = .pushCall op)
    (taken : queueStep s label = some s') :
    s'.consumer = s.consumer ∧ s'.popped = s.popped := by
  rcases producing with rfl | rfl | rfl | rfl | ⟨op, rfl⟩ <;>
    cases pc : s.producer <;> simp [queueStep, pc] at taken
  · split at taken <;>
    · cases taken
      exact ⟨rfl, rfl⟩
  · exact taken ▸ ⟨rfl, rfl⟩
  · exact taken ▸ ⟨rfl, rfl⟩
  · exact taken.2 ▸ ⟨rfl, rfl⟩
  · exact taken ▸ ⟨rfl, rfl⟩

theorem queueStep_published {s s' : QueueState} {label : QueueLabel} (notStore : label ≠ .pushStore)
    (taken : queueStep s label = some s') : s'.published = s.published := by
  cases label <;> cases producer : s.producer <;> cases consumer : s.consumer <;>
    simp [queueStep, producer, consumer] at taken notStore <;>
    first
    | (subst taken; rfl)
    | (obtain ⟨-, rfl⟩ := taken; rfl)
    | (split at taken <;> cases taken <;> rfl)

theorem queueStep_pushed {s s' : QueueState} {label : QueueLabel}
    (notCall : ∀ op, label ≠ .pushCall op) (taken : queueStep s label = some s') :
    s'.pushed = s.pushed := by
  cases label <;> cases producer : s.producer <;> cases consumer : s.consumer <;>
    simp [queueStep, producer, consumer] at taken notCall <;>
    first
    | (subst taken; rfl)
    | (obtain ⟨-, rfl⟩ := taken; rfl)
    | (split at taken <;> cases taken <;> rfl)

/-! ### Steps of the ring -/

/-- A producer's step short of the eventfd write. The tail store makes the producer owe the write. -/
theorem WakeupInv.of_push {eventfd : Int} {s : WakeupState} {ring : QueueState} {label : QueueLabel}
    (inv : WakeupInv eventfd s)
    (pushing : label = .pushTest ∨ label = .pushWrite ∨ label = .pushStore ∨
      ∃ op : IoOp, op.direction ≠ none ∧ label = .pushCall op)
    (taken : queueStep s.ring label = some ring) : WakeupInv eventfd { s with ring := ring } := by
  have quiet : ring.consumer = s.ring.consumer ∧ ring.popped = s.ring.popped := by
    apply queueStep_producing _ taken
    rcases pushing with rfl | rfl | rfl | ⟨op, -, rfl⟩ <;> simp
  refine ⟨inv.ring.of_step taken, ?_, inv.kept, ?_, ?_, inv.answered⟩
  · rcases pushing with rfl | rfl | rfl | ⟨op, opDirected, rfl⟩
    · exact queueStep_pushed (by simp) taken ▸ inv.directed
    · exact queueStep_pushed (by simp) taken ▸ inv.directed
    · exact queueStep_pushed (by simp) taken ▸ inv.directed
    · cases pc : s.ring.producer <;> simp [queueStep, pc] at taken
      subst taken
      intro other member
      rcases List.mem_append.1 member with old | new
      · exact inv.directed other old
      · exact List.mem_singleton.1 new ▸ opDirected
  · exact fun busy => inv.popping (quiet.1 ▸ busy)
  · by_cases store : label = .pushStore
    · subst store
      cases pc : s.ring.producer <;> simp [queueStep, pc] at taken
      exact .inr (.inr (.inl (taken ▸ rfl)))
    · have published := queueStep_published store taken
      rcases inv.covered with pending | noted | owed | drained
      · exact .inl pending
      · exact .inr (.inl noted)
      · -- A producer that owes the write takes no other step.
        rcases pushing with rfl | rfl | rfl | ⟨op, -, rfl⟩ <;> simp [queueStep, owed] at taken
      · exact .inr (.inr (.inr (by rw [quiet.2, published, drained])))

/-- The eventfd write leaves a report pending. -/
theorem WakeupInv.of_pushNotify {eventfd : Int} {s : WakeupState} {ring : QueueState}
    (inv : WakeupInv eventfd s) (taken : queueStep s.ring .pushNotify = some ring) :
    WakeupInv eventfd
      { s with ring := ring, reportPending := s.reportPending || (s.io.interest eventfd).isSome } := by
  have quiet := queueStep_producing (.inr (.inr (.inr (.inl rfl)))) taken
  refine ⟨inv.ring.of_step taken, ?_, inv.kept, ?_, ?_, inv.answered⟩
  · exact queueStep_pushed (by simp) taken ▸ inv.directed
  · exact fun busy => inv.popping (quiet.1 ▸ busy)
  · exact .inl (by simp [inv.kept.registered])

/-- A report is void only when every write has been consumed. -/
theorem WakeupInv.of_withdraw {eventfd : Int} {s : WakeupState} (inv : WakeupInv eventfd s)
    (void : s.ring.queue.eventfd = 0) : WakeupInv eventfd { s with reportPending := false } := by
  refine ⟨inv.ring, inv.directed, inv.kept, inv.popping, ?_, inv.answered⟩
  have counterEq := inv.ring.counter_eq
  have readsEq := inv.ring.reads_eq
  have writesEq := inv.ring.writes_eq
  cases pc : s.ring.producer with
  | notify => exact .inr (.inr (.inl rfl))
  | _ =>
      simp only [pc, ProducerPc.owesEvent] at writesEq
      exact .inr (.inr (.inr (inv.ring.popped_initial.eq_of_length (by omega))))

/-- A step of `io_queue_pop` that neither starts nor ends it. -/
theorem WakeupInv.of_popMiddle {eventfd : Int} {s : WakeupState} {ring : QueueState}
    {label : QueueLabel} (inv : WakeupInv eventfd s) (middle : label = .popRead ∨ label = .popStore)
    (taken : queueStep s.ring label = some ring) : WakeupInv eventfd { s with ring := ring } := by
  have busy : s.ring.consumer ≠ .idle := by
    intro idle
    rcases middle with rfl | rfl <;> simp [queueStep, idle] at taken
  have popping := inv.popping busy
  have pushed : ring.pushed = s.ring.pushed := by
    apply queueStep_pushed _ taken
    rcases middle with rfl | rfl <;> simp
  refine ⟨inv.ring.of_step taken, pushed ▸ inv.directed, inv.kept, fun _ => popping, ?_, inv.answered⟩
  exact .inr (.inl (by simp [IoWorkerState.Noted, popping]))

/-- The empty test. When it succeeds everything published has been popped, and the report is answered. -/
theorem WakeupInv.of_popTest {eventfd : Int} {s s' : WakeupState} (inv : WakeupInv eventfd s)
    (taken : wakeupStep eventfd s .popTest = some s') : WakeupInv eventfd s' := by
  cases pc : s.io.pc with
  | popQueue =>
      cases tested : queueStep s.ring .popTest with
      | none => simp [wakeupStep, pc, tested] at taken
      | some ring =>
          have pushed := queueStep_pushed (by simp) tested
          have noted : s.io.Noted eventfd := by simp [IoWorkerState.Noted, pc]
          cases found : ring.consumer with
          | idle =>
              simp only [wakeupStep, pc, tested, found, Option.some.injEq] at taken
              subst taken
              have drained := inv.ring.popped_of_invalid tested found
              have same : ring.popped = s.ring.popped ∧ ring.published = s.ring.published := by
                refine ⟨?_, queueStep_published (by simp) tested⟩
                cases consumer : s.ring.consumer <;> simp [queueStep, consumer] at tested
                split at tested <;>
                · cases tested
                  rfl
              refine ⟨inv.ring.of_step tested, pushed ▸ inv.directed, ⟨inv.kept.registered,
                inv.kept.notReady, ?_, by simp⟩, fun busy => absurd found busy, ?_, by simp⟩
              · intro dir todo pcEq
                cases pcEq
                exact inv.kept.notReady .read
              · exact .inr (.inr (.inr (by rw [same.1, same.2, drained])))
          | _ =>
              simp only [wakeupStep, pc, tested, found, Option.some.injEq] at taken
              subst taken
              exact ⟨inv.ring.of_step tested, pushed ▸ inv.directed, inv.kept, fun _ => pc,
                .inr (.inl noted), inv.answered⟩
  | _ => simp [wakeupStep, pc] at taken

/-- An operation with a direction never ends the drain loop. -/
theorem receiveOp_directed {s : IoWorkerState} {item : IoItem} (directed : item.op.direction ≠ none) :
    (receiveOp s item).pc = .popQueue ∨ ∃ dir, (receiveOp s item).pc = .perform dir item := by
  unfold receiveOp
  cases direction : item.op.direction with
  | none => exact absurd direction directed
  | some dir =>
      dsimp only
      split
      · exact .inl rfl
      · exact .inr ⟨dir, rfl⟩

theorem EventfdKept.receiveOp {eventfd : Int} {s : IoWorkerState} {item : IoItem}
    (kept : EventfdKept eventfd s) (directed : item.op.direction ≠ none) :
    EventfdKept eventfd (receiveOp s item) := by
  have pc := receiveOp_directed (s := s) directed
  have sameFds : (CilkL.receiveOp s item).interest = s.interest ∧
      (CilkL.receiveOp s item).readyFds = s.readyFds := by
    unfold CilkL.receiveOp
    split <;> split <;> exact ⟨rfl, rfl⟩
  refine ⟨sameFds.1 ▸ kept.registered, sameFds.2 ▸ kept.notReady, ?_, ?_⟩
  · intro dir todo pcEq
    rcases pc with next | ⟨d, next⟩ <;> simp [next] at pcEq
  · intro dir fd events pcEq
    rcases pc with next | ⟨d, next⟩ <;> simp [next] at pcEq

/-- The end of `io_queue_pop`: the popped operation was pushed, so it has a direction. -/
theorem WakeupInv.of_popDrain {eventfd : Int} {s s' : WakeupState} (inv : WakeupInv eventfd s)
    (taken : wakeupStep eventfd s .popDrain = some s') : WakeupInv eventfd s' := by
  cases consumer : s.ring.consumer with
  | drain ret =>
      cases drained : queueStep s.ring .popDrain with
      | none => simp [wakeupStep, consumer, drained] at taken
      | some ring =>
          simp only [wakeupStep, consumer, drained, Option.some.injEq] at taken
          subst taken
          have next : s.ring.published[s.ring.popped.length]? = some ret := by
            simpa [ConsumerLocals, consumer] using inv.ring.consumerLocals
          have member : ret ∈ s.ring.pushed := by
            rw [inv.ring.pushed_eq]
            exact List.mem_append_left _ (List.mem_of_getElem? next)
          have directed := inv.directed ret member
          have idle : ring.consumer = .idle := by
            simp only [queueStep, consumer] at drained
            split at drained
            · simp at drained
            · cases drained
              rfl
          have noted : (receiveOp s.io ⟨s.ring.popped.length, ret⟩).Noted eventfd := by
            have taken : (⟨s.ring.popped.length, ret⟩ : IoItem).op.direction ≠ none := directed
            rcases receiveOp_directed (s := s.io) taken with pc | ⟨dir, pc⟩ <;>
              simp [IoWorkerState.Noted, pc]
          exact ⟨inv.ring.of_step drained, queueStep_pushed (by simp) drained ▸ inv.directed,
            inv.kept.receiveOp directed, fun busy => absurd idle busy, .inr (.inl noted),
            fun _ => noted⟩
  | _ => simp [wakeupStep, consumer] at taken

/-! ### Steps of the loop -/

/-- `epoll_wait` puts the reports it delivers on the worker's list. -/
theorem WakeupInv.of_wait {eventfd : Int} {s s' : WakeupState} {events : List EpollEvent}
    (inv : WakeupInv eventfd s) (taken : wakeupStep eventfd s (.wait events) = some s') :
    WakeupInv eventfd s' := by
  cases pc : s.io.pc with
  | epollWait =>
      simp only [wakeupStep, pc, Option.some.injEq] at taken
      subst taken
      have notNoted : ¬ s.io.Noted eventfd := by simp [IoWorkerState.Noted, pc]
      have listed : (events.any fun event => decide (event.fd = eventfd)) = true →
          s.io.checkQueue = true ∨ ∃ event ∈ events, event.fd = eventfd := by
        intro reported
        exact .inr (by simpa using reported)
      refine ⟨inv.ring, inv.directed, ⟨inv.kept.registered, inv.kept.notReady, by simp, by simp⟩,
        ?_, ?_, ?_⟩
      · intro busy
        have popping := inv.popping busy
        simp [pc] at popping
      · cases reported : events.any fun event => decide (event.fd = eventfd) with
        | true => exact .inr (.inl (listed reported))
        | false =>
            rcases inv.covered with pending | noted | owed
            · exact .inl (by simp [pending])
            · exact absurd noted notNoted
            · exact .inr (.inr owed)
      · intro unanswered
        rcases Bool.or_eq_true_iff.1 unanswered with before | reported
        · exact absurd (inv.answered before) notNoted
        · exact listed reported
  | _ => simp [wakeupStep, pc] at taken

theorem WakeupInv.of_loop {eventfd : Int} {s s' : WakeupState} {label : IoLabel}
    (inv : WakeupInv eventfd s) (taken : wakeupStep eventfd s (.loop label) = some s') :
    WakeupInv eventfd s' := by
  simp only [wakeupStep] at taken
  split at taken
  · rename_i plain
    cases stepped : ioStep eventfd s.io label with
    | none => simp [stepped] at taken
    | some io =>
        simp only [stepped, Option.map_some, Option.some.injEq] at taken
        subst taken
        have moved := LoopKept.of_step inv.kept plain stepped
        refine ⟨inv.ring, inv.directed, moved.1.kept, fun busy => absurd (inv.popping busy) moved.2,
          ?_, fun unanswered => moved.1.noted (inv.answered unanswered)⟩
        rcases inv.covered with pending | noted | rest
        · exact .inl (by simp [pending, moved.1.kept.registered])
        · exact .inr (.inl (moved.1.noted noted))
        · exact .inr (.inr rest)
  · simp at taken

/-- Every step keeps the invariant. -/
theorem WakeupInv.of_step {eventfd : Int} {s s' : WakeupState} {label : WakeupLabel}
    (inv : WakeupInv eventfd s) (taken : wakeupStep eventfd s label = some s') :
    WakeupInv eventfd s' := by
  have ofRing : ∀ {queueLabel : QueueLabel}, s.ringStep queueLabel = some s' →
      ∃ ring, queueStep s.ring queueLabel = some ring ∧ { s with ring := ring } = s' := by
    intro queueLabel stepped
    simpa [WakeupState.ringStep] using stepped
  cases label with
  | submit dir fildes buf nbyte fut =>
      obtain ⟨ring, stepped, rfl⟩ := ofRing taken
      apply inv.of_push (.inr (.inr (.inr ⟨_, _, rfl⟩))) stepped
      cases dir <;> simp [cilkOp, IoOp.direction, iotypeRead, iotypeWrite]
  | pushTest =>
      obtain ⟨ring, stepped, rfl⟩ := ofRing taken
      exact inv.of_push (.inl rfl) stepped
  | pushWrite =>
      obtain ⟨ring, stepped, rfl⟩ := ofRing taken
      exact inv.of_push (.inr (.inl rfl)) stepped
  | pushStore =>
      obtain ⟨ring, stepped, rfl⟩ := ofRing taken
      exact inv.of_push (.inr (.inr (.inl rfl))) stepped
  | pushNotify =>
      simp only [wakeupStep, WakeupState.ringStep] at taken
      cases stepped : queueStep s.ring .pushNotify with
      | none => simp [stepped] at taken
      | some ring =>
          simp only [stepped, Option.map_some, Option.some.injEq] at taken
          exact taken ▸ inv.of_pushNotify stepped
  | withdraw =>
      simp only [wakeupStep] at taken
      split at taken
      · rename_i void
        exact Option.some.inj taken ▸ inv.of_withdraw void
      · simp at taken
  | wait events => exact inv.of_wait taken
  | popTest => exact inv.of_popTest taken
  | popRead =>
      obtain ⟨ring, stepped, rfl⟩ := ofRing taken
      exact inv.of_popMiddle (.inl rfl) stepped
  | popStore =>
      obtain ⟨ring, stepped, rfl⟩ := ofRing taken
      exact inv.of_popMiddle (.inr rfl) stepped
  | popDrain => exact inv.of_popDrain taken
  | loop label => exact inv.of_loop taken

theorem wakeupInv_reachable {eventfd : Int} {s : WakeupState}
    (reachable : (wakeupMachine eventfd).Reachable s) : WakeupInv eventfd s := by
  refine reachable.invariant ?_ (fun _ _ _ _ inv taken => inv.of_step taken)
  rintro _ ⟨ring, before, rfl⟩
  exact .of_initial before

/-- No I/O wake-up is lost. When the worker is at `epoll_wait` with no report pending for the eventfd, the
    queue is empty or its producer is between the tail store and the eventfd write; and the worker never
    gets back to `epoll_wait` with a report for the eventfd that no drain of the queue has answered. -/
theorem io_wakeup_not_lost {eventfd : Int} {s : WakeupState}
    (reachable : (wakeupMachine eventfd).Reachable s) (waiting : s.io.pc = .epollWait) :
    (s.reportPending = false →
      (s.ring.queue.head = s.ring.queue.tail ∧ s.ring.popped = s.ring.published) ∨
        s.ring.producer = .notify) ∧
      s.unanswered = false := by
  have inv := wakeupInv_reachable reachable
  have notNoted : ¬ s.io.Noted eventfd := by simp [IoWorkerState.Noted, waiting]
  constructor
  · intro noReport
    rcases inv.covered with pending | noted | owed | drained
    · simp [noReport] at pending
    · exact absurd noted notNoted
    · exact .inr owed
    · have idle : s.ring.consumer = .idle := by
        by_contra busy
        have popping := inv.popping busy
        simp [waiting] at popping
      have headEq := inv.ring.head_eq
      have tailEq := inv.ring.tail_eq
      simp only [QueueState.headStores, idle, ConsumerPc.freed, Nat.add_zero, drained] at headEq
      exact .inl ⟨headEq.trans tailEq.symm, drained⟩
  · cases unanswered : s.unanswered with
    | false => rfl
    | true => exact absurd (inv.answered unanswered) notNoted

/-- The worker right after it registered the eventfd 3 of a queue nobody has pushed to. -/
def freshWakeup : WakeupState :=
  { io := .initial 3, ring := .initial, reportPending := false, unanswered := false }

/-- One operation is pushed, reported, popped and performed, and the queue is found empty. -/
def wakeupTrace : List WakeupLabel :=
  [.submit .read 5 64 8 1, .pushTest, .pushWrite, .pushStore, .pushNotify, .wait [⟨3, true, false⟩],
    .loop .dispatch, .loop .dispatch, .loop .check, .popTest, .popRead, .popStore, .popDrain,
    .loop (.syscall (.count 8)), .popTest, .loop .clear, .loop .clear]

theorem freshWakeup_start : (wakeupMachine 3).start freshWakeup :=
  ⟨.initial, ⟨.start rfl, rfl, rfl, by simp [QueueState.initial]⟩, rfl⟩

theorem io_wakeup_not_lost_drained :
    ((wakeupMachine 3).after freshWakeup wakeupTrace).io.completed.length = 1 ∧
      ((wakeupMachine 3).after freshWakeup wakeupTrace).unanswered = false :=
  ⟨by decide, (io_wakeup_not_lost (.after (.start freshWakeup_start) wakeupTrace) (by rfl)).2⟩

end CilkL
