/-
Module: CilkL.Proofs.EpollInterest
Layer: Proofs
Purpose: Which blocked operations epoll can wake up. The two directions of an fd share one epoll entry,
  and its mask is that of the direction that was added first. The worker keeps every blocked direction
  registered as long as no `EPOLL_CTL_ADD` meets an entry of the other direction and no `EPOLL_CTL_DEL`
  removes an entry that the other direction still needs; a read and a write that block on one fd already
  break the first condition.
Imports: CilkL.Proofs.IoScheduler
Trusted boundary: none (fully proved)
Main exports: EpollCtlAgrees, InterestInv, InterestInv.of_step, blocked_fd_registered
Open obligations: none
-/
import CilkL.Proofs.IoScheduler

namespace CilkL

/-- The `epoll_ctl` call of a step leaves the other direction of its fd alone: an fd that is added is
    unregistered or registered for the same direction, and an fd that is removed has no blocked
    operation of the other direction. -/
def EpollCtlAgrees (s : IoWorkerState) : IoLabel → Prop
  | .add =>
      match s.pc with
      | .block dir item =>
          s.interest item.op.fildes = none ∨ s.interest item.op.fildes = some dir
      | _ => True
  | .delete fd =>
      match s.pc with
      | .deleteReady dir _ => s.blockedOps dir.other fd = []
      | _ => True
  | _ => True

instance : ∀ s label, Decidable (EpollCtlAgrees s label) := by
  intro s label
  unfold EpollCtlAgrees
  split
  · split <;> infer_instance
  · split <;> infer_instance
  · infer_instance

/-- Every fd with blocked operations of a direction is registered for that direction. -/
def InterestInv (s : IoWorkerState) : Prop :=
  ∀ dir fd, s.blockedOps dir fd ≠ [] → s.interest fd = some dir

theorem Direction.eq_or_eq_other (dir dir' : Direction) : dir' = dir ∨ dir' = dir.other := by
  cases dir <;> cases dir' <;> simp [Direction.other]

/-- A step that leaves epoll alone and lets no empty deque grow keeps the registrations right. -/
theorem InterestInv.mono {s s' : IoWorkerState} (inv : InterestInv s)
    (interest : s'.interest = s.interest)
    (noNew : ∀ dir fd, s'.blockedOps dir fd ≠ [] → s.blockedOps dir fd ≠ []) : InterestInv s' := by
  intro dir fd nonempty
  rw [interest]
  exact inv dir fd (noNew dir fd nonempty)

theorem handleEvent_interest (s : IoWorkerState) (dir : Direction) (fd : Int)
    (events : List EpollEvent) : (handleEvent s dir fd events).interest = s.interest := by
  unfold handleEvent
  split <;> rfl

theorem handleEvent_blockedOps (s : IoWorkerState) (dir : Direction) (fd : Int)
    (events : List EpollEvent) : (handleEvent s dir fd events).blockedOps = s.blockedOps := by
  unfold handleEvent
  split <;> rfl

/-- Replacing a non-empty deque lets no empty deque grow. -/
theorem nonempty_of_setBlockedOps {ops : Direction → Int → List IoItem} {dir d : Direction}
    {fd f : Int} {items : List IoItem} (before : ops dir fd ≠ [])
    (after : setBlockedOps ops dir fd items d f ≠ []) : ops d f ≠ [] := by
  by_cases here : d = dir ∧ f = fd
  · obtain ⟨rfl, rfl⟩ := here
    exact before
  · rwa [setBlockedOps_other here] at after

theorem InterestInv.of_dispatchEvent {s : IoWorkerState} {eventfd : Int} {event : EpollEvent}
    {events : List EpollEvent} (inv : InterestInv s) :
    InterestInv (dispatchEvent s eventfd event events) := by
  unfold dispatchEvent
  split
  · exact inv
  · split
    · exact inv.mono (handleEvent_interest ..) (fun _ _ => by rw [handleEvent_blockedOps]; exact id)
    · split
      · exact inv.mono (handleEvent_interest ..)
          (fun _ _ => by rw [handleEvent_blockedOps]; exact id)
      · exact inv

theorem InterestInv.of_handleResult {s : IoWorkerState} {dir : Direction} {fd : Int}
    {events : List EpollEvent} {item : IoItem} {items : List IoItem} {result : SysResult}
    (inv : InterestInv s) (nonempty : s.blockedOps dir fd ≠ []) :
    InterestInv (handleResult s dir fd events item items result) := by
  unfold handleResult
  cases outcome : performIteration dir (result.errnoAfter s.errno) item.op result with
  | again op =>
      simp only [outcome]
      exact inv.mono rfl fun _ _ => nonempty_of_setBlockedOps nonempty
  | blocked op =>
      simp only [outcome]
      exact inv.mono rfl fun _ _ => nonempty_of_setBlockedOps nonempty
  | put op retVal errnoVal =>
      simp only [outcome]
      refine inv.mono ((handleEvent_interest _ _ _ _).trans rfl) ?_
      intro d f
      rw [handleEvent_blockedOps]
      exact nonempty_of_setBlockedOps nonempty

theorem InterestInv.of_performResult {s : IoWorkerState} {dir : Direction} {item : IoItem}
    {result : SysResult} (inv : InterestInv s) : InterestInv (performResult s dir item result) := by
  unfold performResult
  cases outcome : performIteration dir (result.errnoAfter s.errno) item.op result with
  | again op | blocked op | put op retVal errnoVal =>
      simp only [outcome]
      exact inv

theorem InterestInv.of_receiveOp {s : IoWorkerState} {item : IoItem} {rest : List IoItem}
    (inv : InterestInv s) (loop : IoInv s) :
    InterestInv (receiveOp { s with ioQueue := rest } item) := by
  unfold receiveOp
  cases item.op.direction with
  | none =>
      simp only
      split <;> exact inv
  | some dir =>
      simp only
      split
      · rename_i blocked
        have nonempty := (loop.blocked_iff dir item.op.fildes).1 blocked
        exact inv.mono rfl fun _ _ => nonempty_of_setBlockedOps nonempty
      · exact inv

/-- Adding an fd that is not registered for the other direction registers it for this one. -/
theorem InterestInv.of_blockOp {s : IoWorkerState} {dir : Direction} {item : IoItem}
    (inv : InterestInv s)
    (agrees : s.interest item.op.fildes = none ∨ s.interest item.op.fildes = some dir) :
    InterestInv (blockOp s dir item) := by
  intro d f nonempty
  have registered : (blockOp s dir item).interest item.op.fildes = some dir := by
    rcases agrees with free | same
    · simp [blockOp, epollAdd, free]
    · simp [blockOp, epollAdd, same]
  have others : ∀ fd, fd ≠ item.op.fildes → (blockOp s dir item).interest fd = s.interest fd := by
    intro fd other
    rcases agrees with free | same
    · simp [blockOp, epollAdd, free, other]
    · simp [blockOp, epollAdd, same]
  have ops : (blockOp s dir item).blockedOps =
      setBlockedOps s.blockedOps dir item.op.fildes (s.blockedOps dir item.op.fildes ++ [item]) := by
    rcases agrees with free | same
    · simp [blockOp, epollAdd, free]
    · simp [blockOp, epollAdd, same]
  rw [ops] at nonempty
  by_cases here : d = dir ∧ f = item.op.fildes
  · obtain ⟨rfl, rfl⟩ := here
    exact registered
  · rw [setBlockedOps_other here] at nonempty
    have interest := inv d f nonempty
    by_cases sameFd : f = item.op.fildes
    · -- The other direction of this fd is not blocked: the entry would be its own.
      subst sameFd
      rcases agrees with free | same
      · simp [free] at interest
      · rw [same] at interest
        exact absurd ⟨(Option.some.inj interest).symm, rfl⟩ here
    · rw [others f sameFd]
      exact interest

/-- Removing a drained fd that the other direction does not need unregisters nothing that is blocked. -/
theorem InterestInv.of_epollDel {s : IoWorkerState} {fd : Int} (inv : InterestInv s)
    (drained : ∀ dir, s.blockedOps dir fd = []) : InterestInv (epollDel s fd) := by
  intro d f nonempty
  have ops : (epollDel s fd).blockedOps = s.blockedOps := by
    unfold epollDel
    split <;> rfl
  rw [ops] at nonempty
  have other : f ≠ fd := by
    rintro rfl
    exact nonempty (drained d)
  rw [← inv d f nonempty]
  unfold epollDel
  split
  · simp [other]
  · rfl

/-- A step whose `epoll_ctl` call agrees with both directions keeps the registrations right. -/
theorem InterestInv.of_step {eventfd : Int} {s s' : IoWorkerState} {label : IoLabel}
    (inv : InterestInv s) (loop : IoInv s) (agrees : EpollCtlAgrees s label)
    (taken : ioStep eventfd s label = some s') : InterestInv s' := by
  cases label with
  | submit dir fildes buf nbyte fut =>
      simp only [ioStep, Option.some.injEq] at taken
      exact taken ▸ inv
  | workDone | wait events =>
      cases pc : s.pc <;> simp [ioStep, pc] at taken
      exact taken ▸ inv
  | dispatch =>
      cases pc : s.pc with
      | dispatch events =>
          cases events with
          | nil =>
              simp only [ioStep, pc, Option.some.injEq] at taken
              exact taken ▸ inv
          | cons event events =>
              simp only [ioStep, pc, Option.some.injEq] at taken
              exact taken ▸ inv.of_dispatchEvent
      | _ => simp [ioStep, pc] at taken
  | syscall result =>
      cases pc : s.pc with
      | handle dir fd events =>
          cases front : s.blockedOps dir fd with
          | nil => simp [ioStep, pc, front] at taken
          | cons item items =>
              simp only [ioStep, pc, front, Option.some.injEq] at taken
              exact taken ▸ inv.of_handleResult (by simp [front])
      | perform dir item =>
          simp only [ioStep, pc, Option.some.injEq] at taken
          exact taken ▸ inv.of_performResult
      | _ => simp [ioStep, pc] at taken
  | check =>
      cases pc : s.pc <;> simp [ioStep, pc] at taken
      split at taken <;>
      · cases taken
        exact inv
  | pop =>
      cases pc : s.pc with
      | popQueue =>
          cases queue : s.ioQueue with
          | nil =>
              simp only [ioStep, pc, queue, Option.some.injEq] at taken
              exact taken ▸ inv
          | cons item rest =>
              simp only [ioStep, pc, queue, Option.some.injEq] at taken
              exact taken ▸ inv.of_receiveOp loop
      | _ => simp [ioStep, pc] at taken
  | add =>
      cases pc : s.pc with
      | block dir item =>
          simp only [ioStep, pc, Option.some.injEq] at taken
          simp only [EpollCtlAgrees, pc] at agrees
          exact taken ▸ inv.of_blockOp agrees
      | _ => simp [ioStep, pc] at taken
  | delete fd =>
      cases pc : s.pc with
      | deleteReady dir todo =>
          simp only [ioStep, pc] at taken
          simp only [EpollCtlAgrees, pc] at agrees
          split at taken
          · rename_i listed
            cases taken
            have todoReady : todo ⊆ s.readyFds dir := by simpa [IoLocals, pc] using loop.locals
            have drained : s.blockedOps dir fd = [] := by
              by_contra nonempty
              have blocked := (loop.blocked_iff dir fd).2 nonempty
              exact Finset.disjoint_left.1 (loop.disjoint dir) blocked (todoReady listed)
            have moved : InterestInv { s with pc := .deleteReady dir (todo.erase fd) } := inv
            apply moved.of_epollDel
            intro d
            rcases dir.eq_or_eq_other d with rfl | rfl
            · exact drained
            · exact agrees
          · simp at taken
      | _ => simp [ioStep, pc] at taken
  | clear =>
      cases pc : s.pc with
      | deleteReady dir todo =>
          simp only [ioStep, pc] at taken
          split at taken
          · cases taken
            cases dir <;> exact inv
          · simp at taken
      | _ => simp [ioStep, pc] at taken

/-- The condition is exact: a step after which the registrations are right made no `epoll_ctl` call
    against the other direction. -/
theorem EpollCtlAgrees.of_interestInv {eventfd : Int} {s s' : IoWorkerState} {label : IoLabel}
    (inv : InterestInv s') (taken : ioStep eventfd s label = some s') : EpollCtlAgrees s label := by
  cases label with
  | add =>
      cases pc : s.pc with
      | block dir item =>
          simp only [ioStep, pc, Option.some.injEq] at taken
          simp only [EpollCtlAgrees, pc]
          subst taken
          cases registered : s.interest item.op.fildes with
          | none => exact .inl rfl
          | some d =>
              have interest := inv dir item.op.fildes
              simp only [blockOp, epollAdd, registered, setBlockedOps_self] at interest
              exact .inr (interest (by simp))
      | _ => simp [ioStep, pc] at taken
  | delete fd =>
      cases pc : s.pc with
      | deleteReady dir todo =>
          simp only [EpollCtlAgrees, pc]
          simp only [ioStep, pc] at taken
          split at taken
          · cases taken
            by_contra nonempty
            cases registered : s.interest fd with
            | none =>
                have interest := inv dir.other fd
                simp only [epollDel, registered] at interest
                simpa using interest nonempty
            | some d =>
                have interest := inv dir.other fd
                simp only [epollDel, registered] at interest
                simpa using interest nonempty
          · simp at taken
      | _ => simp [ioStep, pc] at taken
  | _ => trivial

theorem InterestInv.of_initial (eventfd : Int) : InterestInv (.initial eventfd) := by
  intro dir fd nonempty
  simp [IoWorkerState.initial] at nonempty

/-- In every run whose `epoll_ctl` calls agree with both directions of their fds, whenever the worker is
    about to call `epoll_wait` every fd with a blocked operation is registered for its direction. -/
theorem blocked_fd_registered {eventfd : Int} {s : IoWorkerState}
    (run : (ioMachine eventfd).GuardedRun EpollCtlAgrees s) (_waiting : s.pc = .epollWait) :
    (∀ fd, s.blockedOps .read fd ≠ [] → s.interest fd = some .read) ∧
      ∀ fd, s.blockedOps .write fd ≠ [] → s.interest fd = some .write := by
  have inv : IoInv s ∧ InterestInv s := by
    apply run.invariant
    · rintro _ rfl
      exact ⟨.of_initial eventfd, .of_initial eventfd⟩
    · rintro _ _ _ ⟨loop, inv⟩ agrees taken
      exact ⟨loop.of_step taken, inv.of_step loop agrees taken⟩
  exact ⟨inv.2 .read, inv.2 .write⟩

/-- One read of fd 7 that blocks. -/
def blockedReadTrace : List IoLabel :=
  [.submit .read 7 64 8 1, .wait [⟨3, true, false⟩], .dispatch, .dispatch, .check, .pop,
    .syscall (.fail eagain), .add, .pop, .clear, .clear]

theorem blocked_fd_registered_read :
    ((ioMachine 3).after (.initial 3) blockedReadTrace).blockedOps .read 7 ≠ [] ∧
      ((ioMachine 3).after (.initial 3) blockedReadTrace).interest 7 = some .read :=
  ⟨by decide, (blocked_fd_registered (.after (.start rfl) blockedReadTrace (by decide)) rfl).1 7
    (by decide)⟩

/-- A read and a write of fd 7 that both block: the second `EPOLL_CTL_ADD` finds the fd registered. -/
def readWriteTrace : List IoLabel :=
  [.submit .read 7 64 8 1, .submit .write 7 128 8 2, .wait [⟨3, true, false⟩], .dispatch, .dispatch,
    .check, .pop, .syscall (.fail eagain), .add, .pop, .syscall (.fail eagain), .add, .pop,
    .clear, .clear]

/-- The blocked write of fd 7 has no wake-up source. -/
theorem blocked_write_unregistered :
    ∃ s, (ioMachine 3).Reachable s ∧ s.pc = .epollWait ∧ s.blockedOps .write 7 ≠ [] ∧
      s.interest 7 ≠ some .write :=
  ⟨(ioMachine 3).after (.initial 3) readWriteTrace, .after (.start rfl) readWriteTrace, rfl,
    by decide, by decide⟩

end CilkL
