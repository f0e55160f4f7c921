/-
Module: CilkL.Proofs.IoScheduler
Layer: Proofs
Purpose: The I/O worker neither loses, duplicates nor reorders operations. For one fd and direction the
  tickets submitted are, in order, those whose `put` was called, those in the blocked deque, the one in
  `curr_op`, and those still in the queue; every step only moves the borders between these four parts.
Imports: CilkL.Runtime.IoScheduler, Mathlib.Data.List.Nodup, Mathlib.Data.List.Range
Trusted boundary: none (fully proved)
Main exports: ticketsOn, IoInv, IoInv.of_step, ioInv_reachable
Open obligations: none
-/
import CilkL.Runtime.IoScheduler
import Mathlib.Data.List.Nodup
import Mathlib.Data.List.Range
import Mathlib.Data.List.Pairwise

namespace CilkL

/-! ### Streams: the operations of one fd and direction -/

/-- The operation belongs to the stream of this direction and fd. -/
def IoOp.OnStream (dir : Direction) (fd : Int) (op : IoOp) : Prop :=
  op.direction = some dir ∧ op.fildes = fd

instance (dir : Direction) (fd : Int) (op : IoOp) : Decidable (op.OnStream dir fd) :=
  inferInstanceAs (Decidable (_ ∧ _))

/-- The tickets of one stream, in list order. -/
def ticketsOn (dir : Direction) (fd : Int) (items : List IoItem) : List Nat :=
  (items.filter fun item => item.op.OnStream dir fd).map IoItem.ticket

@[simp] theorem ticketsOn_nil (dir : Direction) (fd : Int) : ticketsOn dir fd [] = [] := rfl

@[simp] theorem ticketsOn_append (dir : Direction) (fd : Int) (xs ys : List IoItem) :
    ticketsOn dir fd (xs ++ ys) = ticketsOn dir fd xs ++ ticketsOn dir fd ys := by
  simp [ticketsOn]

theorem ticketsOn_cons (dir : Direction) (fd : Int) (item : IoItem) (items : List IoItem) :
    ticketsOn dir fd (item :: items) = ticketsOn dir fd [item] ++ ticketsOn dir fd items := by
  rw [← ticketsOn_append]
  rfl

theorem ticketsOn_singleton {dir : Direction} {fd : Int} {item : IoItem}
    (onStream : item.op.OnStream dir fd) : ticketsOn dir fd [item] = [item.ticket] := by
  simp [ticketsOn, onStream]

theorem ticketsOn_singleton_off {dir : Direction} {fd : Int} {item : IoItem}
    (offStream : ¬ item.op.OnStream dir fd) : ticketsOn dir fd [item] = [] := by
  simp [ticketsOn, offStream]

/-- An operation keeps its stream while its type and fd stay the same. -/
theorem onStream_congr {op op' : IoOp} (sameType : op'.type = op.type)
    (sameFd : op'.fildes = op.fildes) (dir : Direction) (fd : Int) :
    op'.OnStream dir fd ↔ op.OnStream dir fd := by
  simp [IoOp.OnStream, IoOp.direction, sameType, sameFd]

theorem ticketsOn_congr {op op' : IoOp} (sameType : op'.type = op.type)
    (sameFd : op'.fildes = op.fildes) (dir : Direction) (fd : Int) (ticket : Nat) :
    ticketsOn dir fd [⟨ticket, op'⟩] = ticketsOn dir fd [⟨ticket, op⟩] := by
  simp only [ticketsOn, List.filter_cons, onStream_congr sameType sameFd]
  split <;> rfl

/-- A stream has one direction and one fd. -/
theorem onStream_unique {op : IoOp} {dir dir' : Direction} {fd fd' : Int}
    (one : op.OnStream dir fd) (two : op.OnStream dir' fd') : dir = dir' ∧ fd = fd' :=
  ⟨Option.some.inj (one.1.symm.trans two.1), one.2.symm.trans two.2⟩

/-! ### One system call -/

/-- The operation a call of `perform_io_until_block` leaves behind. -/
def PerformOutcome.op : PerformOutcome → IoOp
  | .again op | .blocked op | .put op _ _ => op

/-- `perform_io_until_block` writes only the buffer, the byte count and the result. -/
theorem performIteration_keeps (dir : Direction) (errno : Int) (op : IoOp) (result : SysResult) :
    (performIteration dir errno op result).op.type = op.type ∧
      (performIteration dir errno op result).op.fildes = op.fildes := by
  simp only [performIteration]
  split
  · exact ⟨rfl, rfl⟩
  · split
    · split <;> exact ⟨rfl, rfl⟩
    · exact ⟨rfl, rfl⟩

/-! ### The invariant -/

/-- The operation in `curr_op` that is not filed anywhere else. -/
def IoWorkerState.hand (s : IoWorkerState) : List IoItem :=
  match s.pc with
  | .perform _ item | .block _ item => [item]
  | _ => []

/-- The operations whose `put` was called. -/
def IoWorkerState.done (s : IoWorkerState) : List IoItem := s.completed.map Completion.item

/-- What each program point knows about the deques and sets. -/
def IoLocals (s : IoWorkerState) : Prop :=
  match s.pc with
  | .handle dir fd _ => s.blockedOps dir fd ≠ []
  | .perform dir item | .block dir item =>
      item.op.direction = some dir ∧ s.blockedOps dir item.op.fildes = []
  | .deleteReady dir todo => todo ⊆ s.readyFds dir
  | _ => True

/-- Where the operations are filed. -/
structure IoFiled (s : IoWorkerState) : Prop where
  /-- A ticket is a position in the order of submission. -/
  tickets_eq : s.submitted.map IoItem.ticket = List.range s.submitted.length
  /-- Only reads and writes are submitted. -/
  directed : ∀ item ∈ s.submitted, item.op.direction ≠ none
  /-- The four parts of a stream. -/
  stream_eq : ∀ dir fd,
    ticketsOn dir fd s.submitted =
      ticketsOn dir fd s.done ++ (s.blockedOps dir fd).map IoItem.ticket ++
        ticketsOn dir fd s.hand ++ ticketsOn dir fd s.ioQueue
  blocked_onStream : ∀ dir fd, ∀ item ∈ s.blockedOps dir fd, item.op.OnStream dir fd
  done_directed : ∀ item ∈ s.done, item.op.direction ≠ none
  queue_directed : ∀ item ∈ s.ioQueue, item.op.direction ≠ none

/-- The invariant of the I/O worker's loop. -/
structure IoInv (s : IoWorkerState) : Prop extends IoFiled s where
  blocked_iff : ∀ dir fd, fd ∈ s.blockedFds dir ↔ s.blockedOps dir fd ≠ []
  disjoint : ∀ dir, Disjoint (s.blockedFds dir) (s.readyFds dir)
  locals : IoLocals s

theorem cilkOp_direction (dir : Direction) (fildes : Int) (buf nbyte fut : Nat) :
    (cilkOp dir fildes buf nbyte fut).direction = some dir := by
  cases dir <;> simp [cilkOp, IoOp.direction, iotypeRead, iotypeWrite]

theorem IoInv.of_initial (eventfd : Int) : IoInv (.initial eventfd) := by
  refine { toIoFiled := ?_, blocked_iff := ?_, disjoint := ?_, locals := trivial }
  · constructor <;> simp [IoWorkerState.initial, IoWorkerState.done, IoWorkerState.hand]
  · simp [IoWorkerState.initial]
  · simp [IoWorkerState.initial]

@[simp] theorem setBlockedOps_self (ops : Direction → Int → List IoItem) (dir : Direction)
    (fd : Int) (items : List IoItem) : setBlockedOps ops dir fd items dir fd = items := by
  simp [setBlockedOps]

theorem setBlockedOps_other {dir dir' : Direction} {fd fd' : Int}
    (other : ¬ (dir' = dir ∧ fd' = fd)) (ops : Direction → Int → List IoItem)
    (items : List IoItem) : setBlockedOps ops dir fd items dir' fd' = ops dir' fd' := by
  simp [setBlockedOps, other]

@[simp] theorem setFds_self (sets : Direction → Finset Int) (dir : Direction) (fds : Finset Int) :
    setFds sets dir fds dir = fds := by
  simp [setFds]

theorem setFds_other {dir dir' : Direction} (other : dir' ≠ dir) (sets : Direction → Finset Int)
    (fds : Finset Int) : setFds sets dir fds dir' = sets dir' := by
  simp [setFds, other]

/-! ### Moving one operation -/

theorem IoInv.of_submit {eventfd : Int} {s s' : IoWorkerState} {dir : Direction} {fildes : Int}
    {buf nbyte fut : Nat} (inv : IoInv s)
    (taken : ioStep eventfd s (.submit dir fildes buf nbyte fut) = some s') : IoInv s' := by
  simp only [ioStep, Option.some.injEq] at taken
  subst taken
  have directed : (cilkOp dir fildes buf nbyte fut).direction ≠ none := by
    simp [cilkOp_direction]
  refine { inv with tickets_eq := ?_, directed := ?_, stream_eq := ?_, queue_directed := ?_ }
  · simp [inv.tickets_eq, List.range_succ]
  · intro item mem
    rcases List.mem_append.1 mem with old | new
    · exact inv.directed item old
    · simpa [List.mem_singleton.1 new] using directed
  · intro d fd
    have stream := inv.stream_eq d fd
    simpa [IoWorkerState.done, IoWorkerState.hand, ← List.append_assoc] using stream
  · intro item mem
    rcases List.mem_append.1 mem with old | new
    · exact inv.queue_directed item old
    · simpa [List.mem_singleton.1 new] using directed

/-- A step that refiles nothing keeps the filing. -/
theorem IoFiled.congr {s s' : IoWorkerState} (filed : IoFiled s)
    (submitted : s'.submitted = s.submitted) (done : s'.completed = s.completed)
    (blocked : s'.blockedOps = s.blockedOps) (hand : s'.hand = s.hand)
    (queue : s'.ioQueue = s.ioQueue) : IoFiled s' := by
  have doneEq : s'.done = s.done := by simp [IoWorkerState.done, done]
  exact
    { tickets_eq := by rw [submitted]; exact filed.tickets_eq
      directed := by rw [submitted]; exact filed.directed
      stream_eq := by rw [submitted, doneEq, blocked, hand, queue]; exact filed.stream_eq
      blocked_onStream := by rw [blocked]; exact filed.blocked_onStream
      done_directed := by rw [doneEq]; exact filed.done_directed
      queue_directed := by rw [queue]; exact filed.queue_directed }

/-- The front of a blocked deque may change everything but its stream and its ticket. -/
theorem IoFiled.of_replaceFront {s s' : IoWorkerState} {dir : Direction} {fd : Int} {item : IoItem}
    {items : List IoItem} {op : IoOp} (filed : IoFiled s)
    (front : s.blockedOps dir fd = item :: items) (sameType : op.type = item.op.type)
    (sameFd : op.fildes = item.op.fildes) (submitted : s'.submitted = s.submitted)
    (done : s'.completed = s.completed)
    (blocked : s'.blockedOps =
      setBlockedOps s.blockedOps dir fd ({ item with op := op } :: items))
    (hand : s'.hand = s.hand) (queue : s'.ioQueue = s.ioQueue) : IoFiled s' := by
  have doneEq : s'.done = s.done := by simp [IoWorkerState.done, done]
  refine
    { tickets_eq := by rw [submitted]; exact filed.tickets_eq
      directed := by rw [submitted]; exact filed.directed
      stream_eq := ?_, blocked_onStream := ?_
      done_directed := by rw [doneEq]; exact filed.done_directed
      queue_directed := by rw [queue]; exact filed.queue_directed }
  · intro d f
    have stream := filed.stream_eq d f
    rw [submitted, doneEq, blocked, hand, queue]
    by_cases here : d = dir ∧ f = fd
    · obtain ⟨rfl, rfl⟩ := here
      rw [front] at stream
      simpa using stream
    · simpa only [setBlockedOps_other here] using stream
  · intro d f other mem
    rw [blocked] at mem
    by_cases here : d = dir ∧ f = fd
    · obtain ⟨rfl, rfl⟩ := here
      simp only [setBlockedOps_self] at mem
      rcases List.mem_cons.1 mem with rfl | old
      · rw [onStream_congr sameType sameFd]
        exact filed.blocked_onStream d f item (by simp [front])
      · exact filed.blocked_onStream d f other (by simp [front, old])
    · simp only [setBlockedOps_other here] at mem
      exact filed.blocked_onStream d f other mem

/-- The front of a blocked deque is put: it leaves the deque and joins the completed ones. -/
theorem IoFiled.of_putFront {s : IoWorkerState} {dir : Direction} {fd : Int} {item : IoItem}
    {items : List IoItem} {op : IoOp} (filed : IoFiled s) (retVal errnoVal : Int)
    (front : s.blockedOps dir fd = item :: items) (sameType : op.type = item.op.type)
    (sameFd : op.fildes = item.op.fildes) (hand : s.hand = []) :
    IoFiled
      { s with
        blockedOps := setBlockedOps s.blockedOps dir fd items
        completed := s.completed ++ [⟨{ item with op := op }, retVal, errnoVal⟩] } := by
  have onStream := filed.blocked_onStream dir fd item (by simp [front])
  have itemTickets : ∀ d f, ticketsOn d f [{ item with op := op }] = ticketsOn d f [item] :=
    fun d f => ticketsOn_congr sameType sameFd d f item.ticket
  have handEq : IoWorkerState.hand
      { s with
        blockedOps := setBlockedOps s.blockedOps dir fd items
        completed := s.completed ++ [⟨{ item with op := op }, retVal, errnoVal⟩] } = [] := hand
  refine { filed with stream_eq := ?_, blocked_onStream := ?_, done_directed := ?_ }
  · intro d f
    have stream := filed.stream_eq d f
    rw [hand] at stream
    rw [handEq]
    simp only [IoWorkerState.done, List.map_append, List.map_cons, List.map_nil, ticketsOn_append,
      itemTickets, ticketsOn_nil, List.append_nil] at stream ⊢
    by_cases here : d = dir ∧ f = fd
    · obtain ⟨rfl, rfl⟩ := here
      rw [front] at stream
      simpa [ticketsOn_singleton onStream] using stream
    · have off : ¬ item.op.OnStream d f := fun on => here (onStream_unique on onStream)
      simpa only [setBlockedOps_other here, ticketsOn_singleton_off off, List.append_nil] using stream
  · intro d f other mem
    by_cases here : d = dir ∧ f = fd
    · obtain ⟨rfl, rfl⟩ := here
      simp only [setBlockedOps_self] at mem
      exact filed.blocked_onStream d f other (by simp [front, mem])
    · simp only [setBlockedOps_other here] at mem
      exact filed.blocked_onStream d f other mem
  · intro other mem
    simp only [IoWorkerState.done, List.map_append, List.map_cons, List.map_nil,
      List.mem_append, List.mem_singleton] at mem
    rcases mem with old | rfl
    · exact filed.done_directed other old
    · rw [((onStream_congr sameType sameFd dir fd).2 onStream).1]
      simp

/-- An operation joins the end of its blocked deque. It comes from the hand (`curr_op` blocked) or from
    the head of the queue (filed behind a blocked one). -/
theorem IoFiled.of_enqueue {s s' : IoWorkerState} {dir : Direction} {item : IoItem}
    (filed : IoFiled s) (direction : item.op.direction = some dir)
    (submitted : s'.submitted = s.submitted) (done : s'.completed = s.completed)
    (blocked : s'.blockedOps = setBlockedOps s.blockedOps dir item.op.fildes
      (s.blockedOps dir item.op.fildes ++ [item]))
    (hand : s'.hand = []) (moved : s.hand ++ s.ioQueue = item :: s'.ioQueue) : IoFiled s' := by
  have onStream : item.op.OnStream dir item.op.fildes := ⟨direction, rfl⟩
  have doneEq : s'.done = s.done := by simp [IoWorkerState.done, done]
  refine
    { tickets_eq := by rw [submitted]; exact filed.tickets_eq
      directed := by rw [submitted]; exact filed.directed
      stream_eq := ?_, blocked_onStream := ?_
      done_directed := by rw [doneEq]; exact filed.done_directed, queue_directed := ?_ }
  · intro d f
    have stream := filed.stream_eq d f
    rw [List.append_assoc, ← ticketsOn_append, moved, ticketsOn_cons] at stream
    rw [submitted, doneEq, blocked, hand]
    by_cases here : d = dir ∧ f = item.op.fildes
    · obtain ⟨rfl, rfl⟩ := here
      simpa [ticketsOn_singleton onStream] using stream
    · have off : ¬ item.op.OnStream d f := fun on => here (onStream_unique on onStream)
      simpa [setBlockedOps_other here, ticketsOn_singleton_off off] using stream
  · intro d f other mem
    rw [blocked] at mem
    by_cases here : d = dir ∧ f = item.op.fildes
    · obtain ⟨rfl, rfl⟩ := here
      simp only [setBlockedOps_self, List.mem_append, List.mem_singleton] at mem
      rcases mem with old | rfl
      · exact filed.blocked_onStream _ _ other old
      · exact onStream
    · simp only [setBlockedOps_other here] at mem
      exact filed.blocked_onStream d f other mem
  · intro other mem
    have later : other ∈ s.hand ++ s.ioQueue := moved ▸ List.mem_cons_of_mem item mem
    rcases List.mem_append.1 later with inHand | inQueue
    · -- The hand holds at most one operation, and that one is `item`.
      have short : s.hand.length ≤ 1 := by
        cases pc : s.pc <;> simp [IoWorkerState.hand, pc]
      cases handEq : s.hand with
      | nil => simp [handEq] at inHand
      | cons first rest =>
          rw [handEq] at moved short
          have restNil : rest = [] := by simpa using short
          subst restNil
          have queueEq : s.ioQueue = s'.ioQueue := by simpa using (List.cons.inj moved).2
          exact filed.queue_directed other (queueEq ▸ mem)
    · exact filed.queue_directed other inQueue

/-- `curr_op` is put: it leaves the hand and joins the completed ones. -/
theorem IoFiled.of_putHand {s : IoWorkerState} {dir : Direction} {item : IoItem} {op : IoOp}
    (filed : IoFiled s) (retVal errnoVal : Int) (hand : s.hand = [item])
    (direction : item.op.direction = some dir) (alone : s.blockedOps dir item.op.fildes = [])
    (sameType : op.type = item.op.type) (sameFd : op.fildes = item.op.fildes) :
    IoFiled
      { s with
        pc := .popQueue
        completed := s.completed ++ [⟨{ item with op := op }, retVal, errnoVal⟩] } := by
  have onStream : item.op.OnStream dir item.op.fildes := ⟨direction, rfl⟩
  have itemTickets : ∀ d f, ticketsOn d f [{ item with op := op }] = ticketsOn d f [item] :=
    fun d f => ticketsOn_congr sameType sameFd d f item.ticket
  refine { filed with stream_eq := ?_, done_directed := ?_ }
  · intro d f
    have stream := filed.stream_eq d f
    rw [hand] at stream
    simp only [IoWorkerState.done, IoWorkerState.hand, List.map_append, List.map_cons, List.map_nil,
      ticketsOn_append, itemTickets, ticketsOn_nil, List.append_nil] at stream ⊢
    by_cases here : d = dir ∧ f = item.op.fildes
    · obtain ⟨rfl, rfl⟩ := here
      simpa [alone] using stream
    · have off : ¬ item.op.OnStream d f := fun on => here (onStream_unique on onStream)
      simpa [ticketsOn_singleton_off off] using stream
  · intro other mem
    simp only [IoWorkerState.done, List.map_append, List.map_cons, List.map_nil,
      List.mem_append, List.mem_singleton] at mem
    rcases mem with old | rfl
    · exact filed.done_directed other old
    · rw [((onStream_congr sameType sameFd dir _).2 onStream).1]
      simp

/-- `curr_op` takes the head of the queue in hand. -/
theorem IoFiled.of_take {s : IoWorkerState} {dir : Direction} {item : IoItem} {rest : List IoItem}
    (filed : IoFiled s) (hand : s.hand = []) (queue : s.ioQueue = item :: rest) :
    IoFiled { s with ioQueue := rest, pc := .perform dir item } := by
  refine { filed with stream_eq := ?_, queue_directed := ?_ }
  · intro d f
    have stream := filed.stream_eq d f
    rw [hand, queue, ticketsOn_cons] at stream
    simpa [IoWorkerState.hand, IoWorkerState.done] using stream
  · intro other mem
    exact filed.queue_directed other (by simp [queue, show other ∈ rest from mem])

/-! ### The steps of the loop -/

/-- `handle_event` at its loop test restores the invariant: only the deque it looks at may have been
    emptied without its fd having left the blocked set. -/
theorem IoInv.of_handleEvent {s : IoWorkerState} {dir : Direction} {fd : Int}
    {events : List EpollEvent} (filed : IoFiled s) (hand : s.hand = [])
    (blocked_of_ops : ∀ d f, s.blockedOps d f ≠ [] → f ∈ s.blockedFds d)
    (ops_of_blocked : ∀ d f, f ∈ s.blockedFds d →
      s.blockedOps d f ≠ [] ∨ (d = dir ∧ f = fd))
    (disjoint : ∀ d, Disjoint (s.blockedFds d) (s.readyFds d)) :
    IoInv (handleEvent s dir fd events) := by
  unfold handleEvent
  split
  · rename_i empty
    refine
      { toIoFiled := filed.congr rfl rfl rfl hand.symm rfl
        blocked_iff := ?_, disjoint := ?_, locals := trivial }
    · intro d f
      by_cases sameDir : d = dir
      · subst sameDir
        simp only [setFds_self, Finset.mem_erase]
        constructor
        · rintro ⟨notFd, mem⟩
          exact (ops_of_blocked d f mem).resolve_right fun here => notFd here.2
        · intro nonempty
          refine ⟨?_, blocked_of_ops d f nonempty⟩
          rintro rfl
          exact nonempty empty
      · simp only [setFds_other sameDir]
        constructor
        · intro mem
          exact (ops_of_blocked d f mem).resolve_right fun here => sameDir here.1
        · exact blocked_of_ops d f
    · intro d
      by_cases sameDir : d = dir
      · subst sameDir
        simp only [setFds_self, Finset.disjoint_insert_right, Finset.mem_erase]
        refine ⟨fun mem => mem.1 rfl, ?_⟩
        exact (disjoint d).mono_left (Finset.erase_subset _ _)
      · simpa only [setFds_other sameDir] using disjoint d
  · rename_i nonempty
    refine
      { toIoFiled := filed.congr rfl rfl rfl hand.symm rfl
        blocked_iff := ?_, disjoint := disjoint, locals := nonempty }
    intro d f
    refine ⟨fun mem => ?_, blocked_of_ops d f⟩
    rcases ops_of_blocked d f mem with ops | ⟨rfl, rfl⟩
    · exact ops
    · exact nonempty

/-- Steps that move only the program counter between points without `curr_op`. -/
theorem IoInv.of_pc {s : IoWorkerState} {pc : IoPc} (inv : IoInv s) (hand : s.hand = [])
    (noHand : IoWorkerState.hand { s with pc := pc } = [])
    (locals : IoLocals { s with pc := pc }) : IoInv { s with pc := pc } :=
  { toIoFiled := inv.toIoFiled.congr rfl rfl rfl (noHand.trans hand.symm) rfl
    blocked_iff := inv.blocked_iff, disjoint := inv.disjoint, locals := locals }

theorem IoInv.of_dispatchEvent {s : IoWorkerState} {eventfd : Int} {event : EpollEvent}
    {events : List EpollEvent} (inv : IoInv s) (hand : s.hand = []) :
    IoInv (dispatchEvent s eventfd event events) := by
  unfold dispatchEvent
  split
  · exact
      { toIoFiled := inv.toIoFiled.congr rfl rfl rfl hand.symm rfl
        blocked_iff := inv.blocked_iff, disjoint := inv.disjoint, locals := trivial }
  · split
    · exact .of_handleEvent inv.toIoFiled hand (fun d f => (inv.blocked_iff d f).2)
        (fun d f mem => .inl ((inv.blocked_iff d f).1 mem)) inv.disjoint
    · split
      · exact .of_handleEvent inv.toIoFiled hand (fun d f => (inv.blocked_iff d f).2)
          (fun d f mem => .inl ((inv.blocked_iff d f).1 mem)) inv.disjoint
      · exact inv.of_pc hand rfl trivial

/-- Replacing the contents of a non-empty deque by another non-empty one keeps the blocked sets right. -/
theorem blocked_iff_of_replace {s : IoWorkerState} {dir : Direction} {fd : Int}
    {items : List IoItem} (inv : IoInv s) (before : s.blockedOps dir fd ≠ [])
    (after : items ≠ []) (d : Direction) (f : Int) :
    f ∈ s.blockedFds d ↔ setBlockedOps s.blockedOps dir fd items d f ≠ [] := by
  by_cases here : d = dir ∧ f = fd
  · obtain ⟨rfl, rfl⟩ := here
    simp [inv.blocked_iff, before, after]
  · rw [setBlockedOps_other here]
    exact inv.blocked_iff d f

theorem IoInv.of_handleResult {s : IoWorkerState} {dir : Direction} {fd : Int}
    {events : List EpollEvent} {item : IoItem} {items : List IoItem} {result : SysResult}
    (inv : IoInv s) (pc : s.pc = .handle dir fd events)
    (front : s.blockedOps dir fd = item :: items) :
    IoInv (handleResult s dir fd events item items result) := by
  have hand : s.hand = [] := by simp [IoWorkerState.hand, pc]
  have nonempty : s.blockedOps dir fd ≠ [] := by simp [front]
  unfold handleResult
  obtain ⟨sameType, sameFd⟩ :=
    performIteration_keeps dir (result.errnoAfter s.errno) item.op result
  cases outcome : performIteration dir (result.errnoAfter s.errno) item.op result with
  | again op =>
      rw [outcome] at sameType sameFd
      simp only [outcome]
      refine
        { toIoFiled := inv.toIoFiled.of_replaceFront front sameType sameFd rfl rfl rfl rfl rfl
          blocked_iff := blocked_iff_of_replace inv nonempty (by simp), disjoint := inv.disjoint
          locals := ?_ }
      simp [IoLocals, pc]
  | blocked op =>
      rw [outcome] at sameType sameFd
      simp only [outcome]
      exact
        { toIoFiled := inv.toIoFiled.of_replaceFront front sameType sameFd rfl rfl rfl hand.symm rfl
          blocked_iff := blocked_iff_of_replace inv nonempty (by simp), disjoint := inv.disjoint
          locals := trivial }
  | put op retVal errnoVal =>
      rw [outcome] at sameType sameFd
      simp only [outcome]
      have filed := inv.toIoFiled.of_putFront retVal errnoVal front sameType sameFd hand
      refine .of_handleEvent (filed.congr rfl rfl rfl rfl rfl) hand ?_ ?_ inv.disjoint
      · intro d f ops
        refine (inv.blocked_iff d f).2 ?_
        by_cases here : d = dir ∧ f = fd
        · obtain ⟨rfl, rfl⟩ := here
          exact nonempty
        · simpa only [setBlockedOps_other here] using ops
      · intro d f mem
        by_cases here : d = dir ∧ f = fd
        · exact .inr here
        · simpa only [setBlockedOps_other here] using Or.inl ((inv.blocked_iff d f).1 mem)

theorem IoInv.of_performResult {s : IoWorkerState} {dir : Direction} {item : IoItem}
    {result : SysResult} (inv : IoInv s) (pc : s.pc = .perform dir item) :
    IoInv (performResult s dir item result) := by
  have hand : s.hand = [item] := by simp [IoWorkerState.hand, pc]
  obtain ⟨direction, alone⟩ : item.op.direction = some dir ∧
      s.blockedOps dir item.op.fildes = [] := by
    simpa [IoLocals, pc] using inv.locals
  unfold performResult
  obtain ⟨sameType, sameFd⟩ :=
    performIteration_keeps dir (result.errnoAfter s.errno) item.op result
  -- While the call goes on, only the operation in hand is rewritten.
  have inHand : ∀ {op : IoOp} {s' : IoWorkerState}, op.type = item.op.type →
      op.fildes = item.op.fildes → s'.hand = [{ item with op := op }] →
      s'.submitted = s.submitted → s'.completed = s.completed → s'.blockedOps = s.blockedOps →
      s'.ioQueue = s.ioQueue → IoFiled s' := by
    intro op s' sameType sameFd hand' submitted done blocked queue
    have doneEq : s'.done = s.done := by simp [IoWorkerState.done, done]
    exact
      { tickets_eq := by rw [submitted]; exact inv.tickets_eq
        directed := by rw [submitted]; exact inv.directed
        stream_eq := by
          intro d f
          rw [submitted, doneEq, blocked, hand', queue, ticketsOn_congr sameType sameFd, ← hand]
          exact inv.stream_eq d f
        blocked_onStream := by rw [blocked]; exact inv.blocked_onStream
        done_directed := by rw [doneEq]; exact inv.done_directed
        queue_directed := by rw [queue]; exact inv.queue_directed }
  have locals : ∀ {op : IoOp}, op.type = item.op.type → op.fildes = item.op.fildes →
      op.direction = some dir ∧ s.blockedOps dir op.fildes = [] := by
    intro op sameType sameFd
    rw [sameFd]
    refine ⟨?_, alone⟩
    rw [← direction]
    simp [IoOp.direction, sameType]
  cases outcome : performIteration dir (result.errnoAfter s.errno) item.op result with
  | again op =>
      rw [outcome] at sameType sameFd
      simp only [outcome]
      exact
        { toIoFiled := inHand sameType sameFd rfl rfl rfl rfl rfl
          blocked_iff := inv.blocked_iff, disjoint := inv.disjoint
          locals := locals sameType sameFd }
  | blocked op =>
      rw [outcome] at sameType sameFd
      simp only [outcome]
      exact
        { toIoFiled := inHand sameType sameFd rfl rfl rfl rfl rfl
          blocked_iff := inv.blocked_iff, disjoint := inv.disjoint
          locals := locals sameType sameFd }
  | put op retVal errnoVal =>
      rw [outcome] at sameType sameFd
      simp only [outcome]
      have filed := inv.toIoFiled.of_putHand retVal errnoVal hand direction alone sameType sameFd
      exact
        { toIoFiled := filed.congr rfl rfl rfl rfl rfl
          blocked_iff := inv.blocked_iff, disjoint := inv.disjoint, locals := trivial }

theorem IoInv.of_receiveOp {s : IoWorkerState} {item : IoItem} {rest : List IoItem}
    (inv : IoInv s) (hand : s.hand = []) (queue : s.ioQueue = item :: rest) :
    IoInv (receiveOp { s with ioQueue := rest } item) := by
  unfold receiveOp
  cases direction : item.op.direction with
  | none => exact absurd direction (inv.queue_directed item (by simp [queue]))
  | some dir =>
      simp only
      split
      · rename_i blocked
        have nonempty := (inv.blocked_iff dir item.op.fildes).1 blocked
        exact
          { toIoFiled := inv.toIoFiled.of_enqueue direction rfl rfl rfl rfl (by simp [hand, queue])
            blocked_iff := blocked_iff_of_replace inv nonempty (by simp)
            disjoint := inv.disjoint, locals := trivial }
      · rename_i free
        refine
          { toIoFiled := inv.toIoFiled.of_take hand queue
            blocked_iff := inv.blocked_iff, disjoint := inv.disjoint
            locals := ⟨direction, ?_⟩ }
        by_contra nonempty
        exact free ((inv.blocked_iff dir item.op.fildes).2 nonempty)

/-- `EPOLL_CTL_ADD` touches only the interest list and `errno`. -/
theorem IoInv.of_epollAdd {s : IoWorkerState} {dir : Direction} {fd : Int} (inv : IoInv s) :
    IoInv (epollAdd s dir fd) := by
  unfold epollAdd
  split <;>
    exact
      { toIoFiled := inv.toIoFiled.congr rfl rfl rfl rfl rfl
        blocked_iff := inv.blocked_iff, disjoint := inv.disjoint, locals := inv.locals }

/-- `EPOLL_CTL_DEL` touches only the interest list and `errno`. -/
theorem IoInv.of_epollDel {s : IoWorkerState} {fd : Int} (inv : IoInv s) :
    IoInv (epollDel s fd) := by
  unfold epollDel
  split <;>
    exact
      { toIoFiled := inv.toIoFiled.congr rfl rfl rfl rfl rfl
        blocked_iff := inv.blocked_iff, disjoint := inv.disjoint, locals := inv.locals }

theorem IoInv.of_blockOp {s : IoWorkerState} {dir : Direction} {item : IoItem} (inv : IoInv s)
    (pc : s.pc = .block dir item) : IoInv (blockOp s dir item) := by
  have hand : s.hand = [item] := by simp [IoWorkerState.hand, pc]
  obtain ⟨direction, alone⟩ : item.op.direction = some dir ∧
      s.blockedOps dir item.op.fildes = [] := by
    simpa [IoLocals, pc] using inv.locals
  refine IoInv.of_epollAdd
    { toIoFiled := inv.toIoFiled.of_enqueue direction rfl rfl rfl rfl (by simp [hand])
      blocked_iff := ?_, disjoint := ?_, locals := trivial }
  · intro d f
    by_cases sameDir : d = dir
    · subst sameDir
      by_cases sameFd : f = item.op.fildes
      · simp [sameFd]
      · simp [setBlockedOps_other (fun here => sameFd here.2), sameFd, inv.blocked_iff]
    · simp [setFds_other sameDir, setBlockedOps_other (fun here => sameDir here.1),
        inv.blocked_iff]
  · intro d
    by_cases sameDir : d = dir
    · subst sameDir
      simp only [setFds_self, Finset.disjoint_insert_left, Finset.mem_erase]
      exact ⟨fun mem => mem.1 rfl, (inv.disjoint d).mono_right (Finset.erase_subset _ _)⟩
    · simpa only [setFds_other sameDir] using inv.disjoint d

theorem IoInv.of_clearReady {s : IoWorkerState} {dir : Direction} {todo : Finset Int} (inv : IoInv s)
    (pc : s.pc = .deleteReady dir todo) : IoInv (clearReady s dir) := by
  have hand : s.hand = [] := by simp [IoWorkerState.hand, pc]
  have disjoint : ∀ d, Disjoint (s.blockedFds d) (setFds s.readyFds dir ∅ d) := by
    intro d
    by_cases sameDir : d = dir
    · subst sameDir
      simp
    · simpa only [setFds_other sameDir] using inv.disjoint d
  cases dir with
  | read =>
      exact
        { toIoFiled := inv.toIoFiled.congr rfl rfl rfl hand.symm rfl
          blocked_iff := inv.blocked_iff, disjoint := disjoint
          locals := by simp [IoLocals, clearReady, setFds] }
  | write =>
      exact
        { toIoFiled := inv.toIoFiled.congr rfl rfl rfl hand.symm rfl
          blocked_iff := inv.blocked_iff, disjoint := disjoint, locals := trivial }

/-- Every step keeps the invariant of the loop. -/
theorem IoInv.of_step {eventfd : Int} {s s' : IoWorkerState} {label : IoLabel} (inv : IoInv s)
    (taken : ioStep eventfd s label = some s') : IoInv s' := by
  cases label with
  | submit dir fildes buf nbyte fut => exact inv.of_submit taken
  | workDone =>
      cases pc : s.pc <;> simp [ioStep, pc] at taken
      subst taken
      exact inv.of_pc (by simp [IoWorkerState.hand, pc]) rfl trivial
  | wait events =>
      cases pc : s.pc <;> simp [ioStep, pc] at taken
      subst taken
      exact inv.of_pc (by simp [IoWorkerState.hand, pc]) rfl trivial
  | dispatch =>
      cases pc : s.pc with
      | dispatch events =>
          have hand : s.hand = [] := by simp [IoWorkerState.hand, pc]
          cases events with
          | nil =>
              simp only [ioStep, pc, Option.some.injEq] at taken
              exact taken ▸ inv.of_pc hand rfl trivial
          | cons event events =>
              simp only [ioStep, pc, Option.some.injEq] at taken
              exact taken ▸ inv.of_dispatchEvent hand
      | _ => simp [ioStep, pc] at taken
  | syscall result =>
      cases pc : s.pc with
      | handle dir fd events =>
          cases front : s.blockedOps dir fd with
          | nil => simp [ioStep, pc, front] at taken
          | cons item items =>
              simp only [ioStep, pc, front, Option.some.injEq] at taken
              exact taken ▸ inv.of_handleResult pc front
      | perform dir item =>
          simp only [ioStep, pc, Option.some.injEq] at taken
          exact taken ▸ inv.of_performResult pc
      | _ => simp [ioStep, pc] at taken
  | check =>
      cases pc : s.pc <;> simp [ioStep, pc] at taken
      have hand : s.hand = [] := by simp [IoWorkerState.hand, pc]
      split at taken
      · cases taken
        exact
          { toIoFiled := inv.toIoFiled.congr rfl rfl rfl hand.symm rfl
            blocked_iff := inv.blocked_iff, disjoint := inv.disjoint, locals := trivial }
      · cases taken
        exact inv.of_pc hand rfl (Finset.Subset.refl _)
  | pop =>
      cases pc : s.pc with
      | popQueue =>
          have hand : s.hand = [] := by simp [IoWorkerState.hand, pc]
          cases queue : s.ioQueue with
          | nil =>
              simp only [ioStep, pc, queue, Option.some.injEq] at taken
              rw [← taken, ← queue]
              exact inv.of_pc hand rfl (Finset.Subset.refl _)
          | cons item rest =>
              simp only [ioStep, pc, queue, Option.some.injEq] at taken
              exact taken ▸ inv.of_receiveOp hand queue
      | _ => simp [ioStep, pc] at taken
  | add =>
      cases pc : s.pc with
      | block dir item =>
          simp only [ioStep, pc, Option.some.injEq] at taken
          exact taken ▸ inv.of_blockOp pc
      | _ => simp [ioStep, pc] at taken
  | delete fd =>
      cases pc : s.pc with
      | deleteReady dir todo =>
          simp only [ioStep, pc] at taken
          split at taken
          · cases taken
            have todoReady : todo ⊆ s.readyFds dir := by simpa [IoLocals, pc] using inv.locals
            exact IoInv.of_epollDel (inv.of_pc (by simp [IoWorkerState.hand, pc]) rfl
              ((Finset.erase_subset fd todo).trans todoReady))
          · simp at taken
      | _ => simp [ioStep, pc] at taken
  | clear =>
      cases pc : s.pc with
      | deleteReady dir todo =>
          simp only [ioStep, pc] at taken
          split at taken
          · cases taken
            exact inv.of_clearReady pc
          · simp at taken
      | _ => simp [ioStep, pc] at taken

/-- The invariant holds after every sequence of operations, kernel results and epoll events. -/
theorem ioInv_reachable {eventfd : Int} {s : IoWorkerState}
    (reachable : (ioMachine eventfd).Reachable s) : IoInv s :=
  reachable.invariant (fun _ initial => initial ▸ IoInv.of_initial eventfd)
    (fun _ _ _ _ inv taken => inv.of_step taken)

end CilkL
