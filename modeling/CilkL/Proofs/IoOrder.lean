/-
Module: CilkL.Proofs.IoOrder
Layer: Proofs
Purpose: What the invariant of the I/O worker's loop says to the strands that submit operations: every
  operation is in exactly one place, `put` is called at most once for it, and the operations of one fd
  and direction complete in the order of submission.
Imports: CilkL.Proofs.IoScheduler
Trusted boundary: none (fully proved)
Main exports: IoPlace, IoWorkerState.itemsAt, io_operations_conserved
Open obligations: none
-/
import CilkL.Proofs.IoScheduler

namespace CilkL

/-- The operation that is being performed: `curr_op`, or the front operation of the deque
    `handle_event` works on. -/
def IoWorkerState.performing (s : IoWorkerState) : List IoItem :=
  match s.pc with
  | .perform _ item | .block _ item => [item]
  | .handle dir fd _ => (s.blockedOps dir fd).take 1
  | _ => []

/-- The blocked operations of a deque that are not being performed. -/
def IoWorkerState.waiting (s : IoWorkerState) (dir : Direction) (fd : Int) : List IoItem :=
  match s.pc with
  | .handle d f _ =>
      if d = dir ∧ f = fd then (s.blockedOps dir fd).drop 1 else s.blockedOps dir fd
  | _ => s.blockedOps dir fd

/-- Where a submitted operation may be. -/
inductive IoPlace where
  | notPopped
  | performing
  | blocked (dir : Direction) (fd : Int)
  | done
deriving DecidableEq, Repr

/-- The operations in one place. -/
def IoWorkerState.itemsAt (s : IoWorkerState) : IoPlace → List IoItem
  | .notPopped => s.ioQueue
  | .performing => s.performing
  | .blocked dir fd => s.waiting dir fd
  | .done => s.done

/-- The part of a stream that is in one kind of place. -/
theorem IoInv.stream_places {s : IoWorkerState} (inv : IoInv s) (dir : Direction) (fd : Int) :
    ticketsOn dir fd s.submitted =
      ticketsOn dir fd s.done ++ ticketsOn dir fd s.performing ++
        (s.waiting dir fd).map IoItem.ticket ++ ticketsOn dir fd s.ioQueue := by
  have stream := inv.stream_eq dir fd
  have locals := inv.locals
  cases pc : s.pc with
  | perform d item | block d item =>
      simp only [IoLocals, pc] at locals
      obtain ⟨direction, alone⟩ := locals
      simp only [IoWorkerState.hand, IoWorkerState.performing, IoWorkerState.waiting, pc] at stream ⊢
      by_cases on : item.op.OnStream dir fd
      · -- The operation in hand is performed only while its deque is empty.
        obtain ⟨rfl, rfl⟩ := onStream_unique on ⟨direction, rfl⟩
        simpa [alone] using stream
      · simpa [ticketsOn_singleton_off on] using stream
  | handle d f events =>
      simp only [IoLocals, pc] at locals
      obtain ⟨item, items, front⟩ := List.exists_cons_of_ne_nil locals
      have onStream := inv.blocked_onStream d f item (by simp [front])
      simp only [IoWorkerState.hand, IoWorkerState.performing, IoWorkerState.waiting, pc] at stream ⊢
      by_cases here : d = dir ∧ f = fd
      · obtain ⟨rfl, rfl⟩ := here
        simpa [front, ticketsOn_singleton onStream] using stream
      · have off : ¬ item.op.OnStream dir fd := fun on => here (onStream_unique onStream on)
        simpa [front, here, ticketsOn_singleton_off off] using stream
  | _ => simpa [IoWorkerState.hand, IoWorkerState.performing, IoWorkerState.waiting, pc] using stream

/-! ### Tickets name operations -/

theorem mem_ticketsOn {dir : Direction} {fd : Int} {items : List IoItem} {n : Nat} :
    n ∈ ticketsOn dir fd items ↔ ∃ item ∈ items, item.op.OnStream dir fd ∧ item.ticket = n := by
  simp [ticketsOn, and_assoc]

theorem IoInv.submitted_nodup {s : IoWorkerState} (inv : IoInv s) :
    (s.submitted.map IoItem.ticket).Nodup := by
  rw [inv.tickets_eq]
  exact List.nodup_range

/-- No ticket occurs twice in a stream. -/
theorem IoInv.stream_nodup {s : IoWorkerState} (inv : IoInv s) (dir : Direction) (fd : Int) :
    (ticketsOn dir fd s.submitted).Nodup :=
  inv.submitted_nodup.sublist (List.filter_sublist.map _)

/-- A ticket is in one stream only. -/
theorem IoInv.stream_unique {s : IoWorkerState} (inv : IoInv s) {dir dir' : Direction} {fd fd' : Int}
    {n : Nat} (one : n ∈ ticketsOn dir fd s.submitted) (two : n ∈ ticketsOn dir' fd' s.submitted) :
    dir = dir' ∧ fd = fd' := by
  obtain ⟨item, mem, on, rfl⟩ := mem_ticketsOn.1 one
  obtain ⟨item', mem', on', same⟩ := mem_ticketsOn.1 two
  obtain rfl : item = item' := List.inj_on_of_nodup_map inv.submitted_nodup mem mem' same.symm
  exact onStream_unique on on'

/-- A blocked operation is in the deque of its own fd and direction. -/
theorem IoInv.waiting_onStream {s : IoWorkerState} (inv : IoInv s) {dir : Direction} {fd : Int}
    {item : IoItem} (mem : item ∈ s.waiting dir fd) : item.op.OnStream dir fd := by
  apply inv.blocked_onStream dir fd item
  simp only [IoWorkerState.waiting] at mem
  split at mem
  · split at mem
    · exact List.mem_of_mem_drop mem
    · exact mem
  · exact mem

/-- The operation being performed is a read or a write. -/
theorem IoInv.performing_directed {s : IoWorkerState} (inv : IoInv s) {item : IoItem}
    (mem : item ∈ s.performing) : item.op.direction ≠ none := by
  have locals := inv.locals
  simp only [IoWorkerState.performing] at mem
  cases pc : s.pc with
  | perform d first | block d first =>
      simp only [pc, List.mem_singleton] at mem
      simp only [IoLocals, pc] at locals
      simp [mem, locals.1]
  | handle d f events =>
      simp only [pc] at mem
      simp [(inv.blocked_onStream d f item (List.mem_of_mem_take mem)).1]
  | _ => simp [pc] at mem

/-- The stream of an operation, read off the place it is in. -/
theorem IoInv.place_cases {s : IoWorkerState} (inv : IoInv s) {place : IoPlace} {item : IoItem}
    (mem : item ∈ s.itemsAt place) :
    ∃ dir fd, item.op.OnStream dir fd ∧
      (place = .done ∧ item.ticket ∈ ticketsOn dir fd s.done ∨
        place = .performing ∧ item.ticket ∈ ticketsOn dir fd s.performing ∨
        place = .blocked dir fd ∧ item.ticket ∈ (s.waiting dir fd).map IoItem.ticket ∨
        place = .notPopped ∧ item.ticket ∈ ticketsOn dir fd s.ioQueue) := by
  have onStream : item.op.direction ≠ none → ∃ dir fd, item.op.OnStream dir fd := by
    intro directed
    obtain ⟨dir, direction⟩ := Option.ne_none_iff_exists'.1 directed
    exact ⟨dir, item.op.fildes, direction, rfl⟩
  cases place with
  | done =>
      obtain ⟨dir, fd, on⟩ := onStream (inv.done_directed item mem)
      exact ⟨dir, fd, on, .inl ⟨rfl, mem_ticketsOn.2 ⟨item, mem, on, rfl⟩⟩⟩
  | performing =>
      obtain ⟨dir, fd, on⟩ := onStream (inv.performing_directed mem)
      exact ⟨dir, fd, on, .inr (.inl ⟨rfl, mem_ticketsOn.2 ⟨item, mem, on, rfl⟩⟩)⟩
  | blocked dir fd =>
      exact ⟨dir, fd, inv.waiting_onStream mem, .inr (.inr (.inl ⟨rfl, List.mem_map_of_mem mem⟩))⟩
  | notPopped =>
      obtain ⟨dir, fd, on⟩ := onStream (inv.queue_directed item mem)
      exact ⟨dir, fd, on, .inr (.inr (.inr ⟨rfl, mem_ticketsOn.2 ⟨item, mem, on, rfl⟩⟩))⟩

/-- What is in a place was submitted, to the stream the operation still belongs to. -/
theorem IoInv.submitted_of_itemsAt {s : IoWorkerState} (inv : IoInv s) {place : IoPlace}
    {item : IoItem} (mem : item ∈ s.itemsAt place) :
    ∃ dir fd, item.op.OnStream dir fd ∧ item.ticket ∈ ticketsOn dir fd s.submitted := by
  obtain ⟨dir, fd, on, cases⟩ := inv.place_cases mem
  refine ⟨dir, fd, on, ?_⟩
  rw [inv.stream_places dir fd]
  simp only [List.mem_append]
  tauto

/-- Two operations with one ticket are in one stream. -/
theorem IoInv.onStream_of_same_ticket {s : IoWorkerState} (inv : IoInv s) {place place' : IoPlace}
    {item item' : IoItem} (mem : item ∈ s.itemsAt place) (mem' : item' ∈ s.itemsAt place')
    (same : item.ticket = item'.ticket) {dir : Direction} {fd : Int}
    (on : item.op.OnStream dir fd) : item'.op.OnStream dir fd := by
  obtain ⟨d, f, on₁, submitted₁⟩ := inv.submitted_of_itemsAt mem
  obtain ⟨d', f', on₂, submitted₂⟩ := inv.submitted_of_itemsAt mem'
  obtain ⟨rfl, rfl⟩ := onStream_unique on on₁
  obtain ⟨rfl, rfl⟩ := inv.stream_unique submitted₁ (same ▸ submitted₂)
  exact on₂

/-- A list whose equal tickets share a stream has no ticket twice when none of its streams has. -/
theorem nodup_of_streams {items : List IoItem}
    (shared : ∀ item ∈ items, ∃ dir fd, item.op.OnStream dir fd ∧
      ∀ other ∈ items, item.ticket = other.ticket → other.op.OnStream dir fd)
    (each : ∀ dir fd, (ticketsOn dir fd items).Nodup) : (items.map IoItem.ticket).Nodup := by
  induction items with
  | nil => exact List.nodup_nil
  | cons item items ih =>
      rw [List.map_cons, List.nodup_cons]
      constructor
      · intro mem
        obtain ⟨other, later, same⟩ := List.mem_map.1 mem
        obtain ⟨dir, fd, on, sharedOn⟩ := shared item (by simp)
        have otherOn := sharedOn other (by simp [later]) same.symm
        have nodup := each dir fd
        rw [ticketsOn_cons, ticketsOn_singleton on, List.singleton_append, List.nodup_cons] at nodup
        exact nodup.1 (mem_ticketsOn.2 ⟨other, later, otherOn, same⟩)
      · apply ih
        · intro other later
          obtain ⟨dir, fd, on, sharedOn⟩ := shared other (by simp [later])
          exact ⟨dir, fd, on, fun third third' => sharedOn third (by simp [third'])⟩
        · intro dir fd
          have nodup := each dir fd
          rw [ticketsOn_cons] at nodup
          exact nodup.of_append_right

/-- No place holds a ticket twice. -/
theorem IoInv.itemsAt_nodup {s : IoWorkerState} (inv : IoInv s) (place : IoPlace) :
    ((s.itemsAt place).map IoItem.ticket).Nodup := by
  apply nodup_of_streams
  · intro item mem
    obtain ⟨dir, fd, on, -⟩ := inv.submitted_of_itemsAt mem
    exact ⟨dir, fd, on, fun other mem' same => inv.onStream_of_same_ticket mem mem' same on⟩
  · intro dir fd
    have nodup := inv.stream_nodup dir fd
    rw [inv.stream_places dir fd] at nodup
    cases place with
    | done => exact nodup.of_append_left.of_append_left.of_append_left
    | performing => exact nodup.of_append_left.of_append_left.of_append_right
    | blocked d f =>
        by_cases here : d = dir ∧ f = fd
        · obtain ⟨rfl, rfl⟩ := here
          exact nodup.of_append_left.of_append_right.sublist (List.filter_sublist.map _)
        · have none : ticketsOn dir fd (s.waiting d f) = [] := by
            rw [List.eq_nil_iff_forall_not_mem]
            intro n mem
            obtain ⟨item, waiting, on, -⟩ := mem_ticketsOn.1 mem
            exact here (onStream_unique (inv.waiting_onStream waiting) on)
          simp [IoWorkerState.itemsAt, none]
    | notPopped => exact nodup.of_append_right

/-- An operation is in one place only. -/
theorem IoInv.place_unique {s : IoWorkerState} (inv : IoInv s) {place place' : IoPlace}
    {item item' : IoItem} (mem : item ∈ s.itemsAt place) (mem' : item' ∈ s.itemsAt place')
    (same : item.ticket = item'.ticket) : place = place' := by
  obtain ⟨dir, fd, on, first⟩ := inv.place_cases mem
  obtain ⟨dir', fd', on', second⟩ := inv.place_cases mem'
  obtain ⟨rfl, rfl⟩ := onStream_unique (inv.onStream_of_same_ticket mem mem' same on) on'
  have nodup := inv.stream_nodup dir fd
  rw [inv.stream_places dir fd] at nodup
  simp only [List.nodup_append'] at nodup
  obtain ⟨⟨⟨-, -, doneHand⟩, -, frontWaiting⟩, -, beforeQueue⟩ := nodup
  simp only [List.disjoint_left, List.mem_append] at doneHand frontWaiting beforeQueue
  rw [← same] at second
  rcases first with ⟨rfl, at₁⟩ | ⟨rfl, at₁⟩ | ⟨rfl, at₁⟩ | ⟨rfl, at₁⟩ <;>
    rcases second with ⟨rfl, at₂⟩ | ⟨rfl, at₂⟩ | ⟨rfl, at₂⟩ | ⟨rfl, at₂⟩ <;>
    grind

/-- A submitted operation is in some place. -/
theorem IoInv.placed_of_submitted {s : IoWorkerState} (inv : IoInv s) {n : Nat}
    (submitted : n < s.submitted.length) :
    ∃ place, n ∈ (s.itemsAt place).map IoItem.ticket := by
  have mem : n ∈ s.submitted.map IoItem.ticket := by
    rw [inv.tickets_eq]
    exact List.mem_range.2 submitted
  obtain ⟨item, itemMem, rfl⟩ := List.mem_map.1 mem
  obtain ⟨dir, direction⟩ := Option.ne_none_iff_exists'.1 (inv.directed item itemMem)
  have onStream : item.op.OnStream dir item.op.fildes := ⟨direction, rfl⟩
  have stream := mem_ticketsOn.2 ⟨item, itemMem, onStream, rfl⟩
  have sub : ∀ items : List IoItem, item.ticket ∈ ticketsOn dir item.op.fildes items →
      item.ticket ∈ items.map IoItem.ticket := by
    intro items found
    obtain ⟨other, otherMem, -, same⟩ := mem_ticketsOn.1 found
    exact same ▸ List.mem_map_of_mem otherMem
  rw [inv.stream_places] at stream
  simp only [List.mem_append] at stream
  rcases stream with ((isDone | isPerformed) | isWaiting) | isQueued
  · exact ⟨.done, sub _ isDone⟩
  · exact ⟨.performing, sub _ isPerformed⟩
  · exact ⟨.blocked dir item.op.fildes, isWaiting⟩
  · exact ⟨.notPopped, sub _ isQueued⟩

/-! ### Order within a stream -/

/-- A stream lists its tickets in the order of submission. -/
theorem IoInv.stream_sorted {s : IoWorkerState} (inv : IoInv s) (dir : Direction) (fd : Int) :
    (ticketsOn dir fd s.submitted).Pairwise (· < ·) := by
  have sorted : (s.submitted.map IoItem.ticket).Pairwise (· < ·) := by
    rw [inv.tickets_eq]
    exact List.pairwise_lt_range
  exact sorted.sublist (List.filter_sublist.map _)

/-- At most one operation is being performed. -/
theorem performing_length_le (s : IoWorkerState) : s.performing.length ≤ 1 := by
  cases pc : s.pc <;> simp [IoWorkerState.performing, pc]

/-- While an operation is being performed, the earlier ones of its stream are done. -/
theorem IoInv.done_of_earlier {s : IoWorkerState} (inv : IoInv s) {item : IoItem}
    (performed : item ∈ s.performing) {dir : Direction} {fd : Int} (on : item.op.OnStream dir fd)
    {n : Nat} (submitted : n ∈ ticketsOn dir fd s.submitted) (earlier : n < item.ticket) :
    n ∈ s.done.map IoItem.ticket := by
  have sorted := inv.stream_sorted dir fd
  rw [inv.stream_places dir fd] at submitted sorted
  have inHand : item.ticket ∈ ticketsOn dir fd s.performing :=
    mem_ticketsOn.2 ⟨item, performed, on, rfl⟩
  simp only [List.pairwise_append, List.mem_append] at sorted
  obtain ⟨⟨-, -, beforeWaiting⟩, -, beforeQueue⟩ := sorted
  simp only [List.mem_append] at submitted
  rcases submitted with ((isDone | isPerformed) | isWaiting) | isQueued
  · obtain ⟨other, mem, -, rfl⟩ := mem_ticketsOn.1 isDone
    exact List.mem_map_of_mem mem
  · -- The operation being performed is the only one in hand.
    obtain ⟨other, mem, -, rfl⟩ := mem_ticketsOn.1 isPerformed
    obtain ⟨only, handEq⟩ : ∃ only, s.performing = [only] :=
      List.length_eq_one_iff.1 (Nat.le_antisymm (performing_length_le s) (List.length_pos_of_mem mem))
    rw [handEq, List.mem_singleton] at mem performed
    exact absurd earlier (by simp [mem, performed])
  · have later := beforeWaiting item.ticket (.inr inHand) n isWaiting
    omega
  · have later := beforeQueue item.ticket (.inl (.inr inHand)) n isQueued
    omega

/-- I/O operations are neither lost, duplicated nor reordered. In every reachable state each submitted
    operation is in exactly one place, and once there: not popped, being performed, in the blocked deque
    of its own fd and direction, or done, which is to say that its `put` was called. The blocked set of
    a direction holds the fds whose deque is non-empty and is disjoint from the ready set; for each fd
    and direction the operations that are done are an initial part of those submitted; and an operation
    is performed only when every earlier one of its fd and direction is done. -/
theorem io_operations_conserved {eventfd : Int} {s : IoWorkerState}
    (reachable : (ioMachine eventfd).Reachable s) :
    (∀ n < s.submitted.length, ∃! place, n ∈ (s.itemsAt place).map IoItem.ticket) ∧
      (∀ place, ((s.itemsAt place).map IoItem.ticket).Nodup) ∧
      (∀ dir fd, ∀ item ∈ s.itemsAt (.blocked dir fd),
        item.ticket ∈ ticketsOn dir fd s.submitted) ∧
      (∀ dir fd, fd ∈ s.blockedFds dir ↔ s.blockedOps dir fd ≠ []) ∧
      (∀ dir, Disjoint (s.blockedFds dir) (s.readyFds dir)) ∧
      (∀ dir fd, ticketsOn dir fd s.done <+: ticketsOn dir fd s.submitted) ∧
      (∀ item ∈ s.performing, ∀ dir fd, item.op.OnStream dir fd →
        ∀ n ∈ ticketsOn dir fd s.submitted, n < item.ticket → n ∈ s.done.map IoItem.ticket) := by
  have inv := ioInv_reachable reachable
  refine ⟨?_, inv.itemsAt_nodup, ?_, inv.blocked_iff, inv.disjoint, ?_, ?_⟩
  · intro n submitted
    obtain ⟨place, mem⟩ := inv.placed_of_submitted submitted
    refine ⟨place, mem, ?_⟩
    intro place' mem'
    obtain ⟨item, itemMem, rfl⟩ := List.mem_map.1 mem
    obtain ⟨item', itemMem', same⟩ := List.mem_map.1 mem'
    exact inv.place_unique itemMem' itemMem same
  · intro dir fd item mem
    obtain ⟨d, f, on, submitted⟩ := inv.submitted_of_itemsAt mem
    obtain ⟨rfl, rfl⟩ := onStream_unique on (inv.waiting_onStream mem)
    exact submitted
  · intro dir fd
    rw [inv.stream_places dir fd, List.append_assoc, List.append_assoc]
    exact List.prefix_append _ _
  · intro item performed dir fd on n submitted earlier
    exact inv.done_of_earlier performed on submitted earlier

/-- Two reads of fd 7: the first would block, the second is filed behind it, and an event completes
    both. -/
def retryTrace : List IoLabel :=
  [.submit .read 7 64 8 1, .submit .read 7 128 8 2, .wait [⟨3, true, false⟩], .dispatch, .dispatch,
    .check, .pop, .syscall (.fail eagain), .add, .pop, .pop, .clear, .clear,
    .wait [⟨7, true, false⟩], .dispatch, .syscall (.count 8), .syscall (.count 4)]

theorem io_operations_conserved_retry :
    ticketsOn .read 7 ((ioMachine 3).after (.initial 3) retryTrace).done = [0, 1] ∧
      ∃! place, 0 ∈ (((ioMachine 3).after (.initial 3) retryTrace).itemsAt place).map
        IoItem.ticket :=
  ⟨by decide, (io_operations_conserved (.after (.start rfl) retryTrace)).1 0 (by decide)⟩

end CilkL
