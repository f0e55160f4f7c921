/-
Module: CilkL.Proofs.IoQueue
Layer: Proofs
Purpose: The ring of `Runtime.IoQueue` is a lossless FIFO under every interleaving of its producer and
  its consumer. The invariant counts tail stores and head stores without wrap-around and reads the two
  indices as those counts modulo the ring size; with one slot sacrificed the counts differ by at most
  4095, so distinct queued positions never share a slot. The eventfd counter lags the ring by the push
  and the pop in flight.
Imports: CilkL.Runtime.IoQueue
Trusted boundary: none (fully proved)
Main exports: QueueInv, QueueInv.of_step, queueInv_reachable, ioQueue_fifo
Open obligations: none
-/
import CilkL.Runtime.IoQueue

namespace CilkL

/-- The operation a push in flight has not published yet. -/
def ProducerPc.pending : ProducerPc → List IoOp
  | .test op _ | .write op _ | .store op _ => [op]
  | .idle | .notify => []

/-- 1 while a published operation still waits for its eventfd write. -/
def ProducerPc.owesEvent : ProducerPc → Nat
  | .notify => 1
  | _ => 0

/-- 1 once the pop in flight has copied its operation out of the ring. -/
def ConsumerPc.taken : ConsumerPc → Nat
  | .store _ | .drain _ => 1
  | .idle | .read => 0

/-- 1 once the pop in flight has advanced `head`. -/
def ConsumerPc.freed : ConsumerPc → Nat
  | .drain _ => 1
  | _ => 0

/-- How many operations have been copied out of their slots. -/
def QueueState.slotsRead (s : QueueState) : Nat := s.popped.length + s.consumer.taken

/-- How many times `head` has been stored. -/
def QueueState.headStores (s : QueueState) : Nat := s.popped.length + s.consumer.freed

/-- What the local variables of `io_queue_push` satisfy at each of its steps. -/
def ProducerLocals (s : QueueState) : Prop :=
  match s.producer with
  | .test _ t => t = (s.published.length + 1) % ioQSize
  | .write _ t =>
      t = (s.published.length + 1) % ioQSize ∧ s.published.length < s.headStores + 4095
  | .store op t =>
      t = (s.published.length + 1) % ioQSize ∧ s.published.length < s.headStores + 4095 ∧
        s.queue.q s.queue.tail = op
  | .idle | .notify => True

/-- What the local variables of `io_queue_pop` satisfy at each of its steps. -/
def ConsumerLocals (s : QueueState) : Prop :=
  match s.consumer with
  | .read => s.popped.length < s.published.length
  | .store ret | .drain ret => s.published[s.popped.length]? = some ret
  | .idle => True

/-- The ring invariant. -/
structure QueueInv (s : QueueState) : Prop where
  head_eq : s.queue.head = s.headStores % ioQSize
  tail_eq : s.queue.tail = s.published.length % ioQSize
  headStores_le : s.headStores ≤ s.published.length
  published_le : s.published.length ≤ s.headStores + 4095
  pushed_eq : s.pushed = s.published ++ s.producer.pending
  popped_initial : s.popped <+: s.published
  slots : ∀ i, s.headStores ≤ i → i < s.published.length →
    s.published[i]? = some (s.queue.q (i % ioQSize))
  producerLocals : ProducerLocals s
  consumerLocals : ConsumerLocals s
  counter_eq : s.queue.eventfd + s.eventReads = s.eventWrites
  reads_eq : s.eventReads = s.popped.length
  writes_eq : s.eventWrites + s.producer.owesEvent = s.published.length

/-- Two positions less than a ring size apart use different slots. -/
theorem slot_ne_of_lt {i j : Nat} (lower : i < j) (upper : j < i + ioQSize) :
    i % ioQSize ≠ j % ioQSize := by
  simp only [ioQSize] at *
  omega

theorem QueueInv.of_initial : QueueInv .initial := by
  constructor <;>
    simp [QueueState.initial, newIoQueue, QueueState.headStores, ConsumerPc.freed, ioQSize,
      ProducerPc.pending, ProducerPc.owesEvent, ProducerLocals, ConsumerLocals]

/-- The next operation of the prefix extends it by one. -/
theorem prefix_append_getElem? {α : Type} {xs ys : List α} {x : α} (isPrefix : xs <+: ys)
    (next : ys[xs.length]? = some x) : xs ++ [x] <+: ys := by
  obtain ⟨rest, rfl⟩ := isPrefix
  cases rest with
  | nil => simp at next
  | cons y rest =>
      have same : y = x := by simpa using next
      exact ⟨rest, by simp [same]⟩

/-! ### The producer's steps -/

theorem QueueInv.of_pushCall {s s' : QueueState} {op : IoOp} (inv : QueueInv s)
    (taken : queueStep s (.pushCall op) = some s') : QueueInv s' := by
  cases pc : s.producer <;> simp [queueStep, pc] at taken
  subst taken
  have pushedEq := inv.pushed_eq
  have writesEq := inv.writes_eq
  rw [pc] at pushedEq writesEq
  refine { inv with pushed_eq := ?_, producerLocals := ?_, writes_eq := ?_ }
  · simpa [ProducerPc.pending] using pushedEq
  · show (s.queue.tail + 1) % ioQSize = (s.published.length + 1) % ioQSize
    rw [inv.tail_eq, Nat.mod_add_mod]
  · simpa [ProducerPc.owesEvent] using writesEq

theorem QueueInv.of_pushTest {s s' : QueueState} (inv : QueueInv s)
    (taken : queueStep s .pushTest = some s') : QueueInv s' := by
  cases pc : s.producer <;> simp [queueStep, pc] at taken
  rename_i op t
  split at taken
  · exact Option.some.inj taken ▸ inv
  · rename_i notFull
    cases taken
    have pushedEq := inv.pushed_eq
    have writesEq := inv.writes_eq
    have tailNext : t = (s.published.length + 1) % ioQSize := by
      simpa [ProducerLocals, pc] using inv.producerLocals
    -- The ring is not full: the slot after `tail` is not the one at `head`.
    have room : s.published.length < s.headStores + 4095 := by
      have headEq := inv.head_eq
      have lower := inv.headStores_le
      have upper := inv.published_le
      simp only [ioQSize] at headEq tailNext
      omega
    rw [pc] at pushedEq writesEq
    exact { inv with
      pushed_eq := pushedEq, producerLocals := ⟨tailNext, room⟩, writes_eq := writesEq }

theorem QueueInv.of_pushWrite {s s' : QueueState} (inv : QueueInv s)
    (taken : queueStep s .pushWrite = some s') : QueueInv s' := by
  cases pc : s.producer <;> simp [queueStep, pc] at taken
  rename_i op t
  subst taken
  have pushedEq := inv.pushed_eq
  have writesEq := inv.writes_eq
  obtain ⟨tailNext, room⟩ : t = (s.published.length + 1) % ioQSize ∧
      s.published.length < s.headStores + 4095 := by
    simpa [ProducerLocals, pc] using inv.producerLocals
  rw [pc] at pushedEq writesEq
  refine { inv with
    pushed_eq := pushedEq, slots := ?_, producerLocals := ⟨tailNext, room, ?_⟩
    writes_eq := writesEq }
  · intro i lower upper
    have other : i % ioQSize ≠ s.queue.tail := by
      rw [inv.tail_eq]
      refine slot_ne_of_lt upper ?_
      have fromHead : s.headStores ≤ i := lower
      simp only [ioQSize]
      omega
    simpa [other] using inv.slots i lower upper
  · simp

theorem QueueInv.of_pushStore {s s' : QueueState} (inv : QueueInv s)
    (taken : queueStep s .pushStore = some s') : QueueInv s' := by
  cases pc : s.producer <;> simp [queueStep, pc] at taken
  rename_i op t
  subst taken
  have pushedEq := inv.pushed_eq
  have writesEq := inv.writes_eq
  obtain ⟨tailNext, room, written⟩ : t = (s.published.length + 1) % ioQSize ∧
      s.published.length < s.headStores + 4095 ∧ s.queue.q s.queue.tail = op := by
    simpa [ProducerLocals, pc] using inv.producerLocals
  have lengthSucc : (s.published ++ [op]).length = s.published.length + 1 := by simp
  rw [pc] at pushedEq writesEq
  refine
    { head_eq := inv.head_eq, tail_eq := ?_, headStores_le := ?_, published_le := ?_
      pushed_eq := ?_, popped_initial := inv.popped_initial.trans (List.prefix_append _ _)
      slots := ?_, producerLocals := trivial, consumerLocals := ?_
      counter_eq := inv.counter_eq, reads_eq := inv.reads_eq, writes_eq := ?_ }
  · simpa using tailNext
  · exact Nat.le_trans inv.headStores_le (by simp)
  · show (s.published ++ [op]).length ≤ s.headStores + 4095
    omega
  · simpa [ProducerPc.pending] using pushedEq
  · intro i lower upper
    rcases Nat.lt_or_ge i s.published.length with old | new
    · have slot := inv.slots i lower old
      rw [List.getElem?_append_left old]
      exact slot
    · have last : i = s.published.length := by
        have bound : i < (s.published ++ [op]).length := upper
        omega
      subst last
      simp [← inv.tail_eq, written]
  · have locals := inv.consumerLocals
    simp only [ConsumerLocals] at locals ⊢
    cases cpc : s.consumer with
    | idle => trivial
    | read =>
        simp only [cpc] at locals ⊢
        omega
    | store ret =>
        simp only [cpc] at locals ⊢
        exact List.getElem?_append_left (List.getElem?_eq_some_iff.1 locals).1 ▸ locals
    | drain ret =>
        simp only [cpc] at locals ⊢
        exact List.getElem?_append_left (List.getElem?_eq_some_iff.1 locals).1 ▸ locals
  · simpa [ProducerPc.owesEvent] using writesEq

theorem QueueInv.of_pushNotify {s s' : QueueState} (inv : QueueInv s)
    (taken : queueStep s .pushNotify = some s') : QueueInv s' := by
  cases pc : s.producer <;> simp [queueStep, pc] at taken
  obtain ⟨-, rfl⟩ := taken
  have pushedEq := inv.pushed_eq
  have writesEq := inv.writes_eq
  have counterEq := inv.counter_eq
  rw [pc] at pushedEq writesEq
  refine { inv with
    pushed_eq := pushedEq, producerLocals := trivial, counter_eq := ?_, writes_eq := ?_ }
  · show s.queue.eventfd + 1 + s.eventReads = s.eventWrites + 1
    omega
  · simpa [ProducerPc.owesEvent] using writesEq

/-! ### The consumer's steps -/

/-- Steps of the consumer that store neither index leave the producer's view alone. -/
theorem producerLocals_of_consumer {s : QueueState} {pc : ConsumerPc}
    (locals : ProducerLocals s) (same : pc.freed = s.consumer.freed) :
    ProducerLocals { s with consumer := pc } := by
  simpa only [ProducerLocals, QueueState.headStores, same] using locals

theorem QueueInv.of_popTest {s s' : QueueState} (inv : QueueInv s)
    (taken : queueStep s .popTest = some s') : QueueInv s' := by
  cases pc : s.consumer <;> simp [queueStep, pc] at taken
  split at taken
  · exact Option.some.inj taken ▸ inv
  · rename_i nonempty
    cases taken
    have freedEq : ConsumerPc.freed .read = s.consumer.freed := by simp [pc, ConsumerPc.freed]
    have storesEq : s.headStores = s.popped.length := by
      simp [QueueState.headStores, pc, ConsumerPc.freed]
    refine
      { inv with
        head_eq := ?_, headStores_le := ?_, published_le := ?_, slots := ?_
        producerLocals := producerLocals_of_consumer inv.producerLocals freedEq
        consumerLocals := ?_ }
    · simpa only [QueueState.headStores, freedEq] using inv.head_eq
    · simpa only [QueueState.headStores, freedEq] using inv.headStores_le
    · simpa only [QueueState.headStores, freedEq] using inv.published_le
    · simpa only [QueueState.headStores, freedEq] using inv.slots
    · show s.popped.length < s.published.length
      have headEq := inv.head_eq
      have tailEq := inv.tail_eq
      have lower := inv.headStores_le
      rcases Nat.lt_or_eq_of_le lower with more | equal
      · omega
      · exact absurd (by rw [headEq, tailEq, equal]) nonempty

theorem QueueInv.of_popRead {s s' : QueueState} (inv : QueueInv s)
    (taken : queueStep s .popRead = some s') : QueueInv s' := by
  cases pc : s.consumer <;> simp [queueStep, pc] at taken
  subst taken
  have freedEq : ∀ ret, ConsumerPc.freed (.store ret) = s.consumer.freed := by
    simp [pc, ConsumerPc.freed]
  have storesEq : s.headStores = s.popped.length := by
    simp [QueueState.headStores, pc, ConsumerPc.freed]
  have more : s.popped.length < s.published.length := by
    simpa [ConsumerLocals, pc] using inv.consumerLocals
  refine
    { inv with
      head_eq := ?_, headStores_le := ?_, published_le := ?_, slots := ?_
      producerLocals := producerLocals_of_consumer inv.producerLocals (freedEq _)
      consumerLocals := ?_ }
  · simpa only [QueueState.headStores, freedEq] using inv.head_eq
  · simpa only [QueueState.headStores, freedEq] using inv.headStores_le
  · simpa only [QueueState.headStores, freedEq] using inv.published_le
  · simpa only [QueueState.headStores, freedEq] using inv.slots
  · show s.published[s.popped.length]? = some (s.queue.q s.queue.head)
    rw [inv.head_eq, storesEq]
    exact inv.slots _ (Nat.le_of_eq storesEq) more

theorem QueueInv.of_popStore {s s' : QueueState} (inv : QueueInv s)
    (taken : queueStep s .popStore = some s') : QueueInv s' := by
  cases pc : s.consumer <;> simp [queueStep, pc] at taken
  rename_i ret
  subst taken
  have storesEq : s.headStores = s.popped.length := by
    simp [QueueState.headStores, pc, ConsumerPc.freed]
  have next : s.published[s.popped.length]? = some ret := by
    simpa [ConsumerLocals, pc] using inv.consumerLocals
  have more : s.popped.length < s.published.length := (List.getElem?_eq_some_iff.1 next).1
  have upper := inv.published_le
  refine
    { inv with
      head_eq := ?_, headStores_le := more, published_le := ?_, slots := ?_
      producerLocals := ?_, consumerLocals := next }
  · show (s.queue.head + 1) % ioQSize = (s.popped.length + 1) % ioQSize
    rw [inv.head_eq, storesEq, Nat.mod_add_mod]
  · show s.published.length ≤ s.popped.length + 1 + 4095
    omega
  · intro i lower
    exact inv.slots i (by rw [storesEq]; exact Nat.le_of_succ_le lower)
  · have locals := inv.producerLocals
    simp only [ProducerLocals, QueueState.headStores, pc, ConsumerPc.freed] at locals ⊢
    cases ppc : s.producer <;> simp only [ppc] at locals ⊢ <;> grind

theorem QueueInv.of_popDrain {s s' : QueueState} (inv : QueueInv s)
    (taken : queueStep s .popDrain = some s') : QueueInv s' := by
  cases pc : s.consumer <;> simp [queueStep, pc] at taken
  rename_i ret
  obtain ⟨nonzero, rfl⟩ := taken
  have next : s.published[s.popped.length]? = some ret := by
    simpa [ConsumerLocals, pc] using inv.consumerLocals
  have counterEq := inv.counter_eq
  have readsEq := inv.reads_eq
  -- The pop in flight becomes a completed one: `headStores` keeps its value.
  have storesEq :
      QueueState.headStores { s with consumer := .idle, popped := s.popped ++ [ret] } =
        s.headStores := by
    simp [QueueState.headStores, pc, ConsumerPc.freed]
  refine
    { inv with
      head_eq := ?_, headStores_le := ?_, published_le := ?_
      popped_initial := prefix_append_getElem? inv.popped_initial next, slots := ?_
      producerLocals := ?_, consumerLocals := trivial, counter_eq := ?_, reads_eq := ?_ }
  · exact inv.head_eq.trans (by rw [← storesEq]; rfl)
  · exact Nat.le_trans (Nat.le_of_eq storesEq) inv.headStores_le
  · exact Nat.le_trans inv.published_le (Nat.le_of_eq (by rw [← storesEq]; rfl))
  · intro i lower
    exact inv.slots i (Nat.le_trans (Nat.le_of_eq storesEq.symm) lower)
  · have locals := inv.producerLocals
    simp only [ProducerLocals, QueueState.headStores, pc, ConsumerPc.freed] at locals ⊢
    simpa using locals
  · show s.queue.eventfd - 1 + (s.eventReads + 1) = s.eventWrites
    omega
  · simp [readsEq]

/-- Every step keeps the ring invariant. -/
theorem QueueInv.of_step {s s' : QueueState} {label : QueueLabel} (inv : QueueInv s)
    (taken : queueStep s label = some s') : QueueInv s' := by
  cases label with
  | pushCall op => exact inv.of_pushCall taken
  | pushTest => exact inv.of_pushTest taken
  | pushWrite => exact inv.of_pushWrite taken
  | pushStore => exact inv.of_pushStore taken
  | pushNotify => exact inv.of_pushNotify taken
  | popTest => exact inv.of_popTest taken
  | popRead => exact inv.of_popRead taken
  | popStore => exact inv.of_popStore taken
  | popDrain => exact inv.of_popDrain taken

/-- The ring invariant holds after every interleaving. -/
theorem queueInv_reachable {s : QueueState} (reachable : queueMachine.Reachable s) : QueueInv s :=
  reachable.invariant (fun _ initial => initial ▸ QueueInv.of_initial)
    (fun _ _ _ _ inv taken => inv.of_step taken)

/-! ### The queue as its callers see it -/

/-- A slot whose operation the consumer has not copied out yet keeps its contents when the producer
    writes. -/
theorem QueueInv.slot_kept {s s' : QueueState} (inv : QueueInv s)
    (written : queueStep s .pushWrite = some s') {i : Nat} (unread : s.slotsRead ≤ i)
    (queued : i < s.published.length) :
    s'.queue.q (i % ioQSize) = s.queue.q (i % ioQSize) := by
  have inv' := inv.of_pushWrite written
  have published : s'.published = s.published ∧ s'.headStores = s.headStores := by
    cases pc : s.producer <;> simp [queueStep, pc] at written
    subst written
    exact ⟨rfl, rfl⟩
  have fromHead : s.headStores ≤ i := by
    refine Nat.le_trans ?_ unread
    cases pc : s.consumer <;>
      simp [QueueState.headStores, QueueState.slotsRead, pc, ConsumerPc.freed, ConsumerPc.taken]
  have before := inv.slots i fromHead queued
  have after := inv'.slots i (by rw [published.2]; exact fromHead)
    (by rw [published.1]; exact queued)
  rw [published.1, before] at after
  exact (Option.some.inj after).symm

/-- A pop that returns `inv_op` found every published operation popped. -/
theorem QueueInv.popped_of_invalid {s s' : QueueState} (inv : QueueInv s)
    (tested : queueStep s .popTest = some s') (invalid : s'.consumer = .idle) :
    s.popped = s.published := by
  cases pc : s.consumer <;> simp [queueStep, pc] at tested
  have storesEq : s.headStores = s.popped.length := by
    simp [QueueState.headStores, pc, ConsumerPc.freed]
  split at tested
  · rename_i empty
    have headEq := inv.head_eq
    have tailEq := inv.tail_eq
    have lower := inv.headStores_le
    have upper := inv.published_le
    simp only [ioQSize] at headEq tailEq
    exact inv.popped_initial.eq_of_length (by omega)
  · cases tested
    simp at invalid

/-- A blocked eventfd read waits for the write of a push that has already stored `tail`. -/
theorem QueueInv.notify_of_blocked {s : QueueState} {ret : IoOp} (inv : QueueInv s)
    (reading : s.consumer = .drain ret) (empty : s.queue.eventfd = 0) : s.producer = .notify := by
  have counterEq := inv.counter_eq
  have readsEq := inv.reads_eq
  have writesEq := inv.writes_eq
  have next : s.published[s.popped.length]? = some ret := by
    simpa [ConsumerLocals, reading] using inv.consumerLocals
  have more : s.popped.length < s.published.length := (List.getElem?_eq_some_iff.1 next).1
  cases pc : s.producer <;> simp only [pc, ProducerPc.owesEvent] at writesEq <;> first | rfl | omega

/-- `io_queue` is a lossless FIFO. In every reachable state the operations returned by pop are a prefix
    of the operations pushed; a slot that still holds an unread operation is not overwritten; at most
    4095 operations are queued; pop returns the invalid operation only when every published operation has
    been popped; and the eventfd counter balances its writes and reads, so that a consumer blocked on it
    waits for a producer that is about to write. -/
theorem ioQueue_fifo {s : QueueState} (reachable : queueMachine.Reachable s) :
    s.popped <+: s.pushed ∧
      (∀ s', queueStep s .pushWrite = some s' →
        ∀ i, s.slotsRead ≤ i → i < s.published.length →
          s'.queue.q (i % ioQSize) = s.queue.q (i % ioQSize)) ∧
      s.headStores ≤ s.published.length ∧ s.published.length - s.headStores ≤ 4095 ∧
      (∀ s', queueStep s .popTest = some s' → s'.consumer = .idle → s.popped = s.published) ∧
      s.queue.eventfd + s.eventReads = s.eventWrites ∧
      (∀ ret, s.consumer = .drain ret → s.queue.eventfd = 0 → s.producer = .notify) := by
  have inv := queueInv_reachable reachable
  refine ⟨?_, ?_, inv.headStores_le, ?_, ?_, inv.counter_eq, ?_⟩
  · rw [inv.pushed_eq]
    exact inv.popped_initial.trans (List.prefix_append _ _)
  · intro s' written i unread queued
    exact inv.slot_kept written unread queued
  · have upper := inv.published_le
    omega
  · intro s' tested invalid
    exact inv.popped_of_invalid tested invalid
  · intro ret reading empty
    exact inv.notify_of_blocked reading empty

/-- A write request of eight bytes, for the runs below. -/
def sampleOp : IoOp :=
  { type := iotypeWrite, fildes := 5, buf := 64, nbyte := 8, res := 0, fut := 1 }

/-- One push and one pop, the pop's head store overtaking the push's eventfd write. -/
def pushPopTrace : List QueueLabel :=
  [.pushCall sampleOp, .pushTest, .pushWrite, .pushStore, .popTest, .popRead, .popStore,
    .pushNotify, .popDrain]

theorem ioQueue_fifo_push_pop :
    (queueMachine.after .initial pushPopTrace).popped = [sampleOp] ∧
      (queueMachine.after .initial pushPopTrace).popped <+:
        (queueMachine.after .initial pushPopTrace).pushed :=
  ⟨by decide, (ioQueue_fifo (.after (.start rfl) pushPopTrace)).1⟩

end CilkL
