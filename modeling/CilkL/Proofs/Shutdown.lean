/-
Module: CilkL.Proofs.Shutdown
Layer: Proofs
Purpose: No shutdown of the runtime is safe. The block of the workers is freed through the address of worker
  1, which is not where it starts, so no sequence completes; before that, a runtime of several workers that
  was started stops at the signal node that worker 0 does not have, one built without profiling at the
  statistics that every worker has, and one with I/O threads at the first of them, which nobody joins.
Imports: CilkL.Runtime.Shutdown
Trusted boundary: none
Main exports: IdleAfterInit, ShutdownSafe, stopWorkers_fails, destroyWorker_fails_without_profile,
  destroyWorker_fails_for_io, shutdown_never_safe
Open obligations: none
-/
import CilkL.Runtime.Shutdown

namespace CilkL

variable {P : Nat} {io_mode : RuntimeIoMode} {profile : Bool} {s s' : ShutdownState}

/-- The state when no user thread is in Cilk. Between initialisation and shutdown nothing moves a worker or
its statistics or gives it another signal node, and the threads are those that were started, if any; what
else the runtime writes while it runs is whatever it is. -/
structure IdleAfterInit (P : Nat) (io_mode : RuntimeIoMode) (s : ShutdownState) : Prop where
  workers_number : s.P = P
  mode : s.io_mode = io_mode
  left : s.Q = 0
  memory : ∀ i, (s.workers i).memory = ((initWorkers P io_mode).workers i).memory
  stats : ∀ i, (s.workers i).stats = ((initWorkers P io_mode).workers i).stats
  signal_node : ∀ i, (s.workers i).signal_node = ((initWorkers P io_mode).workers i).signal_node
  threads : s.workers_running = true → s.threads = startedThreads P io_mode

/-- The shutdown completes without a fault, and each block that the initialisation obtained is freed
once. -/
def ShutdownSafe (P : Nat) (io_mode : RuntimeIoMode) (profile : Bool) (s : ShutdownState) : Prop :=
  ∃ s', shutdown profile s = .ok s' ∧
    ∀ block < (initWorkers P io_mode).heap.next, s'.heap.freed.count block = 1

/-- A sequence that completes went through its first part. -/
theorem except_bind_eq_ok {ε α β : Type} {x : Except ε α} {f : α → Except ε β} {b : β}
    (completes : (x >>= f) = .ok b) : ∃ a, x = .ok a ∧ f a = .ok b := by
  cases x with
  | error fault => cases completes
  | ok a => exact ⟨a, rfl, completes⟩

namespace ShutdownState

/-- Every worker has the value it had in a field. -/
def Same {β : Type} (field : ShutdownWorker → β) (s s' : ShutdownState) : Prop :=
  ∀ i, field (s'.workers i) = field (s.workers i)

/-- The workers are where they were. -/
def SamePlaces (s s' : ShutdownState) : Prop := s.Same ShutdownWorker.memory s'

variable {β : Type} {field : ShutdownWorker → β}

/-- Nothing changes by itself. -/
theorem Same.refl (s : ShutdownState) : Same field s s := fun _ => rfl

/-- Two steps that keep a field. -/
theorem Same.trans {s'' : ShutdownState} (first : Same field s s') (second : Same field s' s'') :
    Same field s s'' :=
  fun i => (second i).trans (first i)

/-- Writing other fields of a worker. -/
theorem same_setWorker {i : Nat} {w : ShutdownWorker} (same : field w = field (s.workers i)) :
    Same field s (s.setWorker i w) := by
  intro j
  by_cases here : j = i
  · subst here
    simpa [setWorker] using same
  · simp [setWorker, here]

/-- Freeing a block. -/
theorem same_free {pointer : Pointer} (completes : s.free pointer = .ok s') : Same field s s' := by
  obtain ⟨heap, _, result⟩ := except_bind_eq_ok completes
  obtain rfl := Except.ok.inj result
  exact fun _ => rfl

/-- A loop whose passes keep a field. -/
theorem same_foldl {step : ShutdownState → Nat → ShutdownState} (same : ∀ s i, Same field s (step s i))
    (indexes : List Nat) (s : ShutdownState) : Same field s (indexes.foldl step s) := by
  induction indexes generalizing s with
  | nil => exact Same.refl s
  | cons i indexes ih => exact (same s i).trans (ih (step s i))

end ShutdownState

open ShutdownState

/-- Freeing an empty pool moves nobody. -/
theorem samePlaces_poolFree {i : Nat} {pool : ShutdownPool} (completes : poolFree i pool s = .ok s') :
    s.SamePlaces s' := by
  unfold poolFree at completes
  split at completes
  · exact same_free completes
  · cases completes

/-- Neither does the test for a thread. -/
theorem same_noThread {β : Type} {field : ShutdownWorker → β} {i : Nat}
    (completes : noThread s i = .ok s') : Same field s s' := by
  unfold noThread at completes
  split at completes
  · cases completes
  · obtain rfl := Except.ok.inj completes
    exact Same.refl s

/-- Neither does the part of the scheduling fiber. -/
theorem same_destroySchedulingFiber {β : Type} {field : ShutdownWorker → β} {i : Nat}
    (keeps : ∀ w fiber, field { w with scheduling_fiber := fiber } = field w)
    (completes : destroySchedulingFiber s i = .ok s') : Same field s s' := by
  simp only [destroySchedulingFiber] at completes
  split at completes
  · cases completes
  · split at completes
    · obtain rfl := Except.ok.inj completes
      exact fun _ => rfl
    · split at completes
      · cases completes
      · split at completes
        · cases completes
        · obtain rfl := Except.ok.inj completes
          exact same_setWorker (keeps _ _)

/-- Neither does the part of the statistics. -/
theorem samePlaces_destroyStats {i : Nat} (completes : destroyStats profile s i = .ok s') :
    s.SamePlaces s' := by
  unfold destroyStats at completes
  split at completes
  · obtain rfl := Except.ok.inj completes
    exact fun _ => rfl
  · split at completes
    · exact same_free completes
    · cases completes

/-- Neither does the part of the signal node. -/
theorem samePlaces_destroySignalNode {i : Nat} (completes : destroySignalNode s i = .ok s') :
    s.SamePlaces s' := by
  unfold destroySignalNode at completes
  split at completes
  · obtain rfl := Except.ok.inj completes
    exact fun _ => rfl
  · split at completes
    · exact same_free completes
    · cases completes

/-- Destroying a worker moves nobody. -/
theorem samePlaces_destroyWorker {i : Nat} (completes : destroyWorker profile s i = .ok s') :
    s.SamePlaces s' := by
  unfold destroyWorker at completes
  obtain ⟨_, thread, completes⟩ := except_bind_eq_ok completes
  obtain ⟨_, fiber, completes⟩ := except_bind_eq_ok completes
  obtain ⟨_, stats, completes⟩ := except_bind_eq_ok completes
  obtain ⟨_, node, completes⟩ := except_bind_eq_ok completes
  obtain ⟨_, ltq, completes⟩ := except_bind_eq_ok completes
  obtain ⟨_, suspended, completes⟩ := except_bind_eq_ok completes
  obtain ⟨_, resumable, completes⟩ := except_bind_eq_ok completes
  obtain ⟨_, deque, local_⟩ := except_bind_eq_ok completes
  exact (same_noThread thread).trans <| (same_destroySchedulingFiber (fun _ _ => rfl) fiber).trans <| (samePlaces_destroyStats stats).trans <|
    (samePlaces_destroySignalNode node).trans <| (same_free ltq).trans <|
    (samePlaces_poolFree suspended).trans <| (samePlaces_poolFree resumable).trans <|
    (same_free deque).trans (same_free local_)

/-- Destroying several moves nobody. -/
theorem samePlaces_destroyWorkers {indexes : List Nat}
    (completes : indexes.foldlM (destroyWorker profile) s = .ok s') : s.SamePlaces s' := by
  induction indexes generalizing s with
  | nil =>
    obtain rfl := Except.ok.inj completes
    exact fun _ => rfl
  | cons i indexes ih =>
    rw [List.foldlM_cons] at completes
    obtain ⟨_, first, rest⟩ := except_bind_eq_ok completes
    exact (samePlaces_destroyWorker first).trans (ih rest)

/-- Stopping the workers moves nobody. -/
theorem samePlaces_stopWorkers (completes : stopWorkers s = .ok s') : s.SamePlaces s' := by
  simp only [stopWorkers] at completes
  split at completes
  · obtain rfl := Except.ok.inj completes
    exact fun _ => rfl
  · split at completes
    · cases completes
    · obtain rfl := Except.ok.inj completes
      exact fun _ => rfl

/-- A pointer inside a block cannot be freed. -/
theorem free_inside_block {pointer : Pointer} (inside : pointer.offset ≠ 0) :
    s.free pointer = .error (.badFree pointer) := by
  have refused : s.heap.free pointer = .error (.badFree pointer) := by
    simp [Heap.free, inside]
  rw [ShutdownState.free, refused]
  rfl

/-- A shutdown frees the address of worker 1, so it does not complete when a block starts before it. -/
theorem shutdown_not_ok (inside : (s.workers 1).memory.offset ≠ 0) : shutdown profile s ≠ .ok s' := by
  intro completes
  obtain ⟨stopped, stop, completes⟩ := except_bind_eq_ok completes
  unfold deinitInternal at completes
  obtain ⟨_, threads, completes⟩ := except_bind_eq_ok completes
  obtain ⟨_, sysdep, completes⟩ := except_bind_eq_ok completes
  obtain ⟨last, destroyed, completes⟩ := except_bind_eq_ok completes
  obtain ⟨_, block, _⟩ := except_bind_eq_ok completes
  have places : s.SamePlaces last :=
    (samePlaces_stopWorkers stop).trans <|
      (show SamePlaces _ (destroyLastFullFrame stopped 1) from same_setWorker rfl).trans <|
      (same_free threads).trans <| (same_free sysdep).trans
        (samePlaces_destroyWorkers destroyed)
  rw [free_inside_block (places 1 ▸ inside)] at block
  cases block

/-- A worker after the loop that makes the first `count` of them: its place, its statistics, and no signal
node. -/
theorem workers_makeWorkers (memory : Pointer) (count i : Nat) (s : ShutdownState) (within : i < count) :
    ∃ heap : Heap, ((List.range count).foldl (ShutdownState.makeWorker memory) s).workers i
      = (makeWorker { memory with offset := i * sizeofBufferedWorker } heap).1 := by
  induction count with
  | zero => exact absurd within (Nat.not_lt_zero i)
  | succ count ih =>
    rw [List.range_succ, List.foldl_append, List.foldl_cons, List.foldl_nil]
    by_cases last : i = count
    · subst last
      simp only [ShutdownState.makeWorker, setWorker, Function.update_self]
      exact ⟨_, rfl⟩
    · simpa [ShutdownState.makeWorker, setWorker, last] using ih (by omega)

section InitWorkers

variable {β : Type}

/-- Making a worker a system worker writes its type and its signal node. -/
theorem same_makeWorkerSystem {field : ShutdownWorker → β}
    (keeps : ∀ w type node, field { w with type := type, signal_node := node } = field w)
    (s : ShutdownState) (i : Nat) : Same field s (s.makeWorkerSystem i) := by
  have written : Same field { s with heap := s.heap.malloc.2 } (s.makeWorkerSystem i) :=
    same_setWorker (keeps _ _ _)
  exact written

/-- Making a worker an I/O worker writes its type and its queue. -/
theorem same_makeWorkerIo {field : ShutdownWorker → β}
    (keeps : ∀ w type queue, field { w with type := type, io_queue := queue } = field w)
    (s : ShutdownState) (i : Nat) : Same field s (s.makeWorkerIo i) := by
  have written : Same field { s with heap := s.heap.malloc.2 } (s.makeWorkerIo i) :=
    same_setWorker (keeps _ _ _)
  exact written

/-- A loop whose passes keep a field of one worker. -/
theorem field_foldl {field : ShutdownWorker → β} {i : Nat} {step : ShutdownState → Nat → ShutdownState}
    {indexes : List Nat}
    (same : ∀ s, ∀ j ∈ indexes, field ((step s j).workers i) = field (s.workers i)) (s : ShutdownState) :
    field ((indexes.foldl step s).workers i) = field (s.workers i) := by
  induction indexes generalizing s with
  | nil => rfl
  | cons j indexes ih =>
    rw [List.foldl_cons, ih fun s j mem => same s j (List.mem_cons_of_mem _ mem)]
    exact same s j List.mem_cons_self

/-- `init_workers` changes a field of a worker that its first loop made only when it makes the worker a
system worker or an I/O worker. -/
theorem field_initWorkers (P : Nat) (io_mode : RuntimeIoMode) (field : ShutdownWorker → β) {i : Nat}
    (system : ∀ s : ShutdownState, ∀ j ∈ List.range' 1 (P - 1),
      field ((s.makeWorkerSystem j).workers i) = field (s.workers i))
    (io : ∀ s : ShutdownState, ∀ j ∈ List.range' P P,
      field ((s.makeWorkerIo j).workers i) = field (s.workers i))
    (share : ∀ s j, Same field s (s.shareIoQueue j)) (within : i < P * 2) :
    ∃ heap : Heap, field ((initWorkers P io_mode).workers i)
      = field (makeWorker { block := 1, offset := i * sizeofBufferedWorker } heap).1 := by
  obtain ⟨heap, made⟩ := workers_makeWorkers ⟨1, 0⟩ (P * 2) i (allocateWorkers P io_mode) within
  refine ⟨heap, ?_⟩
  rw [← made]
  unfold initWorkers
  dsimp only
  split
  · rw [field_foldl fun s j _ => share s j i, field_foldl io, field_foldl system]
  · rw [field_foldl system]

/-- Where `init_workers` leaves a worker. -/
theorem memory_initWorkers {i : Nat} (within : i < P * 2) :
    ((initWorkers P io_mode).workers i).memory
      = { block := 1, offset := i * sizeofBufferedWorker } := by
  obtain ⟨heap, made⟩ := field_initWorkers P io_mode ShutdownWorker.memory
    (fun s j _ => same_makeWorkerSystem (fun _ _ _ => rfl) s j i)
    (fun s j _ => same_makeWorkerIo (fun _ _ _ => rfl) s j i)
    (fun s j => same_setWorker rfl) within
  exact made

/-- `init_workers` gives every worker its statistics. -/
theorem stats_initWorkers {i : Nat} (within : i < P * 2) :
    ((initWorkers P io_mode).workers i).stats ≠ none := by
  obtain ⟨heap, made⟩ := field_initWorkers P io_mode ShutdownWorker.stats
    (fun s j _ => same_makeWorkerSystem (fun _ _ _ => rfl) s j i)
    (fun s j _ => same_makeWorkerIo (fun _ _ _ => rfl) s j i)
    (fun s j => same_setWorker rfl) within
  rw [made]
  exact Option.some_ne_none _

/-- `init_workers` gives worker 0 no signal node. -/
theorem signal_node_initWorkers (positive : 1 ≤ P) :
    ((initWorkers P io_mode).workers 0).signal_node = none := by
  have others : ∀ (s : ShutdownState) (j : Nat) (w : ShutdownWorker), 1 ≤ j →
      (s.setWorker j w).workers 0 = s.workers 0 :=
    fun s j w other => Function.update_of_ne (by omega) _ _
  obtain ⟨heap, made⟩ := field_initWorkers P io_mode ShutdownWorker.signal_node
    (fun s j mem => congrArg _ (others _ j _ (by rw [List.mem_range'_1] at mem; omega)))
    (fun s j mem => congrArg _ (others _ j _ (by rw [List.mem_range'_1] at mem; omega)))
    (fun s j => same_setWorker rfl) (show 0 < P * 2 by omega)
  exact made

end InitWorkers

/-- A loop whose passes keep something of the global state. -/
theorem global_foldl {β : Type} (part : ShutdownState → β)
    (step : ShutdownState → Nat → ShutdownState) (same : ∀ s i, part (step s i) = part s) (indexes : List Nat) (s : ShutdownState) :
    part (indexes.foldl step s) = part s := by
  induction indexes generalizing s with
  | nil => rfl
  | cons i indexes ih => rw [List.foldl_cons, ih, same]

/-- `init_workers` leaves the parameters as they are. -/
theorem parameters_initWorkers (P : Nat) (io_mode : RuntimeIoMode) :
    ((initWorkers P io_mode).P, (initWorkers P io_mode).io_mode, (initWorkers P io_mode).Q)
      = (P, io_mode, 0) := by
  let parameters : ShutdownState → Nat × RuntimeIoMode × Nat := fun s => (s.P, s.io_mode, s.Q)
  show parameters (initWorkers P io_mode) = parameters (allocateWorkers P io_mode)
  unfold initWorkers
  dsimp only
  split
  · rw [global_foldl parameters shareIoQueue fun _ _ => rfl,
      global_foldl parameters makeWorkerIo fun _ _ => rfl,
      global_foldl parameters makeWorkerSystem fun _ _ => rfl,
      global_foldl parameters (ShutdownState.makeWorker ⟨1, 0⟩) fun _ _ => rfl]
  · rw [global_foldl parameters makeWorkerSystem fun _ _ => rfl,
      global_foldl parameters (ShutdownState.makeWorker ⟨1, 0⟩) fun _ _ => rfl]

/-- Right after the workers are started the runtime is idle. -/
theorem idleAfterInit_startWorkers (P : Nat) (io_mode : RuntimeIoMode) :
    IdleAfterInit P io_mode (startWorkers (initGlobalSysdep (initWorkers P io_mode))) := by
  have parameters := parameters_initWorkers P io_mode
  simp only [Prod.mk.injEq] at parameters
  obtain ⟨workers_number, mode, left⟩ := parameters
  refine ⟨workers_number, mode, left, fun _ => rfl, fun _ => rfl, fun _ => rfl, fun _ => ?_⟩
  simp only [startWorkers, initGlobalSysdep, workers_number, mode]

section Idle

variable (idle : IdleAfterInit P io_mode s)
include idle

/-- A runtime of several workers that was started fails when it is stopped: the message to wake up is for
worker 0, which has no signal node. -/
theorem stopWorkers_fails (several : 1 < P) (running : s.workers_running = true) :
    stopWorkers s = .error .noSignalNode := by
  have none_ : (s.workers 0).signal_node = none := by
    rw [idle.signal_node, signal_node_initWorkers (by omega)]
  have several' : 1 < s.P := idle.workers_number ▸ several
  simp [stopWorkers, running, none_, several']

/-- Without profiling no worker can be destroyed: its statistics were allocated. -/
theorem destroyWorker_fails_without_profile {i : Nat} (within : i < P * 2) (s' : ShutdownState) :
    destroyWorker false s i ≠ .ok s' := by
  intro completes
  obtain ⟨s₁, thread, completes⟩ := except_bind_eq_ok completes
  obtain ⟨s₂, fiber, completes⟩ := except_bind_eq_ok completes
  obtain ⟨s₃, stats, _⟩ := except_bind_eq_ok completes
  have kept : (s₂.workers i).stats = (s.workers i).stats :=
    (same_destroySchedulingFiber (fun _ _ => rfl) fiber i).trans (same_noThread thread i)
  have allocated : (s₂.workers i).stats ≠ none := by
    rw [kept, idle.stats]
    exact stats_initWorkers within
  obtain ⟨pointer, some_⟩ := Option.ne_none_iff_exists'.mp allocated
  simp [destroyStats, some_] at stats

/-- With I/O threads no shutdown gets past the first I/O worker: nobody joins its thread. -/
theorem destroyWorker_fails_for_io (positive : 1 ≤ P) (threads : io_mode ≠ .normal)
    (running : s.workers_running = true) {stopped : ShutdownState} (stop : stopWorkers s = .ok stopped) :
    destroyWorker profile stopped P = .error (.threadRuns P) := by
  have started : P ∈ startedThreads P io_mode := by
    simp [startedThreads, threads]
    omega
  have runs : P ∈ stopped.threads := by
    simp only [stopWorkers, running, Bool.true_eq_false, if_false] at stop
    split at stop
    · cases stop
    · obtain rfl := Except.ok.inj stop
      simp [idle.threads running, started, idle.workers_number]
  simp only [destroyWorker, noThread, if_pos runs]
  rfl

end Idle

/-- No shutdown is safe, whatever the number of workers, the I/O mode, the build and the idle state. -/
theorem shutdown_never_safe (positive : 1 ≤ P) (idle : IdleAfterInit P io_mode s) :
    ¬ ShutdownSafe P io_mode profile s := by
  have inside : (s.workers 1).memory.offset ≠ 0 := by
    rw [idle.memory, memory_initWorkers (by omega)]
    decide
  exact fun ⟨_, completes, _⟩ => shutdown_not_ok inside completes

/-- One worker in a build with profiling, which gets as far as the block of the workers. -/
theorem shutdown_never_safe_profile :
    ¬ ShutdownSafe 1 .normal true (startWorkers (initGlobalSysdep (initWorkers 1 .normal))) :=
  shutdown_never_safe (by decide) (idleAfterInit_startWorkers 1 .normal)

/-- Two workers that were started and have nothing to do: the assertion about the signal node fails. -/
theorem shutdown_unsafe_two_workers :
    shutdown false (startWorkers (initGlobalSysdep (initWorkers 2 .normal))) = .error .noSignalNode
      ∧ ¬ ∀ P io_mode profile s, 1 ≤ P → IdleAfterInit P io_mode s →
          ShutdownSafe P io_mode profile s := by
  have stop := stopWorkers_fails (idleAfterInit_startWorkers 2 .normal) (by decide) rfl
  have fails : shutdown false (startWorkers (initGlobalSysdep (initWorkers 2 .normal)))
      = .error .noSignalNode := by
    rw [shutdown, stop]
    rfl
  refine ⟨fails, fun safe => ?_⟩
  obtain ⟨_, completes, _⟩ := safe 2 .normal false _ (by decide) (idleAfterInit_startWorkers 2 .normal)
  rw [fails] at completes
  cases completes

end CilkL
