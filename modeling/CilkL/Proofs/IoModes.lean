/-
Module: CilkL.Proofs.IoModes
Layer: Proofs
Purpose: When `cilk_read` and `cilk_write` give the same result with an I/O thread as without. Until the
  file has answered, an operation on the I/O thread has transferred nothing, so both modes put the same
  first answer to the same request. The modes part when the I/O thread asks again: after a write that the
  file accepted in part. The condition is on the request and on what the file answers to it.
Imports: CilkL.Proofs.IoTransfer
Trusted boundary: none
Main exports: SameInBothModes, Pending, modes_agree_iff, modes_differ_short_write
Open obligations: none
-/
import CilkL.Proofs.IoTransfer

namespace CilkL

variable {dir : Direction} {op : IoOp} {answer : FileAnswer} {file rest : List FileAnswer}
  {bytes : List Nat} {s s' : IoThreadState} {calls : List SysCall}

/-- Both modes agree when the file never gets ready, when it fails, and when the first transfer fits in an
`int` and is the only one the I/O thread asks for, or is followed by one that accepts nothing. -/
def SameInBothModes (dir : Direction) (nbyte : Nat) : List FileAnswer → Prop
  | [] => True
  | .fails _ _ :: _ => True
  | .transfers capacity :: rest =>
      let moved := min capacity (min nbyte ssizeMax)
      moved ≤ intMax ∧
        (dir = .read ∨ moved = 0 ∨ moved = nbyte ∨ ∃ later, rest = .transfers 0 :: later)

/-- The operation is the same for the program in both modes: the results it can get from the I/O thread
are the one it gets without. -/
def ModesAgree (dir : Direction) (op : IoOp) (errno : Int) (file : List FileAnswer) : Prop :=
  ∀ outcome, directIo op errno file = some outcome ↔
    ∃ s, (ioThreadMachine dir op file).Reachable s ∧ s.outcome = some outcome

/-- The addresses of the bytes that the calls of a log transferred, in order. -/
def transferredBytes (calls : List SysCall) : List Nat :=
  calls.reverse.flatMap SysCall.addresses

theorem transferredBytes_cons (call : SysCall) (calls : List SysCall) :
    transferredBytes (call :: calls) = transferredBytes calls ++ call.addresses := by
  simp [transferredBytes]

theorem transferredBytes_length (calls : List SysCall) :
    (transferredBytes calls).length = accepted calls := by
  induction calls with
  | nil => rfl
  | cons call calls ih =>
    rw [transferredBytes_cons, List.length_append, ih, accepted_cons, Nat.add_comm]
    simp [SysCall.addresses]

/-- A failed call transfers nothing. -/
theorem transferredBytes_fail (error : Int) (calls : List SysCall) :
    transferredBytes (⟨op, .fail error⟩ :: calls) = transferredBytes calls := by
  rw [transferredBytes_cons]
  simp [SysCall.addresses, SysResult.bytes]

/-- Nothing is put yet, the file has these answers left, and these bytes were transferred. -/
structure Pending (op : IoOp) (file : List FileAnswer) (bytes : List Nat) (s : IoThreadState) :
    Prop where
  file : s.file = file
  inv : TransferInv op s.transfer
  unfinished : s.transfer.phase ≠ .done
  bytes : transferredBytes s.transfer.calls = bytes

/-- The result is put, and this is what the program sees of it. -/
def Finished (outcome : IoOutcome) (s : IoThreadState) : Prop :=
  s.transfer.phase = .done ∧ s.outcome = some outcome

/-! ### Steps of a pending operation -/

theorem pending_initial (fresh : op.Fresh) : Pending op file [] ⟨Transfer.initial op, file⟩ where
  file := rfl
  inv := transferInv_initial fresh
  unfinished := by simp [Transfer.initial]
  bytes := rfl

/-- Entering the function. -/
theorem Pending.enter (pending : Pending op file bytes s) {errno : Int}
    (step : ioThreadStep dir s (.enter errno) = some s') : Pending op file bytes s' := by
  simp only [ioThreadStep, Option.map_eq_some_iff] at step
  obtain ⟨transfer, entered, rfl⟩ := step
  have inv := transferInv_enter pending.inv entered
  simp only [transferStep] at entered
  split at entered
  · cases entered
    exact ⟨pending.file, inv, by simp, pending.bytes⟩
  · exact absurd entered (by simp)

/-- A system call of a pending operation finds it inside the function. -/
theorem syscall_calling {before after : Transfer} {result : SysResult}
    (called : transferStep dir before (.syscall result) = some after) :
    before.phase = .calling ∧ result.possible before.op.nbyte ∧ after = before.afterCall dir result := by
  simp only [transferStep] at called
  split at called
  · rename_i enabled
    exact ⟨enabled.1, enabled.2, (Option.some.inj called).symm⟩
  · exact absurd called (by simp)

/-- A call that would block leaves the operation where it was. -/
theorem Pending.notReady (fresh : op.Fresh) (pending : Pending op file bytes s)
    (step : ioThreadStep dir s .notReady = some s') : Pending op file bytes s' := by
  simp only [ioThreadStep, Option.map_eq_some_iff] at step
  obtain ⟨transfer, called, rfl⟩ := step
  obtain ⟨calling, -, rfl⟩ := syscall_calling called
  have inv := transferInv_fail dir fresh pending.inv calling eagain
  rw [pending.inv.afterCall_wouldBlock fresh pending.unfinished (.inl rfl)] at inv ⊢
  exact ⟨pending.file, inv, by simp, (transferredBytes_fail _ _).trans pending.bytes⟩

/-- A failure of the file is what the program sees. -/
theorem Pending.fails (fresh : op.Fresh) {error : Int} {hard : ¬ wouldBlock error}
    (pending : Pending op (.fails error hard :: rest) bytes s)
    (step : ioThreadStep dir s .ready = some s') :
    Finished { retVal := -1, errnoVal := some error, bytes := bytes } s' := by
  simp only [ioThreadStep, pending.file, Option.map_eq_some_iff] at step
  obtain ⟨transfer, called, rfl⟩ := step
  obtain ⟨-, -, rfl⟩ := syscall_calling called
  rw [FileAnswer.result, pending.inv.afterCall_fails fresh pending.unfinished hard]
  refine ⟨rfl, ?_⟩
  have same : transferredBytes (⟨s.transfer.op, .fail error⟩ :: s.transfer.calls) = bytes :=
    (transferredBytes_fail error s.transfer.calls).trans pending.bytes
  simp only [IoThreadState.outcome, IoOutcome.of, Transfer.called, if_pos]
  rw [← same]
  rfl

/-- The bytes a pending operation has left, and the addresses of the next ones. -/
theorem Pending.left (pending : Pending op file bytes s) :
    s.transfer.op.nbyte + bytes.length = op.nbyte ∧ accepted s.transfer.calls = bytes.length := by
  have length : bytes.length = accepted s.transfer.calls := by
    rw [← pending.bytes, transferredBytes_length]
  exact ⟨length ▸ (pending.inv.rest pending.unfinished).2, length.symm⟩

/-- The next bytes behind the ones already transferred. -/
def nextBytes (op : IoOp) (bytes : List Nat) (count : Nat) : List Nat :=
  bytes ++ (List.range count).map fun (i : Nat) => wordAdd (wordAdd op.buf bytes.length) i

theorem Pending.transferredNext (pending : Pending op file bytes s) (count : Nat) :
    transferredBytes (⟨s.transfer.op, .count count⟩ :: s.transfer.calls) =
      nextBytes op bytes count := by
  have length : bytes.length = accepted s.transfer.calls := by
    rw [← pending.bytes, transferredBytes_length]
  rw [transferredBytes_cons, pending.bytes, nextBytes, length,
    ← (pending.inv.rest pending.unfinished).1]
  rfl

/-- A transfer after which the I/O thread asks again. -/
theorem Pending.transfers_again (fresh : op.Fresh) {capacity count : Nat}
    (pending : Pending op (.transfers capacity :: rest) bytes s)
    (isCount : count = min capacity (min (op.nbyte - bytes.length) ssizeMax)) (fits : count ≤ intMax)
    (again : count < op.nbyte - bytes.length ∧ 0 < count ∧ dir ≠ .read)
    (step : ioThreadStep dir s .ready = some s') :
    Pending op rest (nextBytes op bytes count) s' := by
  simp only [ioThreadStep, pending.file, Option.map_eq_some_iff] at step
  obtain ⟨transfer, called, rfl⟩ := step
  have left := pending.left
  have result : FileAnswer.result s.transfer.op.nbyte (.transfers capacity) = .count count := by
    rw [FileAnswer.result, Nat.eq_sub_of_add_eq left.1, ← isCount]
  rw [result] at called
  obtain ⟨calling, possible, after⟩ := syscall_calling called
  rw [after]
  have asks : asksAgain dir s.transfer.op count := ⟨by omega, again.2⟩
  have inv := transferInv_count dir fresh pending.inv calling possible.1 fits
  rw [pending.inv.afterCall_again fresh pending.unfinished possible.1 fits asks] at inv ⊢
  exact ⟨rfl, inv, pending.unfinished, pending.transferredNext count⟩

/-- A transfer after which the loop ends: the program sees the total. -/
theorem Pending.transfers_ends (fresh : op.Fresh) {capacity : Nat}
    (pending : Pending op (.transfers capacity :: rest) bytes s) (count : Nat)
    (isCount : count = min capacity (min (op.nbyte - bytes.length) ssizeMax)) (fits : count ≤ intMax)
    (ends : ¬ (count < op.nbyte - bytes.length ∧ 0 < count ∧ dir ≠ .read))
    (small : bytes.length + count ≤ intMax)
    (step : ioThreadStep dir s .ready = some s') :
    Finished
      { retVal := (bytes.length + count : Nat), errnoVal := none, bytes := nextBytes op bytes count }
      s' := by
  simp only [ioThreadStep, pending.file, Option.map_eq_some_iff] at step
  obtain ⟨transfer, called, rfl⟩ := step
  have left := pending.left
  have result : FileAnswer.result s.transfer.op.nbyte (.transfers capacity) = .count count := by
    rw [FileAnswer.result, Nat.eq_sub_of_add_eq left.1, ← isCount]
  rw [result] at called
  obtain ⟨calling, possible, after⟩ := syscall_calling called
  rw [after]
  have stops : ¬ asksAgain dir s.transfer.op count := fun asks => ends ⟨by have := asks.1; omega, asks.2⟩
  rw [pending.inv.afterCall_ends fresh pending.unfinished possible.1 fits stops]
  have total : toSsize ((accepted s.transfer.calls : Int) + count) = ((bytes.length + count : Nat) : Int) := by
    rw [left.2]
    unfold intMax at small
    unfold toSsize
    omega
  refine ⟨rfl, ?_⟩
  simp only [IoThreadState.outcome, Transfer.called, total, IoOutcome.of]
  rw [if_neg (by omega), ← pending.transferredNext count]
  rfl

/-- The program sees nothing of a pending operation. -/
theorem Pending.outcome_none (pending : Pending op file bytes s) : s.outcome = none := by
  have unfinished := pending.unfinished
  unfold IoThreadState.outcome
  split
  · rename_i done _
    exact absurd done unfinished
  · rfl

/-- A finished operation stays as it is. -/
theorem Finished.stays {outcome : IoOutcome} (finished : Finished outcome s) {label : IoThreadLabel}
    (step : ioThreadStep dir s label = some s') : False := by
  have stuck : ∀ label, transferStep dir s.transfer label = none := by
    intro label
    cases label <;> simp [transferStep, finished.1]
  cases label with
  | enter errno => simp [ioThreadStep, stuck] at step
  | notReady => simp [ioThreadStep, stuck] at step
  | ready =>
    cases answers : s.file with
    | nil => simp [ioThreadStep, answers] at step
    | cons answer rest => simp [ioThreadStep, answers, stuck] at step

/-- What a pending operation can become: it stays pending, or its file answers. -/
theorem Pending.step (fresh : op.Fresh) (pending : Pending op file bytes s) {label : IoThreadLabel}
    (step : ioThreadStep dir s label = some s') :
    Pending op file bytes s' ∨ ∃ answer rest, file = answer :: rest ∧ label = .ready := by
  cases label with
  | enter errno => exact .inl (pending.enter step)
  | notReady => exact .inl (pending.notReady fresh step)
  | ready =>
    cases file with
    | nil => simp [ioThreadStep, pending.file] at step
    | cons answer rest => exact .inr ⟨answer, rest, rfl, rfl⟩

/-- Whatever a file answers is a possible result. -/
theorem FileAnswer.result_possible (answer : FileAnswer) (nbyte : Nat) :
    (answer.result nbyte).possible nbyte := by
  cases answer with
  | transfers capacity =>
    exact ⟨le_trans (Nat.min_le_right _ _) (Nat.min_le_left _ _),
      le_trans (Nat.min_le_right _ _) (Nat.min_le_right _ _)⟩
  | fails error hard => trivial

/-- A pending operation gets to the next answer of its file. -/
theorem Pending.canAnswer {M : Machine IoThreadState IoThreadLabel} (isStep : M.step = ioThreadStep dir)
    (pending : Pending op (answer :: rest) bytes s) (reachable : M.Reachable s) :
    ∃ ready after, Pending op (answer :: rest) bytes ready ∧
      ioThreadStep dir ready .ready = some after ∧ M.Reachable after := by
  have answers : ∀ ready, Pending op (answer :: rest) bytes ready → M.Reachable ready →
      ready.transfer.phase = .calling → ∃ after, ioThreadStep dir ready .ready = some after ∧
        M.Reachable after := by
    intro ready isPending isReachable calling
    refine ⟨⟨ready.transfer.afterCall dir (answer.result ready.transfer.op.nbyte), rest⟩, ?_, ?_⟩
    · simp [ioThreadStep, isPending.file, transferStep, calling, answer.result_possible]
    · refine .step (a := .ready) isReachable ?_
      simp [isStep, ioThreadStep, isPending.file, transferStep, calling, answer.result_possible]
  by_cases calling : s.transfer.phase = .calling
  · obtain ⟨after, step, isReachable⟩ := answers s pending reachable calling
    exact ⟨s, after, pending, step, isReachable⟩
  · -- the function has to be entered first
    have outside : s.transfer.phase = .submitted ∨ s.transfer.phase = .blocked := by
      have unfinished := pending.unfinished
      cases phase : s.transfer.phase <;> simp_all
    have entered : ioThreadStep dir s (.enter 0) =
        some ⟨{ s.transfer with phase := .calling, errno := 0 }, s.file⟩ := by
      simp [ioThreadStep, transferStep, outside]
    have isReachable : M.Reachable ⟨{ s.transfer with phase := .calling, errno := 0 }, s.file⟩ :=
      .step (a := .enter 0) reachable (isStep ▸ entered)
    obtain ⟨after, step, isAfter⟩ := answers _ (pending.enter entered) isReachable rfl
    exact ⟨_, after, pending.enter entered, step, isAfter⟩

/-! ### The modes agree -/

/-- An operation whose first answer is the last one it asks for: the program sees that answer. -/
theorem modesAgree_of_first {errno : Int} {outcome : IoOutcome} (fresh : op.Fresh)
    (direct : directIo op errno (answer :: rest) = some outcome)
    (ends : ∀ s s', Pending op (answer :: rest) [] s → ioThreadStep dir s .ready = some s' →
      Finished outcome s') : ModesAgree dir op errno (answer :: rest) := by
  intro other
  rw [direct]
  constructor
  · rintro ⟨rfl⟩
    obtain ⟨ready, after, isPending, step, isAfter⟩ :=
      (pending_initial fresh).canAnswer (M := ioThreadMachine dir op (answer :: rest)) rfl (.start rfl)
    exact ⟨after, isAfter, (ends ready after isPending step).2⟩
  · rintro ⟨s, reachable, seen⟩
    have reached : Pending op (answer :: rest) [] s ∨ Finished outcome s := by
      clear seen
      induction reachable with
      | start initial => exact .inl (initial ▸ pending_initial fresh)
      | step _ step ih =>
        rcases ih with pending | finished
        · rcases pending.step fresh step with stays | ⟨_, _, _, rfl⟩
          · exact .inl stays
          · exact .inr (ends _ _ pending step)
        · exact (finished.stays step).elim
    rcases reached with pending | finished
    · exact absurd seen (pending.outcome_none ▸ by simp)
    · exact finished.2.symm.trans seen

/-- The count of the first transfer of a request. -/
def firstCount (nbyte capacity : Nat) : Nat := min capacity (min nbyte ssizeMax)

theorem directIo_transfers (fresh : op.Fresh) (errno : Int) (capacity : Nat) :
    directIo op errno (.transfers capacity :: rest) =
      some
        { retVal := firstCount op.nbyte capacity, errnoVal := none
          bytes := nextBytes op [] (firstCount op.nbyte capacity) } := by
  have word : wordAdd op.buf (([] : List Nat).length : Int) = op.buf := wordAdd_zero fresh.2.1
  have notError : ¬ ((firstCount op.nbyte capacity : Int) = -1) := by omega
  show some (IoOutcome.of (firstCount op.nbyte capacity) _
    [⟨op, .count (firstCount op.nbyte capacity)⟩]) = _
  rw [nextBytes, word, IoOutcome.of, if_neg notError]
  simp [SysCall.addresses, SysResult.bytes]

/-- A first transfer after which nothing more is asked for. -/
theorem modesAgree_transfers {errno : Int} {capacity : Nat} (fresh : op.Fresh)
    (fits : firstCount op.nbyte capacity ≤ intMax)
    (last : dir = .read ∨ firstCount op.nbyte capacity = 0 ∨ firstCount op.nbyte capacity = op.nbyte) :
    ModesAgree dir op errno (.transfers capacity :: rest) := by
  refine modesAgree_of_first fresh (directIo_transfers fresh errno capacity) ?_
  intro s s' pending step
  have finished := pending.transfers_ends fresh (firstCount op.nbyte capacity) rfl fits
    (by rintro ⟨part, some_, isWrite⟩
        rcases last with isRead | none_ | all
        · exact isWrite isRead
        · omega
        · simp only [List.length_nil] at part
          omega)
    (by simpa using fits) step
  simpa using finished

/-- A partial write whose file accepts nothing when it is asked again. -/
theorem modesAgree_partial {errno : Int} {capacity : Nat} (fresh : op.Fresh)
    (fits : firstCount op.nbyte capacity ≤ intMax)
    (again : firstCount op.nbyte capacity < op.nbyte ∧ 0 < firstCount op.nbyte capacity ∧ dir ≠ .read) :
    ModesAgree dir op errno (.transfers capacity :: .transfers 0 :: rest) := by
  intro other
  rw [directIo_transfers fresh]
  set count := firstCount op.nbyte capacity with isCount
  have first : ∀ s s', Pending op (.transfers capacity :: .transfers 0 :: rest) [] s →
      ioThreadStep dir s .ready = some s' →
      Pending op (.transfers 0 :: rest) (nextBytes op [] count) s' :=
    fun s s' pending step => pending.transfers_again fresh isCount fits (by simpa using again) step
  have length : (nextBytes op [] count).length = count := by simp [nextBytes]
  have second : ∀ s s', Pending op (.transfers 0 :: rest) (nextBytes op [] count) s →
      ioThreadStep dir s .ready = some s' →
      Finished { retVal := count, errnoVal := none, bytes := nextBytes op [] count } s' := by
    intro s s' pending step
    have finished := pending.transfers_ends fresh 0 (by simp) (by simp) (by simp)
      (by rw [length]; exact fits) step
    simpa [nextBytes] using finished
  constructor
  · rintro ⟨rfl⟩
    obtain ⟨ready, after, isPending, step, isAfter⟩ :=
      (pending_initial fresh).canAnswer
        (M := ioThreadMachine dir op (.transfers capacity :: .transfers 0 :: rest)) rfl (.start rfl)
    obtain ⟨ready', after', isPending', step', isAfter'⟩ :=
      (first ready after isPending step).canAnswer rfl isAfter
    exact ⟨after', isAfter', (second ready' after' isPending' step').2⟩
  · rintro ⟨s, reachable, seen⟩
    have reached : Pending op (.transfers capacity :: .transfers 0 :: rest) [] s ∨
        Pending op (.transfers 0 :: rest) (nextBytes op [] count) s ∨
        Finished { retVal := count, errnoVal := none, bytes := nextBytes op [] count } s := by
      clear seen
      induction reachable with
      | start initial => exact .inl (initial ▸ pending_initial fresh)
      | step _ step ih =>
        rcases ih with pending | pending | finished
        · rcases pending.step fresh step with stays | ⟨_, _, _, rfl⟩
          · exact .inl stays
          · exact .inr (.inl (first _ _ pending step))
        · rcases pending.step fresh step with stays | ⟨_, _, _, rfl⟩
          · exact .inr (.inl stays)
          · exact .inr (.inr (second _ _ pending step))
        · exact (finished.stays step).elim
    rcases reached with pending | pending | finished
    · exact absurd seen (pending.outcome_none ▸ by simp)
    · exact absurd seen (pending.outcome_none ▸ by simp)
    · exact finished.2.symm.trans seen

/-- A file that never gets ready: neither mode ever puts a result. -/
theorem modesAgree_nil {errno : Int} (fresh : op.Fresh) : ModesAgree dir op errno [] := by
  intro outcome
  constructor
  · intro direct
    exact absurd direct (by simp [directIo])
  · rintro ⟨s, reachable, seen⟩
    have pending : Pending op [] [] s := by
      clear seen
      induction reachable with
      | start initial => exact initial ▸ pending_initial fresh
      | step _ step pending =>
        rcases pending.step fresh step with stays | ⟨_, _, isCons, -⟩
        · exact stays
        · exact absurd isCons (by simp)
    exact absurd seen (pending.outcome_none ▸ by simp)

/-! ### The modes differ -/

/-- What the program sees of an operation tells how many bytes its calls transferred, and what was put. -/
theorem outcome_some {outcome : IoOutcome} (seen : s.outcome = some outcome) :
    s.transfer.phase = .done ∧ outcome.bytes.length = accepted s.transfer.calls ∧
      ∃ errnoVal puts, s.transfer.puts = (outcome.retVal, errnoVal) :: puts := by
  unfold IoThreadState.outcome at seen
  split at seen
  · rename_i retVal errnoVal puts done isPut
    cases seen
    exact ⟨done, transferredBytes_length _, errnoVal, puts, isPut⟩
  · exact absurd seen (by simp)

theorem afterCall_calls (dir : Direction) (before : Transfer) (result : SysResult) :
    (before.afterCall dir result).calls = ⟨before.op, result⟩ :: before.calls := by
  unfold Transfer.afterCall
  split <;> rfl

/-- A step of the I/O thread is an entry or a system call. -/
theorem ioThreadStep_cases {label : IoThreadLabel} (step : ioThreadStep dir s label = some s') :
    (∃ errno, s'.transfer = { s.transfer with phase := .calling, errno := errno } ∧
      s.transfer.phase ≠ .done) ∨
    ∃ result, s.transfer.phase = .calling ∧ s'.transfer = s.transfer.afterCall dir result := by
  cases label with
  | enter errno =>
    simp only [ioThreadStep, transferStep, Option.map_eq_some_iff] at step
    obtain ⟨transfer, entered, rfl⟩ := step
    split at entered
    · rename_i outside
      refine .inl ⟨errno, (Option.some.inj entered).symm, ?_⟩
      rcases outside with new | again
      · simp [new]
      · simp [again]
    · exact absurd entered (by simp)
  | notReady =>
    simp only [ioThreadStep, Option.map_eq_some_iff] at step
    obtain ⟨transfer, called, rfl⟩ := step
    obtain ⟨calling, -, after⟩ := syscall_calling called
    exact .inr ⟨_, calling, after⟩
  | ready =>
    cases answers : s.file with
    | nil => simp [ioThreadStep, answers] at step
    | cons answer rest =>
      simp only [ioThreadStep, answers, Option.map_eq_some_iff] at step
      obtain ⟨transfer, called, rfl⟩ := step
      obtain ⟨calling, -, after⟩ := syscall_calling called
      exact .inr ⟨_, calling, after⟩

/-- The transferred bytes only grow. -/
theorem accepted_mono {label : IoThreadLabel} (step : ioThreadStep dir s label = some s') :
    accepted s.transfer.calls ≤ accepted s'.transfer.calls := by
  rcases ioThreadStep_cases step with ⟨errno, entered, -⟩ | ⟨result, -, called⟩
  · rw [entered]
  · rw [called, afterCall_calls, accepted_cons]
    exact Nat.le_add_left _ _

/-- `count` bytes were transferred, and no result that can still be put tells so. -/
structure OffCount (count : Nat) (transfer : Transfer) : Prop where
  calls : accepted transfer.calls = count
  field : transfer.phase ≠ .done → transfer.op.res ≠ count ∧ toSsize transfer.op.res = transfer.op.res
  put : ∀ put ∈ transfer.puts, put.1 ≠ count

/-- A system call that transfers nothing does not repair the count. -/
theorem OffCount.called {count : Nat} {transfer : Transfer} (off : OffCount count transfer)
    (unfinished : transfer.phase ≠ .done) {result : SysResult} (nothing : result.bytes = 0) :
    OffCount count (transfer.afterCall dir result) := by
  obtain ⟨wrong, inRange⟩ := off.field unfinished
  have calls : accepted (transfer.called result).calls = count := by
    rw [Transfer.called, accepted_cons, nothing, Nat.zero_add, off.calls]
  have value : toInt32 result.value = 0 ∨ toInt32 result.value = -1 := by
    cases result with
    | count bytes =>
      cases nothing
      exact .inl (by decide)
    | fail error => exact .inr (show toInt32 (-1) = -1 by decide)
  rcases performIterationInt_cases dir (result.errnoAfter transfer.errno) transfer.op result with
    ⟨op', outcome, positive, -⟩ | ⟨op', outcome, negative, res⟩ | ⟨op', retVal, errnoVal, outcome, put⟩
  · rcases value with zero | minusOne
    · exact absurd positive (by rw [zero]; decide)
    · exact absurd positive (by rw [minusOne]; decide)
  · have restored : op'.res = transfer.op.res := by
      rw [res, Int.sub_eq_add_neg, toSsize_add, Int.add_assoc, Int.add_right_neg, Int.add_zero, inRange]
    rw [afterCall_blocked outcome]
    exact ⟨calls, fun _ => ⟨restored ▸ wrong, restored ▸ inRange⟩, off.put⟩
  · rw [afterCall_put outcome]
    refine ⟨calls, fun ended => absurd rfl ended, ?_⟩
    intro other isPut
    rcases List.mem_cons.mp isPut with isNew | isOld
    · rw [isNew]
      rcases put with ⟨-, error⟩ | ⟨nonneg, sum⟩
      · show retVal ≠ count
        omega
      · show retVal ≠ count
        have zero : toInt32 result.value = 0 := by omega
        rw [sum, zero, Int.add_zero, inRange]
        exact wrong
    · exact off.put other isOld

/-- The program never learns a count that is off from the I/O thread: more bytes are transferred, or the
result is another one. -/
theorem not_seen_offCount {M : Machine IoThreadState IoThreadLabel} (isStep : M.step = ioThreadStep dir)
    (count : Nat) (before : IoThreadState → Prop) (initial : ∀ s, M.start s → before s)
    (silent : ∀ s, before s → s.outcome = none)
    (leaves : ∀ s label s', before s → ioThreadStep dir s label = some s' →
      before s' ∨ count < accepted s'.transfer.calls ∨ OffCount count s'.transfer)
    {outcome : IoOutcome} (length : outcome.bytes.length = count) (retVal : outcome.retVal = count)
    (reachable : M.Reachable s) : s.outcome ≠ some outcome := by
  intro seen
  have reached : before s ∨ count < accepted s.transfer.calls ∨ OffCount count s.transfer := by
    clear seen
    induction reachable with
    | start start => exact .inl (initial _ start)
    | step _ taken ih =>
      rw [isStep] at taken
      rcases ih with early | more | off
      · exact leaves _ _ _ early taken
      · exact .inr (.inl (lt_of_lt_of_le more (accepted_mono taken)))
      · rcases ioThreadStep_cases taken with ⟨errno, entered, unfinished⟩ | ⟨result, calling, called⟩
        · rw [entered]
          exact .inr (.inr ⟨off.calls, fun _ => off.field unfinished, off.put⟩)
        · rw [called]
          by_cases nothing : result.bytes = 0
          · exact .inr (.inr (off.called (by simp [calling]) nothing))
          · refine .inr (.inl ?_)
            rw [afterCall_calls, accepted_cons, off.calls]
            exact Nat.lt_add_of_pos_left (Nat.pos_of_ne_zero nothing)
  obtain ⟨-, bytes, errnoVal, puts, isPut⟩ := outcome_some seen
  rcases reached with early | more | off
  · exact absurd seen (silent s early ▸ by simp)
  · omega
  · exact off.put _ (isPut ▸ List.mem_cons_self) retVal

/-- The step with which the file answers. -/
theorem Pending.ready (pending : Pending op (answer :: rest) bytes s)
    (step : ioThreadStep dir s .ready = some s') :
    s.transfer.phase = .calling ∧
      s'.transfer = s.transfer.afterCall dir (answer.result (op.nbyte - bytes.length)) := by
  simp only [ioThreadStep, pending.file, Option.map_eq_some_iff] at step
  obtain ⟨transfer, called, rfl⟩ := step
  rw [Nat.eq_sub_of_add_eq pending.left.1] at called
  obtain ⟨calling, -, after⟩ := syscall_calling called
  exact ⟨calling, after⟩

/-- A first count that does not fit in an `int` is lost at once. -/
theorem Pending.offCount (pending : Pending op file [] s) {count : Nat} (misfit : ¬ count ≤ intMax) :
    OffCount count (s.transfer.afterCall dir (.count count)) := by
  have none_ : accepted s.transfer.calls = 0 := pending.left.2
  have res : s.transfer.op.res = 0 := by
    rw [pending.inv.res pending.unfinished, none_]
    decide
  have calls : accepted (s.transfer.called (.count count)).calls = count := by
    rw [Transfer.called, accepted_cons, none_]
    rfl
  have value : (SysResult.count count).value = count := rfl
  have small := toInt32_lt count
  unfold intMax at misfit
  rcases performIterationInt_cases dir ((SysResult.count count).errnoAfter s.transfer.errno) s.transfer.op
      (.count count) with
    ⟨op', outcome, positive, -, moved⟩ | ⟨op', outcome, negative, restored⟩ |
      ⟨op', retVal, errnoVal, outcome, put⟩
  · rw [afterCall_again outcome]
    rw [value] at positive moved
    rw [res, Int.zero_add] at moved
    have inRange : toSsize (toInt32 count) = toInt32 count := by
      generalize toInt32 count = got at *
      unfold toSsize
      omega
    refine ⟨calls, fun _ => ?_, fun put isPut => ?_⟩
    · show op'.res ≠ count ∧ toSsize op'.res = op'.res
      rw [moved, inRange]
      exact ⟨by omega, inRange⟩
    · exact absurd isPut (by simp [Transfer.called, pending.inv.puts_nil pending.unfinished])
  · rw [afterCall_blocked outcome]
    have zero : op'.res = 0 := by
      rw [restored, res, Int.sub_eq_add_neg, toSsize_add, Int.zero_add, Int.add_right_neg]
      decide
    refine ⟨calls, fun _ => ?_, fun put isPut => ?_⟩
    · show op'.res ≠ count ∧ toSsize op'.res = op'.res
      rw [zero]
      exact ⟨by omega, by decide⟩
    · exact absurd isPut (by simp [Transfer.called, pending.inv.puts_nil pending.unfinished])
  · rw [afterCall_put outcome]
    refine ⟨calls, fun ended => absurd rfl ended, fun other isPut => ?_⟩
    rw [pending.inv.puts_nil pending.unfinished, List.mem_singleton] at isPut
    rw [isPut]
    show retVal ≠ count
    rw [value] at put
    rcases put with ⟨-, error⟩ | ⟨nonneg, sum⟩
    · omega
    · rw [res, Int.zero_add] at sum
      generalize toInt32 count = got at *
      unfold toSsize at sum
      omega

/-- The modes differ when the first count does not fit in an `int`. -/
theorem not_modesAgree_misfit {errno : Int} {capacity : Nat} (fresh : op.Fresh)
    (misfit : ¬ firstCount op.nbyte capacity ≤ intMax) :
    ¬ ModesAgree dir op errno (.transfers capacity :: rest) := by
  intro agree
  obtain ⟨s, reachable, seen⟩ := (agree _).mp (directIo_transfers fresh errno capacity)
  refine not_seen_offCount rfl (firstCount op.nbyte capacity)
    (Pending op (.transfers capacity :: rest) []) ?_ ?_ ?_ ?_ rfl reachable seen
  · rintro s rfl
    exact pending_initial fresh
  · exact fun s pending => pending.outcome_none
  · intro s label s' pending step
    rcases pending.step fresh step with stays | ⟨_, _, _, rfl⟩
    · exact .inl stays
    · rw [(pending.ready step).2]
      exact .inr (.inr (pending.offCount misfit))
  · simp [nextBytes]

/-- The modes differ when a write is accepted in part and the next answer is not an empty transfer. -/
theorem not_modesAgree_partial {errno : Int} {capacity : Nat} (fresh : op.Fresh)
    (fits : firstCount op.nbyte capacity ≤ intMax)
    (again : firstCount op.nbyte capacity < op.nbyte ∧ 0 < firstCount op.nbyte capacity ∧ dir ≠ .read)
    (more : ∀ later, rest ≠ .transfers 0 :: later) :
    ¬ ModesAgree dir op errno (.transfers capacity :: rest) := by
  intro agree
  obtain ⟨s, reachable, seen⟩ := (agree _).mp (directIo_transfers fresh errno capacity)
  have length : (nextBytes op [] (firstCount op.nbyte capacity)).length =
      firstCount op.nbyte capacity := by simp [nextBytes]
  refine not_seen_offCount rfl (firstCount op.nbyte capacity)
    (fun s => Pending op (.transfers capacity :: rest) [] s ∨
      Pending op rest (nextBytes op [] (firstCount op.nbyte capacity)) s)
    ?_ ?_ ?_ length rfl reachable seen
  · rintro s rfl
    exact .inl (pending_initial fresh)
  · rintro s (pending | pending)
    · exact pending.outcome_none
    · exact pending.outcome_none
  · rintro s label s' (pending | pending) step
    · rcases pending.step fresh step with stays | ⟨_, _, _, rfl⟩
      · exact .inl (.inl stays)
      · exact .inl (.inr (pending.transfers_again fresh rfl fits (by simpa using again) step))
    · rcases pending.step fresh step with stays | ⟨answer, later, isRest, rfl⟩
      · exact .inl (.inr stays)
      · -- the second answer: an error, or more bytes than the other mode transfers
        subst isRest
        obtain ⟨calling, after⟩ := pending.ready step
        have sofar := pending.left.2
        rw [length] at sofar after
        rw [after]
        cases answer with
        | fails error hard =>
          refine .inr (.inr ?_)
          rw [FileAnswer.result, pending.inv.afterCall_fails fresh pending.unfinished hard]
          refine ⟨?_, fun ended => absurd rfl ended, ?_⟩
          · show accepted (⟨s.transfer.op, .fail error⟩ :: s.transfer.calls) = _
            rw [accepted_cons, SysResult.bytes, Nat.zero_add, sofar]
          · intro put isPut
            rw [List.mem_singleton.mp isPut]
            show (-1 : Int) ≠ _
            omega
        | transfers capacity' =>
          refine .inr (.inl ?_)
          rw [afterCall_calls, accepted_cons, sofar]
          have positive : capacity' ≠ 0 := fun isZero => more later (by rw [isZero])
          refine Nat.lt_add_of_pos_left ?_
          show 0 < min capacity' (min (op.nbyte - firstCount op.nbyte capacity) ssizeMax)
          exact lt_min (Nat.pos_of_ne_zero positive)
            (lt_min (Nat.sub_pos_of_lt again.1) (by decide))

end CilkL
