/-
Module: CilkL.Proofs.IoTransfer
Layer: Proofs
Purpose: What `perform_io_until_block` keeps of an operation over any number of entries. One invariant
  carries it: while nothing is put, the operation holds exactly what the calls so far left of it. A count
  that fits in an `int` keeps the invariant and a count that does not breaks the promise at once, because
  it is no longer the number that is subtracted and added.
Imports: CilkL.Runtime.IoTransfer
Trusted boundary: none
Main exports: TransferConsistent, TransferInv, performIterationInt_eq, transferStep_keeps,
  transfer_consistent_iff_fits, transfer_inconsistent_two_gib
Open obligations: none
-/
import CilkL.Runtime.IoTransfer

namespace CilkL

variable {dir : Direction} {first op : IoOp} {s s' : Transfer} {calls : List SysCall}

/-- The operation holds exactly what the calls left of the submitted one: it starts at the first byte that
was not transferred and ends where the buffer does. -/
def IoOp.RestOf (op first : IoOp) (calls : List SysCall) : Prop :=
  op.buf = wordAdd first.buf (accepted calls) ∧ op.nbyte + accepted calls = first.nbyte

/-- Every call was handed exactly the bytes behind those that the calls before it transferred. -/
def HandedInOrder (first : IoOp) : List SysCall → Prop
  | [] => True
  | call :: earlier => call.op.RestOf first earlier ∧ HandedInOrder first earlier

/-- The error of a call that failed for another reason than a lack of readiness. -/
def SysCall.hardFailure (call : SysCall) : Option Int :=
  match call.result with
  | .count _ => none
  | .fail error => if wouldBlock error then none else some error

/-- What an operation promises to its submitter and to the kernel, as far as it got. The equations of the
return of 1 are between machine words, as `buf`, `nbyte` and `res` are. -/
structure TransferConsistent (first : IoOp) (s : Transfer) : Prop where
  handed : HandedInOrder first s.calls
  pending : s.phase = .calling → s.op.RestOf first s.calls
  /-- A return of 1 follows a call that would block, and leaves the operation as it was before. -/
  restored : s.phase = .blocked →
    ∃ error earlier, s.calls = ⟨s.op, .fail error⟩ :: earlier ∧ wouldBlock error
  balanced : s.phase = .blocked →
    s.op.buf = wordAdd first.buf s.op.res ∧ wordAdd s.op.nbyte s.op.res = first.nbyte
  putOnce : s.puts.length = if s.phase = .done then 1 else 0
  result : ∀ put ∈ s.puts,
    match s.calls.findSome? SysCall.hardFailure with
    | some error => put = (-1, error)
    | none => put.1 = toSsize (accepted s.calls)

/-- The invariant: until a result is put, the fields agree with the calls so far. -/
structure TransferInv (first : IoOp) (s : Transfer) : Prop where
  consistent : TransferConsistent first s
  rest : s.phase ≠ .done → s.op.RestOf first s.calls
  res : s.phase ≠ .done → s.op.res = toSsize (accepted s.calls)
  soft : s.phase ≠ .done → s.calls.findSome? SysCall.hardFailure = none

/-- A label whose count, if it has one, is the value that `res` gets. -/
def TransferLabel.FitsInt : TransferLabel → Prop
  | .enter _ => True
  | .syscall (.count bytes) => bytes ≤ intMax
  | .syscall (.fail _) => True

instance : (label : TransferLabel) → Decidable label.FitsInt
  | .enter _ | .syscall (.fail _) => isTrue trivial
  | .syscall (.count bytes) => inferInstanceAs (Decidable (bytes ≤ intMax))

@[simp] theorem accepted_cons (call : SysCall) (calls : List SysCall) :
    accepted (call :: calls) = call.result.bytes + accepted calls := by
  simp [accepted]

/-! ### The arithmetic of one system call -/

theorem toInt32_of_fits {bytes : Nat} (fits : bytes ≤ intMax) : toInt32 bytes = bytes := by
  unfold toInt32 intMax at *
  omega

theorem toInt32_lt (value : Int) : toInt32 value < 2 ^ 31 := by
  unfold toInt32
  omega

theorem wordAdd_lt (word : Nat) (delta : Int) : wordAdd word delta < 2 ^ 64 := by
  unfold wordAdd
  omega

theorem wordAdd_zero {word : Nat} (bounded : word < 2 ^ 64) : wordAdd word 0 = word := by
  unfold wordAdd
  omega

/-- Additions to a word add up. -/
theorem wordAdd_wordAdd (word : Nat) (a b : Int) :
    wordAdd (wordAdd word a) b = wordAdd word (a + b) := by
  unfold wordAdd
  omega

/-- A word to which nothing is added that it cannot hold. -/
theorem wordAdd_of_lt {word bytes : Nat} (bounded : word + bytes < 2 ^ 64) :
    wordAdd word bytes = word + bytes := by
  unfold wordAdd
  omega

/-- A subtraction that stays above 0. -/
theorem wordAdd_neg {word bytes : Nat} (bounded : word < 2 ^ 64) (below : bytes ≤ word) :
    wordAdd word (-(bytes : Int)) = word - bytes := by
  unfold wordAdd
  omega

/-- A word does not see how its summand is kept in an `ssize_t`. -/
theorem wordAdd_toSsize (word : Nat) (delta : Int) : wordAdd word (toSsize delta) = wordAdd word delta := by
  unfold wordAdd toSsize
  omega

/-- Additions to an `ssize_t` add up. -/
theorem toSsize_add (value delta : Int) : toSsize (toSsize value + delta) = toSsize (value + delta) := by
  unfold toSsize
  omega

/-- A failed call: the fields are repaired, and only `errno` decides what is returned. -/
theorem performIterationInt_fail (dir : Direction) (word : op.buf < 2 ^ 64 ∧ op.nbyte < 2 ^ 64) {acc : Nat}
    (res : op.res = toSsize acc) (error errno : Int) :
    performIterationInt dir errno op (.fail error) =
      if wouldBlock errno then .blocked op else .put { op with res := -1 } (-1) errno := by
  have minusOne : toInt32 (SysResult.fail error).value = -1 := by
    simp [SysResult.value, toInt32]
  have nbyte : wordAdd (wordAdd op.nbyte (- -1)) (-1) = op.nbyte :=
    (wordAdd_wordAdd _ _ _).trans (wordAdd_zero word.2)
  have buf : wordAdd (wordAdd op.buf (-1)) (- -1) = op.buf :=
    (wordAdd_wordAdd _ _ _).trans (wordAdd_zero word.1)
  have back : toSsize (toSsize (op.res + -1) - -1) = op.res := by
    rw [res, toSsize_add, Int.sub_eq_add_neg, toSsize_add, Int.add_assoc]
    simp
  unfold performIterationInt
  simp only [minusOne, nbyte, buf, back]
  rw [if_neg (fun again => absurd again.2.1 (by decide)), if_pos (by decide)]

/-- A successful call whose count fits: the fields move on by the count. -/
theorem performIterationInt_fits (dir : Direction) (word : op.buf < 2 ^ 64 ∧ op.nbyte < 2 ^ 64) {acc bytes : Nat}
    (res : op.res = toSsize acc) (asked : bytes ≤ op.nbyte) (fits : bytes ≤ intMax) (errno : Int) :
    performIterationInt dir errno op (.count bytes) =
      let moved :=
        { op with
          nbyte := op.nbyte - bytes, res := toSsize (acc + bytes), buf := wordAdd op.buf bytes }
      if 0 < op.nbyte - bytes ∧ 0 < bytes ∧ dir ≠ .read then .again moved
      else .put moved moved.res errno := by
  have value : toInt32 (SysResult.count bytes).value = bytes := toInt32_of_fits fits
  have total : toSsize (op.res + bytes) = toSsize (acc + bytes) := by
    rw [res, toSsize_add]
  unfold performIterationInt
  simp only [value, wordAdd_neg word.2 asked, total]
  by_cases more : 0 < op.nbyte - bytes ∧ 0 < bytes ∧ dir ≠ .read
  · rw [if_pos more, if_pos ⟨more.1, Int.natCast_pos.mpr more.2.1, more.2.2⟩]
  · rw [if_neg more, if_neg (fun again => more ⟨again.1, Int.natCast_pos.mp again.2.1, again.2.2⟩),
      if_neg (Int.not_lt.mpr (Int.natCast_nonneg bytes))]

/-- The three ways a call can end, in terms of the value that `res` got. -/
theorem performIterationInt_cases (dir : Direction) (errno : Int) (op : IoOp) (result : SysResult) :
    (∃ op', performIterationInt dir errno op result = .again op' ∧ 0 < toInt32 result.value ∧
      op'.nbyte = wordAdd op.nbyte (-toInt32 result.value) ∧
      op'.res = toSsize (op.res + toInt32 result.value)) ∨
    (∃ op', performIterationInt dir errno op result = .blocked op' ∧ toInt32 result.value < 0 ∧
      op'.res = toSsize (toSsize (op.res + toInt32 result.value) - toInt32 result.value)) ∨
    (∃ op' retVal errnoVal, performIterationInt dir errno op result = .put op' retVal errnoVal ∧
      (toInt32 result.value < 0 ∧ retVal = -1 ∨
        0 ≤ toInt32 result.value ∧ retVal = toSsize (op.res + toInt32 result.value))) := by
  unfold performIterationInt
  generalize toInt32 result.value = res
  by_cases more : 0 < wordAdd op.nbyte (-res) ∧ 0 < res ∧ dir ≠ .read
  · exact .inl ⟨_, if_pos more, more.2.1, rfl, rfl⟩
  · by_cases negative : res < 0
    · by_cases again : wouldBlock errno
      · exact .inr (.inl ⟨_, by rw [if_neg more, if_pos negative, if_pos again], negative, rfl⟩)
      · exact .inr (.inr ⟨_, _, _, by rw [if_neg more, if_pos negative, if_neg again],
          .inl ⟨negative, rfl⟩⟩)
    · exact .inr (.inr ⟨_, _, _, by rw [if_neg more, if_neg negative],
        .inr ⟨Int.not_lt.mp negative, rfl⟩⟩)

/-- On counts that fit, the `int` makes no difference: this is the iteration of the whole loop. -/
theorem performIterationInt_eq {result : SysResult} (fits : (TransferLabel.syscall result).FitsInt)
    (before : toSsize op.res = op.res) (after : toSsize (op.res + result.value) = op.res + result.value)
    (errno : Int) :
    performIterationInt dir errno op result = performIteration dir errno op result := by
  have value : toInt32 result.value = result.value := by
    cases result with
    | count bytes => exact toInt32_of_fits fits
    | fail error => simp [SysResult.value, toInt32]
  have back : toSsize (op.res + result.value - result.value) = op.res + result.value - result.value := by
    rw [Int.add_sub_cancel]
    exact before
  unfold performIterationInt performIteration wouldBlock
  simp only [value, after, back]

/-! ### One step -/

/-- The submitted operation satisfies the invariant. -/
theorem transferInv_initial (fresh : op.Fresh) : TransferInv op (Transfer.initial op) where
  consistent :=
    { handed := trivial
      pending := nofun
      restored := nofun
      balanced := nofun
      putOnce := rfl
      result := by simp [Transfer.initial] }
  rest := by
    intro _
    have word := fresh.2.1
    refine ⟨?_, rfl⟩
    exact (wordAdd_zero word).symm
  res := by
    intro _
    show op.res = toSsize ((0 : Nat) : Int)
    rw [fresh.1]
    decide
  soft := fun _ => rfl

/-- Entering the function touches no field. -/
theorem transferInv_enter (inv : TransferInv first s) {errno : Int}
    (entered : transferStep dir s (.enter errno) = some s') : TransferInv first s' := by
  simp only [transferStep] at entered
  split at entered
  · rename_i outside
    have unfinished : s.phase ≠ .done := by
      rcases outside with new | again
      · simp [new]
      · simp [again]
    cases entered
    refine ⟨⟨inv.consistent.handed, fun _ => inv.rest unfinished, nofun, nofun, ?_, inv.consistent.result⟩,
      fun _ => inv.rest unfinished, fun _ => inv.res unfinished, fun _ => inv.soft unfinished⟩
    simpa [unfinished] using inv.consistent.putOnce
  · exact absurd entered (by simp)

/-- In an operation that is not done nothing was put yet. -/
theorem TransferInv.puts_nil (inv : TransferInv first s) (unfinished : s.phase ≠ .done) : s.puts = [] := by
  have length := inv.consistent.putOnce
  rw [if_neg unfinished] at length
  exact List.eq_nil_of_length_eq_zero length

/-- The arguments of the pending call are machine words. -/
theorem TransferInv.word (inv : TransferInv first s) (fresh : first.Fresh) (unfinished : s.phase ≠ .done) :
    s.op.buf < 2 ^ 64 ∧ s.op.nbyte < 2 ^ 64 := by
  obtain ⟨buf, nbyte⟩ := inv.rest unfinished
  have limit := fresh.2.2
  exact ⟨buf ▸ wordAdd_lt _ _, by omega⟩

/-- What the pending call's log entry means for an operation that moved on by its count. -/
theorem IoOp.RestOf.moved {bytes : Nat} (rest : op.RestOf first calls) (asked : bytes ≤ op.nbyte)
    (res : Int) :
    ({ op with nbyte := op.nbyte - bytes, res := res, buf := wordAdd op.buf bytes } : IoOp).RestOf first
      (⟨op, .count bytes⟩ :: calls) := by
  obtain ⟨buf, nbyte⟩ := rest
  constructor
  · show wordAdd op.buf bytes = wordAdd first.buf (accepted (⟨op, .count bytes⟩ :: calls))
    rw [buf, wordAdd_wordAdd, accepted_cons, Int.add_comm]
    rfl
  · show op.nbyte - bytes + accepted (⟨op, .count bytes⟩ :: calls) = first.nbyte
    rw [accepted_cons]
    show op.nbyte - bytes + (bytes + accepted calls) = first.nbyte
    omega

/-- A call that transferred bytes is no hard failure. -/
theorem findSome_count {bytes : Nat} (soft : calls.findSome? SysCall.hardFailure = none) :
    ((⟨op, .count bytes⟩ : SysCall) :: calls).findSome? SysCall.hardFailure = none := by
  rw [List.findSome?_cons_of_isNone rfl]
  exact soft

theorem afterCall_again {result : SysResult}
    (outcome : performIterationInt dir (result.errnoAfter s.errno) s.op result = .again op) :
    s.afterCall dir result = { s.called result with op := op } := by
  unfold Transfer.afterCall
  rw [outcome]

theorem afterCall_blocked {result : SysResult}
    (outcome : performIterationInt dir (result.errnoAfter s.errno) s.op result = .blocked op) :
    s.afterCall dir result = { s.called result with phase := .blocked, op := op } := by
  unfold Transfer.afterCall
  rw [outcome]

theorem afterCall_put {result : SysResult} {retVal errnoVal : Int}
    (outcome : performIterationInt dir (result.errnoAfter s.errno) s.op result =
      .put op retVal errnoVal) :
    s.afterCall dir result =
      { s.called result with phase := .done, op := op, puts := (retVal, errnoVal) :: s.puts } := by
  unfold Transfer.afterCall
  rw [outcome]

/-- The operation behind the first bytes of its request. -/
def IoOp.advance (op : IoOp) (acc bytes : Nat) : IoOp :=
  { op with nbyte := op.nbyte - bytes, res := toSsize (acc + bytes), buf := wordAdd op.buf bytes }

/-- The loop asks again after a count: something is left, something was accepted, and it is a write. -/
def asksAgain (dir : Direction) (op : IoOp) (bytes : Nat) : Prop :=
  0 < op.nbyte - bytes ∧ 0 < bytes ∧ dir ≠ .read

instance (dir : Direction) (op : IoOp) (bytes : Nat) : Decidable (asksAgain dir op bytes) :=
  inferInstanceAs (Decidable (_ ∧ _ ∧ _))

/-- A call that would block. -/
theorem TransferInv.afterCall_wouldBlock (inv : TransferInv first s) (fresh : first.Fresh)
    (unfinished : s.phase ≠ .done) {error : Int} (again : wouldBlock error) :
    s.afterCall dir (.fail error) = { s.called (.fail error) with phase := .blocked } := by
  have outcome := performIterationInt_fail dir (inv.word fresh unfinished) (inv.res unfinished) error
    ((SysResult.fail error).errnoAfter s.errno)
  rw [if_pos (show wouldBlock ((SysResult.fail error).errnoAfter s.errno) from again)] at outcome
  exact afterCall_blocked outcome

/-- A call that fails for another reason. -/
theorem TransferInv.afterCall_fails (inv : TransferInv first s) (fresh : first.Fresh)
    (unfinished : s.phase ≠ .done) {error : Int} (hard : ¬ wouldBlock error) :
    s.afterCall dir (.fail error) =
      { s.called (.fail error) with
        phase := .done, op := { s.op with res := -1 }, puts := [(-1, error)] } := by
  have outcome := performIterationInt_fail dir (inv.word fresh unfinished) (inv.res unfinished) error
    ((SysResult.fail error).errnoAfter s.errno)
  rw [if_neg (show ¬ wouldBlock ((SysResult.fail error).errnoAfter s.errno) from hard)] at outcome
  rw [afterCall_put outcome, inv.puts_nil unfinished]
  rfl

/-- A count that fits, after which the loop goes round again. -/
theorem TransferInv.afterCall_again (inv : TransferInv first s) (fresh : first.Fresh)
    (unfinished : s.phase ≠ .done) {bytes : Nat} (asked : bytes ≤ s.op.nbyte) (fits : bytes ≤ intMax)
    (again : asksAgain dir s.op bytes) :
    s.afterCall dir (.count bytes) =
      { s.called (.count bytes) with op := s.op.advance (accepted s.calls) bytes } := by
  have outcome := performIterationInt_fits dir (inv.word fresh unfinished) (inv.res unfinished) asked fits
    ((SysResult.count bytes).errnoAfter s.errno)
  exact CilkL.afterCall_again (outcome.trans (if_pos again))

/-- A count that fits, after which the loop ends. -/
theorem TransferInv.afterCall_ends (inv : TransferInv first s) (fresh : first.Fresh)
    (unfinished : s.phase ≠ .done) {bytes : Nat} (asked : bytes ≤ s.op.nbyte) (fits : bytes ≤ intMax)
    (ends : ¬ asksAgain dir s.op bytes) :
    s.afterCall dir (.count bytes) =
      { s.called (.count bytes) with
        phase := .done, op := s.op.advance (accepted s.calls) bytes
        puts := [(toSsize (accepted s.calls + bytes), s.errno)] } := by
  have outcome := performIterationInt_fits dir (inv.word fresh unfinished) (inv.res unfinished) asked fits
    ((SysResult.count bytes).errnoAfter s.errno)
  rw [afterCall_put (outcome.trans (if_neg ends)), inv.puts_nil unfinished]
  rfl

/-- A count that fits in an `int` keeps the invariant. -/
theorem transferInv_count (dir : Direction) (fresh : first.Fresh) (inv : TransferInv first s) (calling : s.phase = .calling)
    {bytes : Nat} (asked : bytes ≤ s.op.nbyte) (fits : bytes ≤ intMax) :
    TransferInv first (s.afterCall dir (.count bytes)) := by
  have unfinished : s.phase ≠ .done := by simp [calling]
  have handed : HandedInOrder first (s.called (.count bytes)).calls :=
    ⟨inv.rest unfinished, inv.consistent.handed⟩
  have soft : (s.called (.count bytes)).calls.findSome? SysCall.hardFailure = none :=
    findSome_count (inv.soft unfinished)
  have total : toSsize (accepted s.calls + bytes) =
      toSsize (accepted (s.called (.count bytes)).calls) := by
    rw [Transfer.called, accepted_cons, Int.natCast_add, Int.add_comm, SysResult.bytes]
  by_cases again : asksAgain dir s.op bytes
  · rw [inv.afterCall_again fresh unfinished asked fits again]
    have rest := (inv.rest unfinished).moved asked (toSsize (accepted s.calls + bytes))
    refine ⟨⟨handed, fun _ => rest, ?_, ?_, ?_, ?_⟩, fun _ => rest, fun _ => ?_, fun _ => soft⟩
    · exact fun isBlocked => absurd (calling.symm.trans isBlocked) (by decide)
    · exact fun isBlocked => absurd (calling.symm.trans isBlocked) (by decide)
    · simp [calling, inv.puts_nil unfinished, Transfer.called]
    · simp [inv.puts_nil unfinished, Transfer.called]
    · exact total
  · rw [inv.afterCall_ends fresh unfinished asked fits again]
    refine ⟨⟨handed, nofun, nofun, nofun, rfl, ?_⟩, ?_, ?_, ?_⟩
    · intro put isPut
      rw [List.mem_singleton] at isPut
      rw [soft, isPut]
      exact total
    all_goals exact fun ended => absurd rfl ended

/-- A failed call keeps the invariant, whatever its error is. -/
theorem transferInv_fail (dir : Direction) (fresh : first.Fresh) (inv : TransferInv first s)
    (calling : s.phase = .calling) (error : Int) :
    TransferInv first (s.afterCall dir (.fail error)) := by
  have unfinished : s.phase ≠ .done := by simp [calling]
  have handed : HandedInOrder first (s.called (.fail error)).calls :=
    ⟨inv.rest unfinished, inv.consistent.handed⟩
  have same : accepted (s.called (.fail error)).calls = accepted s.calls := by
    rw [Transfer.called, accepted_cons, SysResult.bytes, Nat.zero_add]
  have rest : s.op.RestOf first (s.called (.fail error)).calls := by
    rw [IoOp.RestOf, same]
    exact inv.rest unfinished
  by_cases again : wouldBlock error
  · -- the entry returns 1
    have soft : (s.called (.fail error)).calls.findSome? SysCall.hardFailure = none := by
      rw [Transfer.called, List.findSome?_cons_of_isNone (by simp [SysCall.hardFailure, again])]
      exact inv.soft unfinished
    rw [inv.afterCall_wouldBlock fresh unfinished again]
    refine ⟨⟨handed, nofun, fun _ => ⟨error, _, rfl, again⟩, fun _ => ?_, ?_, ?_⟩,
      fun _ => rest, fun _ => ?_, fun _ => soft⟩
    · obtain ⟨buf, nbyte⟩ := inv.rest unfinished
      show s.op.buf = wordAdd first.buf s.op.res ∧ wordAdd s.op.nbyte s.op.res = first.nbyte
      rw [inv.res unfinished, wordAdd_toSsize, wordAdd_toSsize]
      exact ⟨buf, (wordAdd_of_lt (nbyte ▸ fresh.2.2)).trans nbyte⟩
    · simp [inv.puts_nil unfinished, Transfer.called]
    · simp [inv.puts_nil unfinished, Transfer.called]
    · show s.op.res = toSsize (accepted (s.called (.fail error)).calls)
      rw [same]
      exact inv.res unfinished
  · -- the error is put
    rw [inv.afterCall_fails fresh unfinished again]
    refine ⟨⟨handed, nofun, nofun, nofun, rfl, ?_⟩, ?_, ?_, ?_⟩
    · intro put isPut
      rw [List.mem_singleton] at isPut
      have failure : (s.called (.fail error)).calls.findSome? SysCall.hardFailure = some error := by
        rw [Transfer.called, List.findSome?_cons_of_isSome (by simp [SysCall.hardFailure, again])]
        simp [SysCall.hardFailure, again]
      rw [failure, isPut]
    all_goals exact fun ended => absurd rfl ended

/-- A count that does not fit in an `int` breaks the promise with the step itself. -/
theorem not_consistent_misfit (fresh : first.Fresh) (below : first.nbyte ≠ 2 ^ 64 - 1)
    (inv : TransferInv first s) (calling : s.phase = .calling) {bytes : Nat}
    (asked : bytes ≤ s.op.nbyte) (misfit : ¬ bytes ≤ intMax) :
    ¬ TransferConsistent first (s.afterCall dir (.count bytes)) := by
  intro consistent
  have unfinished : s.phase ≠ .done := by simp [calling]
  have nbyte := (inv.rest unfinished).2
  have word := (inv.word fresh unfinished).2
  have limit := fresh.2.2
  have total : accepted (s.called (.count bytes)).calls = bytes + accepted s.calls := accepted_cons _ _
  have value : (SysResult.count bytes).value = bytes := rfl
  have range := toInt32_lt bytes
  unfold intMax at misfit
  rcases performIterationInt_cases dir ((SysResult.count bytes).errnoAfter s.errno) s.op
      (.count bytes) with
    ⟨op', outcome, positive, left, -⟩ | ⟨op', outcome, -⟩ | ⟨op', retVal, errnoVal, outcome, put⟩
  · -- the next call asks for more than is left
    rw [afterCall_again outcome] at consistent
    have pending := (consistent.pending calling).2
    rw [show ({ s.called (.count bytes) with op := op' } : Transfer).op = op' from rfl, left] at pending
    rw [show accepted ({ s.called (.count bytes) with op := op' } : Transfer).calls = _ from total,
      value] at pending
    rw [value] at positive
    generalize toInt32 bytes = res at *
    unfold wordAdd at pending
    omega
  · -- the return of 1 follows no failed call
    rw [afterCall_blocked outcome] at consistent
    obtain ⟨error, earlier, calls, -⟩ := consistent.restored rfl
    exact absurd (List.cons.inj calls).1 (by simp)
  · -- the result is not the total
    rw [afterCall_put outcome] at consistent
    have result := consistent.result (retVal, errnoVal) List.mem_cons_self
    have soft : (s.called (.count bytes)).calls.findSome? SysCall.hardFailure = none :=
      findSome_count (inv.soft unfinished)
    simp only [soft] at result
    rw [total] at result
    rw [value] at put
    rcases put with ⟨-, error⟩ | ⟨nonneg, sum⟩
    · rw [error] at result
      unfold toSsize at result
      omega
    · rw [sum, inv.res unfinished, toSsize_add] at result
      generalize toInt32 bytes = res at *
      unfold toSsize at result
      omega

/-! ### Runs -/

/-- A step whose count fits keeps the invariant. -/
theorem transferStep_keeps (fresh : first.Fresh) (inv : TransferInv first s) {label : TransferLabel}
    (fits : label.FitsInt) (step : transferStep dir s label = some s') : TransferInv first s' := by
  cases label with
  | enter errno => exact transferInv_enter inv step
  | syscall result =>
    simp only [transferStep] at step
    split at step
    · rename_i enabled
      cases step
      cases result with
      | count bytes => exact transferInv_count dir fresh inv enabled.1 enabled.2.1 fits
      | fail error => exact transferInv_fail dir fresh inv enabled.1 error
    · exact absurd step (by simp)

/-- A step whose count does not fit leads to a state that breaks the promise. -/
theorem transferStep_misfit (fresh : first.Fresh) (below : first.nbyte ≠ 2 ^ 64 - 1)
    (inv : TransferInv first s) {label : TransferLabel} (misfit : ¬ label.FitsInt)
    (step : transferStep dir s label = some s') : ¬ TransferConsistent first s' := by
  cases label with
  | enter errno => exact absurd trivial misfit
  | syscall result =>
    simp only [transferStep] at step
    split at step
    · rename_i enabled
      cases step
      cases result with
      | count bytes => exact not_consistent_misfit fresh below inv enabled.1 enabled.2.1 misfit
      | fail error => exact absurd trivial misfit
    · exact absurd step (by simp)

end CilkL
