/-
Module: CilkL.Proofs.FiberQueueBound
Layer: Proofs
Purpose: The queue of future fibers is not ahead of the queue of frames. `fiber_tail` counts the futures
  among the frames whose detach the worker has to undo, stolen or not, and `tail` is at least as far as
  there are such frames. A return to a stolen parent resets the fibers and gives up the frames together;
  an exception gives up the frames alone, and what it leaves in the queue is never taken off again.
Imports: CilkL.Proofs.FutureFiberQueue
Trusted boundary: none (fully proved)
Main exports: FiberBound, FiberQueueWithin, ExceptionsResetFibers, fiber_queue_within
Open obligations: none
-/
import CilkL.Proofs.FutureFiberQueue

namespace CilkL

variable {φ : Type}

/-- The futures on a stack of frames are at most as many as the frames. -/
theorem futures_length_le (frames : List (Pushed (Option φ))) :
    (futures frames).length ≤ frames.length := List.length_filterMap_le _ _

/-- The last frame of a stack taken off its futures. -/
theorem futures_dropLast (frames : List (Pushed (Option φ))) :
    futures frames = futures frames.dropLast ++ futures frames.getLast?.toList := by
  rw [← futures_append]
  congr 1
  rcases List.eq_nil_or_concat frames with rfl | ⟨init, last, rfl⟩
  · rfl
  · simp

section Stack

variable {α : Type} {s s' : TheState α} {label : TheLabel α}

/-- No more frames are on the owner's call stack than `tail` has passed. -/
def TheState.StackWithin (s : TheState α) : Prop := (s.spawned.length : Int) ≤ s.tail + s.owner.owed

/-- The steps of the THE protocol keep the stack within `tail`. -/
theorem TheInv.stackWithin (inv : TheInv s) (within : s.StackWithin)
    (taken : theStep s label = some s') : s'.StackWithin := by
  unfold TheState.StackWithin at within ⊢
  have locals := inv.ownerLocals
  unfold TheState.OwnerLocals at locals
  by_cases foreign : label.Foreign
  · obtain ⟨owner, -, tail, spawned⟩ := theStep_foreign foreign taken
    rw [spawned, tail]
    rcases owner with same | ⟨suspended, running⟩
    · rwa [same]
    · rw [suspended] at within
      rw [running]
      exact within
  cases label <;> simp only [TheLabel.Foreign, not_true_eq_false] at foreign <;>
    simp only [theStep] at taken
  case pushSlot frame => grind -linarith [OwnerPc.owed]
  case pushTail =>
    split at taken
    · rename_i pc
      obtain rfl := Option.some.inj taken
      have new : (s.ltq s.tail).toList.length ≤ 1 := by cases s.ltq s.tail <;> simp
      simp only [pc, OwnerPc.owed, List.length_append] at within ⊢
      push_cast
      omega
    · cases taken
  case popDecrement => grind -linarith [OwnerPc.owed]
  case popCompare =>
    split at taken
    · rename_i t pc
      simp only [pc] at within locals
      split at taken
      · obtain rfl := Option.some.inj taken
        simpa [OwnerPc.owed] using within
      · obtain rfl := Option.some.inj taken
        have shorter : (s.spawned.dropLast.length : Int) + 1 = s.spawned.length := by
          have := List.length_pos_iff.mpr locals.2
          rw [List.length_dropLast]
          omega
        simp only [popSucceed, OwnerPc.owed] at within ⊢
        omega
    · cases taken
  case popLock => grind -linarith [OwnerPc.owed]
  case popReset => grind -linarith [OwnerPc.owed]
  case popTest =>
    split at taken
    · rename_i pc
      simp only [pc] at within locals
      split at taken
      · obtain rfl := Option.some.inj taken
        simp only [OwnerPc.owed, List.length_nil] at within ⊢
        omega
      · obtain rfl := Option.some.inj taken
        have shorter : (s.spawned.dropLast.length : Int) + 1 = s.spawned.length := by
          have := List.length_pos_iff.mpr locals
          rw [List.length_dropLast]
          omega
        simp only [popSucceed, OwnerPc.owed] at within ⊢
        omega
    · cases taken
  case popUndo => grind -linarith [OwnerPc.owed]
  case ownerUnlock => grind -linarith [OwnerPc.owed]
  case suspend => grind -linarith [OwnerPc.owed]
  case setupLock => grind -linarith [OwnerPc.owed]
  case setupTail => grind -linarith [OwnerPc.owed]
  case setupHead => grind -linarith [OwnerPc.owed]
  case setupExc => grind -linarith [OwnerPc.owed]

/-- Only a push and the owner's two tests change the stack. -/
theorem theStep_spawned (notPush : label ≠ .pushTail) (notCompare : label ≠ .popCompare)
    (notTest : label ≠ .popTest) (taken : theStep s label = some s') : s'.spawned = s.spawned := by
  cases label <;> simp only [theStep] at taken <;> (repeat' split at taken) <;> simp_all <;>
    subst taken <;> rfl

end Stack

/-- The owner is between the return to a stolen parent and the reset of the queue. -/
def FiberOwnerPc.Resetting : FiberOwnerPc φ → Prop
  | .resetHead | .resetTail => True
  | _ => False

/-- How far the queue of future fibers has got, in a deque whose arrays have `ltqsize` slots. -/
structure FiberBound (ltqsize : Int) (s : FiberState φ) : Prop where
  queue : FiberInv s
  stack : s.the.StackWithin
  limit : s.fiberLtqLimit = ltqsize
  nonneg : 0 ≤ s.fiberTail
  below : s.fiberTail < ltqsize
  asserted : ∀ fiber, s.owner = .enqueueTail fiber → s.fiberTail + 1 < ltqsize
  /-- The queue has counted the futures of the stack. -/
  futures : ¬ s.owner.Resetting →
    s.fiberTail = (futures s.the.spawned).length + s.owner.extra.length
  /-- Until it is reset it is not ahead of `tail` either. -/
  stale : s.owner.Resetting → s.fiberTail ≤ s.the.tail + s.the.owner.owed
  reset : s.owner = .resetTail → s.fiberHead = 0

section Steps

variable {ltqsize : Int} {s s' : FiberState φ}

theorem FiberBound.of_initial (protectedTail : Int) (slots : 0 < ltqsize) :
    FiberBound ltqsize (.initial φ ltqsize protectedTail ltqsize) where
  queue := .of_initial ltqsize protectedTail ltqsize
  stack := by simp [TheState.StackWithin, FiberState.initial, TheState.initial, OwnerPc.owed]
  limit := rfl
  nonneg := Int.le_refl 0
  below := slots
  asserted := by simp [FiberState.initial]
  futures := by simp [FiberState.initial, TheState.initial, CilkL.futures]
  stale := by simp [FiberState.initial, FiberOwnerPc.Resetting]
  reset := by simp [FiberState.initial]

/-- What a step of the THE protocol does to the stack and to the queue's count of it. -/
theorem FiberBound.count_the {label : TheLabel (Option φ)} {the : TheState (Option φ)}
    (bound : FiberBound ltqsize s) (allowed : s.owner.Allows label)
    (taken : theStep s.the label = some the)
    (counts : ¬ (s.owner.next label s.the the).Resetting) :
    ((CilkL.futures the.spawned).length + (s.owner.next label s.the the).extra.length : Int) =
      s.fiberTail := by
  have before : ¬ s.owner.Resetting := by
    intro resetting
    refine counts ?_
    cases owner : s.owner <;> simp only [owner, FiberOwnerPc.Resetting] at resetting <;>
      cases label <;> simp [owner, FiberOwnerPc.Allows, TheLabel.Foreign, FiberOwnerPc.payload] at allowed <;>
      trivial
  have count := bound.futures before
  by_cases push : label = .pushTail
  · subst push
    obtain ⟨pc, -, -⟩ := unread_pushTail taken
    obtain ⟨window, ticket, stored⟩ := bound.queue.pushing pc
    have extra : s.owner.extra = s.owner.payload.toList := by
      cases owner : s.owner <;> simp [owner, FiberOwnerPc.payload] at window <;> rfl
    have spawned : the.spawned = s.the.spawned ++ [⟨ticket, s.owner.payload⟩] := by
      simp only [theStep, pc, stored, Option.some.injEq] at taken
      subst taken
      rfl
    rw [count, extra, spawned, futures_append]
    cases s.owner.payload <;> simp [CilkL.futures, FiberOwnerPc.next, FiberOwnerPc.extra]
  by_cases compare : label = .popCompare
  · subst compare
    have idle : s.owner = .idle := by simpa [FiberOwnerPc.Allows, TheLabel.Foreign] using allowed
    simp only [idle, FiberOwnerPc.extra_idle, List.length_nil] at count
    simp only [theStep] at taken
    split at taken
    · split at taken
      · obtain rfl := Option.some.inj taken
        simp [FiberOwnerPc.next, idle, count]
      · obtain rfl := Option.some.inj taken
        simp only [FiberOwnerPc.next, popSucceed, FiberOwnerPc.extra_afterPop]
        rw [count, futures_dropLast s.the.spawned, List.length_append]
        simp
    · cases taken
  by_cases test : label = .popTest
  · subst test
    have idle : s.owner = .idle := by simpa [FiberOwnerPc.Allows, TheLabel.Foreign] using allowed
    simp only [idle, FiberOwnerPc.extra_idle, List.length_nil] at count
    simp only [theStep] at taken
    split at taken
    · split at taken
      · obtain rfl := Option.some.inj taken
        exact absurd trivial counts
      · obtain rfl := Option.some.inj taken
        simp only [FiberOwnerPc.next, popSucceed, FiberOwnerPc.extra_afterPop]
        rw [count, futures_dropLast s.the.spawned, List.length_append]
        simp
    · cases taken
  have next : s.owner.next label s.the the = s.owner := by
    cases label <;> first | rfl | simp at push compare test
  rw [theStep_spawned push compare test taken, next, count]

/-- The queue is not ahead of `tail`, but for a frame that is about to be pushed or has just been popped. -/
theorem FiberBound.within (bound : FiberBound ltqsize s) :
    s.fiberTail ≤ s.the.tail + s.the.owner.owed + s.owner.extra.length := by
  by_cases resetting : s.owner.Resetting
  · have stale := bound.stale resetting
    omega
  · have count := bound.futures resetting
    have stack := bound.stack
    have futures := futures_length_le s.the.spawned
    unfold TheState.StackWithin at stack
    omega

/-- While the queue waits for its reset neither it nor `tail` moves. -/
theorem FiberBound.stale_the {label : TheLabel (Option φ)} {the : TheState (Option φ)}
    (bound : FiberBound ltqsize s) (allowed : s.owner.Allows label) (resetting : s.owner.Resetting)
    (taken : theStep s.the label = some the) : s.fiberTail ≤ the.tail + the.owner.owed := by
  have stale := bound.stale resetting
  by_cases foreign : label.Foreign
  · obtain ⟨owner, -, tail, -⟩ := theStep_foreign foreign taken
    rw [tail]
    rcases owner with same | ⟨suspended, running⟩
    · rwa [same]
    · rw [suspended] at stale
      rw [running]
      exact stale
  · cases owner : s.owner <;> simp only [owner, FiberOwnerPc.Resetting] at resetting <;>
      cases label <;>
        simp [owner, FiberOwnerPc.Allows, TheLabel.Foreign, FiberOwnerPc.payload] at allowed foreign <;>
        simp only [theStep] at taken <;> grind -linarith [OwnerPc.owed]

/-- The invariant after a step of the THE protocol. -/
theorem FiberBound.of_the [DecidableEq φ] {label : TheLabel (Option φ)}
    (bound : FiberBound ltqsize s) (taken : fiberStep s (.the label) = some s') :
    FiberBound ltqsize s' := by
  have queue := bound.queue.of_the taken
  simp only [fiberStep] at taken
  split at taken
  · rename_i due
    obtain ⟨allowed, held⟩ := due
    cases stepped : theStep s.the label with
    | none => simp [stepped] at taken
    | some the =>
        rw [stepped, Option.some.injEq] at taken
        subst taken
        have stack := bound.queue.the.stackWithin bound.stack stepped
        have leaves := s.owner.next_cases label s.the the
        refine ⟨queue, stack, bound.limit, bound.nonneg, bound.below, ?_, ?_, ?_, ?_⟩
        · intro fiber pc
          rcases leaves with same | idle | ⟨popped, popping⟩ | ⟨resetHead, -⟩
          · exact bound.asserted fiber (same.symm.trans pc)
          · cases idle.symm.trans pc
          · cases popping.symm.trans pc
          · cases resetHead.symm.trans pc
        · exact fun counts => (bound.count_the allowed stepped counts).symm
        · intro resetting
          change (s.owner.next label s.the the).Resetting at resetting
          rcases leaves with same | idle | ⟨popped, popping⟩ | ⟨-, rfl, undo⟩
          · rw [same] at resetting
            exact bound.stale_the allowed resetting stepped
          · simp [idle, FiberOwnerPc.Resetting] at resetting
          · simp [popping, FiberOwnerPc.Resetting] at resetting
          · have idle : s.owner = .idle := by
              simpa [FiberOwnerPc.Allows, TheLabel.Foreign] using allowed
            have within := bound.within
            obtain ⟨pc, -⟩ := bound.queue.the.unread_popTest stepped
            have tail : the.tail = s.the.tail := by
              simp only [theStep, pc] at stepped
              split at stepped <;> (obtain rfl := Option.some.inj stepped; rfl)
            simpa [idle, pc, undo, tail, OwnerPc.owed] using within
        · intro pc
          rcases leaves with same | idle | ⟨popped, popping⟩ | ⟨resetHead, -⟩
          · exact bound.reset (same.symm.trans pc)
          · cases idle.symm.trans pc
          · cases popping.symm.trans pc
          · cases resetHead.symm.trans pc
  · simp at taken

section Queue

variable [DecidableEq φ]

theorem FiberBound.of_switchFibers {fiber : φ} (bound : FiberBound ltqsize s)
    (taken : fiberStep s (.switchFibers fiber) = some s') : FiberBound ltqsize s' := by
  have queue := bound.queue.of_switchFibers taken
  simp only [fiberStep] at taken
  split at taken
  · rename_i due
    obtain rfl := Option.some.inj taken
    have count := bound.futures (by simp [due.1, FiberOwnerPc.Resetting])
    refine ⟨queue, bound.stack, bound.limit, bound.nonneg, bound.below, by simp, ?_, ?_, by simp⟩
    · intro _
      simpa [due.1, FiberOwnerPc.extra] using count
    · intro resetting
      cases resetting
  · simp at taken

theorem FiberBound.of_enqueueStore (bound : FiberBound ltqsize s)
    (taken : fiberStep s .enqueueStore = some s') : FiberBound ltqsize s' := by
  have queue := bound.queue.of_enqueueStore taken
  cases pc : s.owner <;> simp [fiberStep, pc] at taken
  subst taken
  have count := bound.futures (by simp [pc, FiberOwnerPc.Resetting])
  refine ⟨queue, bound.stack, bound.limit, bound.nonneg, bound.below, by simp, ?_, ?_, by simp⟩
  · intro _
    simpa [pc, FiberOwnerPc.extra] using count
  · intro resetting
    cases resetting

theorem FiberBound.of_enqueueAssert (bound : FiberBound ltqsize s)
    (taken : fiberStep s .enqueueAssert = some s') : FiberBound ltqsize s' := by
  have queue := bound.queue.of_enqueueAssert taken
  cases pc : s.owner <;> simp [fiberStep, pc] at taken
  subst taken
  have count := bound.futures (by simp [pc, FiberOwnerPc.Resetting])
  have limit := bound.limit
  refine ⟨queue, bound.stack, limit, bound.nonneg, bound.below, ?_, ?_, ?_, ?_⟩
  · intro fiber room
    dsimp only at room ⊢
    split at room
    · omega
    · cases room
  · intro _
    dsimp only
    split <;> simpa [pc, FiberOwnerPc.extra] using count
  · intro resetting
    dsimp only at resetting
    split at resetting <;> cases resetting
  · intro reset
    dsimp only at reset
    split at reset <;> cases reset

theorem FiberBound.of_enqueueTail (bound : FiberBound ltqsize s)
    (taken : fiberStep s .enqueueTail = some s') : FiberBound ltqsize s' := by
  have queue := bound.queue.of_enqueueTail taken
  cases pc : s.owner <;> simp [fiberStep, pc] at taken
  rename_i fiber
  subst taken
  have count := bound.futures (by simp [pc, FiberOwnerPc.Resetting])
  have nonneg := bound.nonneg
  refine ⟨queue, bound.stack, bound.limit, ?_, bound.asserted fiber pc, by simp, ?_, ?_, by simp⟩
  · dsimp only
    omega
  · intro _
    simpa [pc, FiberOwnerPc.extra] using count
  · intro resetting
    cases resetting

theorem FiberBound.of_popTailRead (bound : FiberBound ltqsize s)
    (taken : fiberStep s .popTailRead = some s') : FiberBound ltqsize s' := by
  have queue := bound.queue.of_popTailRead taken
  cases pc : s.owner <;> cases running : s.the.owner <;> simp [fiberStep, pc, running] at taken
  subst taken
  have count := bound.futures (by simp [pc, FiberOwnerPc.Resetting])
  refine ⟨queue, bound.stack, bound.limit, bound.nonneg, bound.below, by simp, ?_, ?_, by simp⟩
  · intro _
    simpa [pc, FiberOwnerPc.extra] using count
  · intro resetting
    cases resetting

theorem FiberBound.of_popTailAssert (bound : FiberBound ltqsize s)
    (taken : fiberStep s .popTailAssert = some s') : FiberBound ltqsize s' := by
  have queue := bound.queue.of_popTailAssert taken
  cases pc : s.owner <;> simp [fiberStep, pc] at taken
  rename_i fiber t
  subst taken
  have count := bound.futures (by simp [pc, FiberOwnerPc.Resetting])
  have holds : s.fiberHead ≤ t := by
    by_contra fails
    simp only [fails, ↓reduceIte] at queue
    exact queue.position
  simp only [holds, ↓reduceIte] at queue ⊢
  refine ⟨queue, bound.stack, bound.limit, bound.nonneg, bound.below, by simp, ?_, ?_, by simp⟩
  · intro _
    simpa [pc, FiberOwnerPc.extra] using count
  · intro resetting
    cases resetting

theorem FiberBound.of_popTailStore (bound : FiberBound ltqsize s)
    (taken : fiberStep s .popTailStore = some s') : FiberBound ltqsize s' := by
  have queue := bound.queue.of_popTailStore taken
  cases pc : s.owner <;> simp [fiberStep, pc] at taken
  rename_i fiber t
  subst taken
  have count := bound.futures (by simp [pc, FiberOwnerPc.Resetting])
  have tEq : t = s.fiberTail - 1 := by simpa [pc, FiberOwnerPc.Slots] using bound.queue.slots
  simp only [pc, FiberOwnerPc.extra, List.length_singleton] at count
  have below := bound.below
  refine ⟨queue, bound.stack, bound.limit, ?_, ?_, by simp, ?_, ?_, by simp⟩
  · dsimp only
    omega
  · dsimp only
    omega
  · intro _
    simp only [FiberOwnerPc.extra, List.length_nil]
    omega
  · intro resetting
    cases resetting

theorem FiberBound.of_popTailReturn (bound : FiberBound ltqsize s)
    (taken : fiberStep s .popTailReturn = some s') : FiberBound ltqsize s' := by
  have queue := bound.queue.of_popTailReturn taken
  cases pc : s.owner <;> simp [fiberStep, pc] at taken
  subst taken
  have count := bound.futures (by simp [pc, FiberOwnerPc.Resetting])
  refine ⟨queue, bound.stack, bound.limit, bound.nonneg, bound.below, by simp, ?_, ?_, by simp⟩
  · intro _
    simpa [pc, FiberOwnerPc.extra] using count
  · intro resetting
    cases resetting

theorem FiberBound.of_resetHead (bound : FiberBound ltqsize s)
    (taken : fiberStep s .resetHead = some s') : FiberBound ltqsize s' := by
  have queue := bound.queue.of_resetHead taken
  cases pc : s.owner <;> cases running : s.the.owner <;> simp [fiberStep, pc, running] at taken
  subst taken
  have stale := bound.stale (by simp [pc, FiberOwnerPc.Resetting])
  exact ⟨queue, bound.stack, bound.limit, bound.nonneg, bound.below, by simp,
    fun counts => absurd trivial counts, fun _ => stale, fun _ => rfl⟩

theorem FiberBound.of_resetTail (bound : FiberBound ltqsize s)
    (taken : fiberStep s .resetTail = some s') : FiberBound ltqsize s' := by
  have queue := bound.queue.of_resetTail taken
  cases pc : s.owner <;> simp [fiberStep, pc] at taken
  subst taken
  have head := bound.reset pc
  have nonneg := bound.nonneg
  have below := bound.below
  have spawned := (bound.queue.resetting (.inr pc)).1
  refine ⟨queue, bound.stack, bound.limit, ?_, ?_, by simp, ?_, ?_, by simp⟩
  · dsimp only
    omega
  · dsimp only
    omega
  · intro _
    simp [head, spawned, CilkL.futures]
  · intro resetting
    cases resetting

omit [DecidableEq φ] in
/-- A thief's pop of a fiber is at the other end. -/
theorem FiberBound.of_popHead {fiberHead : Int} {thief : FiberThiefPc φ} {headPops : List (FiberPop φ)}
    (bound : FiberBound ltqsize s)
    (queue : FiberInv { s with fiberHead := fiberHead, thief := thief, headPops := headPops })
    (reset : s.owner ≠ .resetTail) :
    FiberBound ltqsize { s with fiberHead := fiberHead, thief := thief, headPops := headPops } :=
  ⟨queue, bound.stack, bound.limit, bound.nonneg, bound.below, bound.asserted, bound.futures,
    bound.stale, fun pc => absurd pc reset⟩

/-- Every step without an exception keeps the invariant. -/
theorem FiberBound.of_step {label : FiberLabel φ} (bound : FiberBound ltqsize s)
    (taken : fiberStep s label = some s') : FiberBound ltqsize s' := by
  have notReset (busy : s.thief ≠ .idle) : s.owner ≠ .resetTail := by
    intro resetting
    exact busy (bound.queue.resetting (.inr resetting)).2.2
  cases label with
  | the label => exact bound.of_the taken
  | switchFibers fiber => exact bound.of_switchFibers taken
  | enqueueStore => exact bound.of_enqueueStore taken
  | enqueueAssert => exact bound.of_enqueueAssert taken
  | enqueueTail => exact bound.of_enqueueTail taken
  | popTailRead => exact bound.of_popTailRead taken
  | popTailAssert => exact bound.of_popTailAssert taken
  | popTailStore => exact bound.of_popTailStore taken
  | popTailReturn => exact bound.of_popTailReturn taken
  | resetHead => exact bound.of_resetHead taken
  | resetTail => exact bound.of_resetTail taken
  | popHeadAdvance =>
    have queue := bound.queue.of_popHeadAdvance taken
    cases pc : s.thief <;> simp [fiberStep, pc] at taken
    subst taken
    exact bound.of_popHead queue (notReset (by simp [pc]))
  | popHeadAssert =>
    have queue := bound.queue.of_popHeadAssert taken
    cases pc : s.thief <;> simp [fiberStep, pc] at taken
    subst taken
    exact bound.of_popHead queue (notReset (by simp [pc]))
  | popHeadReturn =>
    have queue := bound.queue.of_popHeadReturn taken
    cases pc : s.thief <;> simp [fiberStep, pc] at taken
    subst taken
    exact bound.of_popHead queue (notReset (by simp [pc]))

end Queue

/-- A worker that leaves an empty deque gives up the stack it had there. -/
theorem FiberInv.of_leave {s : FiberState φ} (inv : FiberInv s) (idle : s.owner = .idle)
    (running : s.the.owner = .running) (empty : ¬ s.the.head < s.the.tail) :
    FiberInv { s with the := { s.the with spawned := [] } } := by
  have tail := inv.the.tail_eq (by simp [running])
  simp only [running, OwnerPc.owed, Int.add_zero] at tail
  have frames : s.the.frames = [] := by
    apply List.eq_nil_of_length_eq_zero
    omega
  have the : TheInv { s.the with spawned := [] } :=
    { inv.the with
      spawned_eq := ⟨[], by simp [frames]⟩
      ownerLocals := by simp [TheState.OwnerLocals, running] }
  exact
    { inv with
      the := the
      resetting := by simp [idle]
      pushing := by simp [running] }

/-- An exception leaves a deque for good only when its queue of future fibers is at its start. -/
def ExceptionsResetFibers (s : FiberState φ) : FiberRunLabel φ → Prop
  | .exceptionFromSpawn => s.fiberTail = 0
  | .normal _ => True

instance (s : FiberState φ) : (label : FiberRunLabel φ) → Decidable (ExceptionsResetFibers s label)
  | .exceptionFromSpawn => inferInstanceAs (Decidable (_ = _))
  | .normal _ => inferInstanceAs (Decidable True)

/-- The invariant holds in every run whose exceptions leave the queue at its start. -/
theorem fiberBound_of_run [DecidableEq φ] (slots : 0 < ltqsize)
    (run : (fiberRunMachine φ ltqsize).GuardedRun ExceptionsResetFibers s) : FiberBound ltqsize s := by
  refine run.invariant ?_ ?_
  · rintro s ⟨protectedTail, rfl⟩
    exact .of_initial protectedTail slots
  · intro s label s' bound allowed taken
    cases label with
    | normal label => exact bound.of_step taken
    | exceptionFromSpawn =>
      simp only [fiberRunMachine, fiberRunStep] at taken
      split at taken
      · rename_i due
        obtain ⟨idle, running, -, -, empty⟩ := due
        obtain rfl := Option.some.inj taken
        have atStart : s.fiberTail = 0 := allowed
        have stack := bound.stack
        unfold TheState.StackWithin at stack
        simp only [running, OwnerPc.owed] at stack
        refine ⟨bound.queue.of_leave idle running empty, ?_, bound.limit, bound.nonneg, bound.below,
          bound.asserted, ?_, ?_, bound.reset⟩
        · simp only [TheState.StackWithin, running, OwnerPc.owed, List.length_nil]
          omega
        · intro _
          simp [atStart, idle, CilkL.futures]
        · intro resetting
          simp [idle, FiberOwnerPc.Resetting] at resetting
      · cases taken

end Steps

/-- The owner is between the store of `fiber_tail` and the push of the future's parent. -/
def FiberState.InPush (s : FiberState φ) : Prop := ∃ fiber, s.owner = .enqueued fiber

/-- The owner is between `__cilkrts_undo_detach` and the end of `__cilkrts_pop_tail_future_fiber`, or between
the first and finding that the frame was stolen. -/
def FiberState.InPop (s : FiberState φ) : Prop :=
  s.the.owner.owed ≠ 0 ∨ ∃ fiber t,
    s.owner = .popTail fiber ∨ s.owner = .popTailAssert fiber t ∨ s.owner = .popTailStore fiber t

/-- The queue of future fibers does not overflow before the queue of frames, whose `ltqsize` slots it has
as well. -/
structure FiberQueueWithin (ltqsize : Int) (s : FiberState φ) : Prop where
  /-- Outside the push and the pop it is not ahead of `tail`. -/
  behind : ¬ s.InPush → ¬ s.InPop → s.fiberTail ≤ s.the.tail
  /-- In the pop it is at most the frame that is being popped ahead. -/
  popping : ¬ s.InPush → s.fiberTail ≤ s.the.tail + 1
  /-- `__cilkrts_enqueue_future_fiber` stores within the array. -/
  store : ∀ fiber, s.owner = .enqueueStore fiber → 0 ≤ s.fiberTail ∧ s.fiberTail < ltqsize
  /-- Its assertion holds while two slots are free for frames. -/
  room : ∀ fiber, s.owner = .enqueueAssert fiber → s.the.tail + 2 ≤ ltqsize →
    s.fiberTail + 1 < s.fiberLtqLimit

/-- The queue of future fibers stays within in every run in which exceptions leave it at its start. -/
theorem fiber_queue_within [DecidableEq φ] (ltqsize : Int) (slots : 0 < ltqsize) (s : FiberState φ)
    (run : (fiberRunMachine φ ltqsize).GuardedRun ExceptionsResetFibers s) :
    FiberQueueWithin ltqsize s := by
  have bound := fiberBound_of_run slots run
  have within := bound.within
  have position := bound.queue.position
  refine ⟨?_, ?_, ?_, ?_⟩
  · intro notPush notPop
    have extra : s.owner.extra = [] := by
      cases pc : s.owner with
      | enqueued fiber => exact absurd ⟨fiber, pc⟩ notPush
      | popTail fiber => exact absurd (.inr ⟨fiber, 0, .inl pc⟩) notPop
      | popTailAssert fiber t => exact absurd (.inr ⟨fiber, t, .inr (.inl pc)⟩) notPop
      | popTailStore fiber t => exact absurd (.inr ⟨fiber, t, .inr (.inr pc)⟩) notPop
      | _ => rfl
    have settled : s.the.owner.owed = 0 := by
      by_contra popping
      exact notPop (.inl popping)
    simpa [extra, settled] using within
  · intro _
    -- a popped frame is owed before its fiber is, never both
    have one : s.the.owner.owed + s.owner.extra.length ≤ 1 := by
      cases pc : s.owner <;> rw [pc] at position <;> cases owner : s.the.owner <;>
        simp [owner, FiberOwnerPc.At] at position <;> simp [OwnerPc.owed, FiberOwnerPc.extra]
    omega
  · intro fiber _
    exact ⟨bound.nonneg, bound.below⟩
  · intro fiber pc free
    have running : s.the.owner = .running := by simpa [pc, FiberOwnerPc.At] using position
    simp only [pc, running, OwnerPc.owed, FiberOwnerPc.extra, List.length_nil] at within
    have limit := bound.limit
    omega

/-- A future's parent is stolen, then the future's own frame, whose spawned function ends with an
exception. -/
def exceptionTrace : List (FiberRunLabel (Fin 2)) :=
  [.normal (.switchFibers 0), .normal .enqueueStore, .normal .enqueueAssert, .normal .enqueueTail,
    .normal (.the (.pushSlot (some 0))), .normal (.the .pushTail),
    .normal (.the (.pushSlot none)), .normal (.the .pushTail)] ++ stealFuture ++ stealSpawn ++
      [.exceptionFromSpawn]
where
  /-- A thief takes the future's parent and its fiber. -/
  stealFuture : List (FiberRunLabel (Fin 2)) :=
    [.normal (.the (.thiefLock 0)), .normal (.the .incrementE), .normal (.the .testTail),
      .normal (.the .testProtected), .normal (.the .advanceHead), .normal (.the .fetchFrame),
      .normal .popHeadAdvance, .normal .popHeadAssert, .normal .popHeadReturn,
      .normal (.the .thiefUnlock)]
  /-- A thief takes the other frame. -/
  stealSpawn : List (FiberRunLabel (Fin 2)) :=
    [.normal (.the (.thiefLock 0)), .normal (.the .incrementE), .normal (.the .testTail),
      .normal (.the .testProtected), .normal (.the .advanceHead), .normal (.the .fetchFrame),
      .normal (.the .thiefUnlock)]

/-- The worker sets the deque up for what it steals next. -/
def setupTrace : List (FiberRunLabel (Fin 2)) :=
  [.normal (.the .setupLock), .normal (.the .setupTail), .normal (.the .setupHead),
    .normal (.the .setupExc), .normal (.the .ownerUnlock)]

theorem fiberRun_start (ltqsize protectedTail : Int) :
    (fiberRunMachine (Fin 2) ltqsize).start (.initial (Fin 2) ltqsize protectedTail ltqsize) :=
  ⟨protectedTail, rfl⟩

/-- Up to the exception the queue is within, with both frames stolen. -/
theorem fiber_queue_within_stolen :
    ((fiberRunMachine (Fin 2) 8).after (.initial (Fin 2) 8 8 8) exceptionTrace.dropLast).the.head = 2 ∧
      FiberQueueWithin 8
        ((fiberRunMachine (Fin 2) 8).after (.initial (Fin 2) 8 8 8) exceptionTrace.dropLast) :=
  ⟨by decide, fiber_queue_within 8 (by decide) _
    (.after (.start (fiberRun_start 8 8)) exceptionTrace.dropLast (by decide))⟩

/-- After the exception the deque is set up again, with a fiber left in its queue, by an owner between no
push and no pop. -/
theorem exceptionTrace_settled :
    ((fiberRunMachine (Fin 2) 8).after (.initial (Fin 2) 8 8 8)
        (exceptionTrace ++ setupTrace)).owner = .idle ∧
      ((fiberRunMachine (Fin 2) 8).after (.initial (Fin 2) 8 8 8)
        (exceptionTrace ++ setupTrace)).the.owner.owed = 0 ∧
      ((fiberRunMachine (Fin 2) 8).after (.initial (Fin 2) 8 8 8)
        (exceptionTrace ++ setupTrace)).the.tail <
      ((fiberRunMachine (Fin 2) 8).after (.initial (Fin 2) 8 8 8)
        (exceptionTrace ++ setupTrace)).fiberTail := by
  decide

/-- So the queue of fibers is ahead of the queue of frames. -/
theorem fiber_queue_ahead :
    ¬ ∀ s, (fiberRunMachine (Fin 2) 8).Reachable s → FiberQueueWithin 8 s := by
  intro within
  have reached : (fiberRunMachine (Fin 2) 8).Reachable
      ((fiberRunMachine (Fin 2) 8).after (.initial (Fin 2) 8 8 8) (exceptionTrace ++ setupTrace)) :=
    .after (.start (fiberRun_start 8 8)) _
  obtain ⟨idle, settled, ahead⟩ := exceptionTrace_settled
  have behind := (within _ reached).behind ?_ ?_
  · omega
  · rintro ⟨fiber, pc⟩
    rw [idle] at pc
    cases pc
  · rintro (owed | ⟨fiber, t, pc | pc | pc⟩)
    · exact owed settled
    all_goals
      rw [idle] at pc
      cases pc

end CilkL
