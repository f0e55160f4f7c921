/-
Module: CilkL.Runtime.FiberSwitch
Layer: Runtime
Purpose: The switches between fibers, over the strands and the places of the fibers: `m_flags`, `m_from_fiber`
  and `m_pending_remove_ref` of each fiber, what is on its stack, and where each worker is between what it
  publishes (a suspended deque, a fiber passed up to the parent, a continuation in a deque), the jump, and the
  actions after it. A switch and the operations on fibers that no other worker can reach are one step with the
  publication that follows them. A worker that is handed a suspended deque claims it, waits for the flag and
  goes on with it; a deque is handed to one worker at a time. A strand keeps its name where its continuation is
  stolen, so claims on its deque pass to the new name. A fiber that is removed is in the pool of its worker from
  the step that decides it: only that worker looks into that pool, and only after it has removed the fiber.
  Exceptions and the return from the initial frame are left out.
Imports: CilkL.Runtime.FutureFiberCache
Trusted boundary: human-reviewed spec (translated from cilk_fiber.cpp, cilk_fiber-unix.cpp,
  cilk-abi-future.cpp, cilk-abi-future_utils.cpp, deque.c, deque_pool.c and scheduler.c)
Main exports: Fiber, FiberContext, SwitchPc, FiberSwitch, FiberSwitch.switchTarget, fiberSwitchStep,
  fiberSwitchMachine
Open obligations: none
-/
import CilkL.Runtime.FutureFiberCache

namespace CilkL

/-- A fiber of the program. -/
inductive Fiber (ω β : Type) where
  /-- `scheduling_fiber` of a worker. -/
  | scheduling (w : ω)
  /-- A fiber for user code. -/
  | user (fiber : β)
deriving DecidableEq, Repr

/-- Where `m_resume_jmpbuf` goes on. -/
inductive ResumePoint where
  /-- In `suspend_self_and_resume_other_sysdep`. -/
  | switch
  /-- In `__spawn_future_helper_helper`. -/
  | future
deriving DecidableEq, Repr

/-- What is on the stack of a fiber. No code reads this. -/
inductive FiberContext where
  /-- Nothing that goes on. -/
  | fresh
  /-- A worker is on it. -/
  | live
  /-- It was left for another one after it stored its `m_resume_jmpbuf`. -/
  | saved (point : ResumePoint)
deriving DecidableEq, Repr

/-- The fiber that a worker goes on with. -/
inductive SwitchTarget where
  /-- Its scheduling fiber. -/
  | scheduling
  /-- The fiber of the strand that it has taken. -/
  | current
deriving DecidableEq, Repr

/-- Where a worker is. -/
inductive SwitchPc (δ : Type) where
  /-- In user code. -/
  | user
  /-- In its scheduling loop. -/
  | scheduling
  /-- In `deque_suspend`, after the strand was suspended. -/
  | suspending (d : δ)
  /-- About to call `cilk_fiber_suspend_self_and_resume_other`, or
      `cilk_fiber_remove_reference_from_self_and_resume_other` if the fiber is to be removed. -/
  | leaving (target : SwitchTarget) (remove : Bool)
  /-- On the other fiber, in `do_post_switch_actions`: about to look at `m_from_fiber`. -/
  | arrived
  /-- About to call `m_post_switch_proc`. -/
  | postSwitchProc
  /-- About to look at `m_pending_remove_ref`. -/
  | pendingRemoveRef
deriving DecidableEq, Repr

/-- The strands and the fibers. -/
structure FiberSwitch (ω δ β : Type) where
  cactus : CactusState ω δ β
  /-- `RESUMABLE` in `m_flags`. -/
  resumable : Fiber ω β → Bool
  fromFiber : Fiber ω β → Option (Fiber ω β)
  pendingRemoveRef : Fiber ω β → Option (Fiber ω β)
  context : Fiber ω β → FiberContext
  /-- The fiber whose stack a worker is on. -/
  executing : ω → Fiber ω β
  pc : ω → SwitchPc δ
  /-- The decrements of join counters that are due: the worker, and the strand and the height of the
  function. -/
  decjoins : List (ω × δ × Nat)
  /-- The strand whose deque a worker was handed, or mugged. -/
  claim : ω → Option δ
  claimed : δ → Bool
  /-- The worker has not seen the flag of the fiber of that deque yet. -/
  awaits : ω → Bool

variable {ω δ β : Type} [DecidableEq ω] [DecidableEq δ] [DecidableEq β]

namespace FiberSwitch

/-! ### The switch -/

/-- Whether `future_fiber_pool` of a worker has room. -/
def hasRoom (s : FiberSwitch ω δ β) (w : ω) : Bool := s.cactus.futureFiberPoolIdx w < maxFutureFibersInPool - 1

/-- The fiber that a worker is about to switch to. -/
def switchTarget (s : FiberSwitch ω δ β) (w : ω) : Option (Fiber ω β) :=
  match s.pc w with
  | .scheduling => if s.cactus.spare w = none ∧ s.awaits w = false then (s.cactus.current w).map .user else none
  | .suspending _ => if s.cactus.spare w = none then some (.scheduling w) else none
  | .leaving .scheduling _ => some (.scheduling w)
  | .leaving .current _ => if s.awaits w = false then (s.cactus.current w).map .user else none
  | _ => none

/-- Whether the fiber that a worker leaves is removed. -/
def removesSelf (s : FiberSwitch ω δ β) (w : ω) : Bool :=
  match s.pc w with
  | .leaving _ remove => remove
  | _ => false

/-- `resume_other_sysdep`: a `longjmp` to a fiber with the flag, which is cleared, else its procedure is run. -/
def resumeOther (s : FiberSwitch ω δ β) (w : ω) (other : Fiber ω β) : FiberSwitch ω δ β :=
  let s := if s.resumable other then { s with resumable := setAt s.resumable other false } else s
  { s with
    context := setAt s.context other .live
    executing := setAt s.executing w other
    pc := setAt s.pc w .arrived }

/-- `suspend_self_and_resume_other`. -/
def suspendSelfAndResumeOther (s : FiberSwitch ω δ β) (w : ω) (other : Fiber ω β) : FiberSwitch ω δ β :=
  let self := s.executing w
  { s with
    fromFiber := setAt s.fromFiber other (some self)
    context := setAt s.context self (.saved .switch) }.resumeOther w other

/-- `remove_reference_from_self_and_resume_other`. -/
def removeReferenceFromSelfAndResumeOther (s : FiberSwitch ω δ β) (w : ω) (other : Fiber ω β) :
    FiberSwitch ω δ β :=
  let self := s.executing w
  { s with
    pendingRemoveRef := setAt s.pendingRemoveRef other (some self)
    context := setAt s.context self .fresh }.resumeOther w other

/-! ### The actions after the switch -/

/-- The first part of `do_post_switch_actions`. -/
def setFromResumable (s : FiberSwitch ω δ β) (w : ω) : FiberSwitch ω δ β :=
  let self := s.executing w
  let s := match s.fromFiber self with
    | some fiber => { s with
        resumable := setAt s.resumable fiber true
        fromFiber := setAt s.fromFiber self none }
    | none => s
  { s with pc := setAt s.pc w .postSwitchProc }

/-- Its second part: `enter_runtime_transition_proc` decrements the join counters that are due. -/
def runPostSwitchProc (s : FiberSwitch ω δ β) (w : ω) : FiberSwitch ω δ β :=
  { s with decjoins := s.decjoins.filter (·.1 ≠ w), pc := setAt s.pc w .pendingRemoveRef }

/-- Its third part: `deallocate_self` of the fiber that was left. -/
def removePendingRef (s : FiberSwitch ω δ β) (w : ω) : FiberSwitch ω δ β :=
  let self := s.executing w
  let s := match s.pendingRemoveRef self with
    | some fiber => { s with
        resumable := setAt s.resumable fiber false
        pendingRemoveRef := setAt s.pendingRemoveRef self none }
    | none => s
  { s with pc := setAt s.pc w (if self = .scheduling w then .scheduling else .user) }

/-! ### The strands -/

/-- The worker of a strand is in user code. -/
def InUser (s : FiberSwitch ω δ β) (d : δ) : Prop :=
  match (s.cactus.strand d).place with
  | .on w => s.pc w = .user
  | _ => False

instance (s : FiberSwitch ω δ β) (d : δ) : Decidable (s.InUser d) :=
  match place : (s.cactus.strand d).place with
  | .on w => decidable_of_iff (s.pc w = .user) (by rw [InUser, place])
  | .unused => isFalse (by rw [InUser, place]; exact not_false)
  | .suspended => isFalse (by rw [InUser, place]; exact not_false)
  | .stalled => isFalse (by rw [InUser, place]; exact not_false)
  | .over => isFalse (by rw [InUser, place]; exact not_false)
  | .dropped => isFalse (by rw [InUser, place]; exact not_false)

/-- The worker of a strand has claimed another one, and seen the flag. -/
def HasWaited (s : FiberSwitch ω δ β) (d e : δ) : Prop :=
  match (s.cactus.strand d).place with
  | .on w => s.claim w = some e ∧ s.awaits w = false
  | _ => False

instance (s : FiberSwitch ω δ β) (d e : δ) : Decidable (s.HasWaited d e) :=
  match place : (s.cactus.strand d).place with
  | .on w => decidable_of_iff (s.claim w = some e ∧ s.awaits w = false) (by rw [HasWaited, place])
  | .unused => isFalse (by rw [HasWaited, place]; exact not_false)
  | .suspended => isFalse (by rw [HasWaited, place]; exact not_false)
  | .stalled => isFalse (by rw [HasWaited, place]; exact not_false)
  | .over => isFalse (by rw [HasWaited, place]; exact not_false)
  | .dropped => isFalse (by rw [HasWaited, place]; exact not_false)

/-- A worker is in `deque_suspend`. -/
def isSuspending : SwitchPc δ → Bool
  | .suspending _ => true
  | _ => false

/-- When a step of the strands can be taken. A thief steals in its scheduling loop, or from the deque that it
    has just suspended; a function that waits goes on when its join counter is zero. -/
def Ready (s : FiberSwitch ω δ β) : CactusLabel ω δ β → Prop
  | .call d | .spawn d | .leave d | .spawnFuture d _ _ | .futureReturn d | .childReturn d
  | .futureReturnStolen d | .stall d | .suspend d => s.InUser d
  | .handOff d e => s.InUser d ∧ s.HasWaited d e
  | .allocate u _ _ | .giveBack u => s.pc u = .scheduling ∨ isSuspending (s.pc u)
  | .steal u d _ => s.pc u = .scheduling ∨ s.pc u = .suspending d
  | .resumeStalled u d =>
      s.pc u = .scheduling ∧
        ∀ due ∈ s.decjoins, due.2 ≠ (d, (s.cactus.strand d).frames.length - 1)
  | .resume u d => s.claim u = some d ∧ (s.pc u = .scheduling ∨ isSuspending (s.pc u))
  | .throw _ => False

instance (s : FiberSwitch ω δ β) : (label : CactusLabel ω δ β) → Decidable (s.Ready label)
  | .call d | .spawn d | .leave d | .spawnFuture d _ _ | .futureReturn d | .childReturn d
  | .futureReturnStolen d | .stall d | .suspend d => inferInstanceAs (Decidable (s.InUser d))
  | .handOff d e => inferInstanceAs (Decidable (s.InUser d ∧ s.HasWaited d e))
  | .allocate u _ _ | .giveBack u => inferInstanceAs (Decidable (s.pc u = .scheduling ∨ isSuspending (s.pc u)))
  | .steal u d _ => inferInstanceAs (Decidable (s.pc u = .scheduling ∨ s.pc u = .suspending d))
  | .resumeStalled u d => inferInstanceAs (Decidable (s.pc u = .scheduling ∧
      ∀ due ∈ s.decjoins, due.2 ≠ (d, (s.cactus.strand d).frames.length - 1)))
  | .resume u d => inferInstanceAs
    (Decidable (s.claim u = some d ∧ (s.pc u = .scheduling ∨ isSuspending (s.pc u))))
  | .throw _ => isFalse not_false

/-- The function that a spawned function returns to: its strand and its height. -/
def parentOf (s : FiberSwitch ω δ β) (d : δ) : Option (δ × Nat) :=
  match (s.cactus.strand d).frames with
  | [frame] =>
      match frame.invocation with
      | .spawnedStolen p height => some (p, height)
      | _ => none
  | _ => none

/-- `finish_spawn_return_on_user_stack` passes the fiber of the strand up to the parent. -/
def passesFiberUp (s : FiberSwitch ω δ β) (d p : δ) (height : Nat) : Bool :=
  match atHeight height (s.cactus.strand p).frames with
  | some parent => parent.children.head? = some d ∧ parent.fiberChild = none
  | none => false

/-- `setup_for_future`, after `setjmp` and before the stack pointer is moved to the other fiber. -/
def setupForFuture (s : FiberSwitch ω δ β) (w : ω) (other : Fiber ω β) : FiberSwitch ω δ β :=
  let self := s.executing w
  { s with
    context := setAt (setAt s.context self (.saved .future)) other .live
    resumable := setAt (setAt s.resumable self true) other false
    executing := setAt s.executing w other }

/-- `setup_for_future_return`, after the stack pointer was moved back, with the actions that follow: a fiber
that does not go to the cache is deallocated. -/
def setupForFutureReturn (s : FiberSwitch ω δ β) (w : ω) (other : Fiber ω β) (dealloc : Bool) :
    FiberSwitch ω δ β :=
  let self := s.executing w
  { s with
    context := setAt (setAt s.context self .fresh) other .live
    resumable := setAt (setAt s.resumable self (!dealloc)) other false
    executing := setAt s.executing w other }

/-- A worker leaves the fiber that it is on. -/
def leave (s : FiberSwitch ω δ β) (w : ω) (target : SwitchTarget) (remove : Bool) : FiberSwitch ω δ β :=
  { s with pc := setAt s.pc w (.leaving target remove) }

/-- The deque of `d` goes on as that of `c`. -/
def rename (s : FiberSwitch ω δ β) (d c : δ) : FiberSwitch ω δ β :=
  { s with
    claim := fun v => if s.claim v = some d then some c else s.claim v
    claimed := setAt (setAt s.claimed c (s.claimed d)) d false
    pc := fun v => if s.pc v = .suspending d then .suspending c else s.pc v }

/-- The deque that a worker claimed is its own now. -/
def unclaim (s : FiberSwitch ω δ β) (w : ω) (d : δ) : FiberSwitch ω δ β :=
  { s with claim := setAt s.claim w none, claimed := setAt s.claimed d false }

/-- What a step of the strands does to the fibers and to the worker that takes it. -/
def along (s : FiberSwitch ω δ β) (cactus : CactusState ω δ β) : CactusLabel ω δ β → FiberSwitch ω δ β
  | .spawnFuture d _ _ =>
      match (s.cactus.strand d).place with
      | .on w =>
          match cactus.current w with
          | some fiber => s.setupForFuture w (.user fiber)
          | none => s
      | _ => s
  | .futureReturn d =>
      match (s.cactus.strand d).place with
      | .on w =>
          match cactus.current w with
          | some initial => s.setupForFutureReturn w (.user initial) (!s.hasRoom w)
          | none => s
      | _ => s
  | .suspend d =>
      match (s.cactus.strand d).place with
      | .on w => { s with pc := setAt s.pc w (.suspending d) }
      | _ => s
  | .childReturn d =>
      match (s.cactus.strand d).place, s.parentOf d with
      | .on w, some (p, height) =>
          { s with decjoins := (w, p, height) :: s.decjoins }.leave w .scheduling (!s.passesFiberUp d p height)
      | _, _ => s
  | .futureReturnStolen d =>
      match (s.cactus.strand d).place with
      | .on w => s.leave w .scheduling true
      | _ => s
  | .stall d =>
      match (s.cactus.strand d).place with
      | .on w =>
          let decjoins := (w, d, (s.cactus.strand d).frames.length - 1) :: s.decjoins
          { s with decjoins }.leave w .scheduling true
      | _ => s
  | .steal _ d c => s.rename d c
  | .resume u d =>
      let s := s.unclaim u d
      if isSuspending (s.pc u) then s.leave u .current false else s
  | .handOff d e =>
      match (s.cactus.strand d).place with
      | .on w => (s.unclaim w e).leave w .current (!s.hasRoom w)
      | _ => s
  | .call _ | .spawn _ | .leave _ | .allocate _ _ _ | .giveBack _ | .resumeStalled _ _ | .throw _ => s

/-- The fiber whose flag a worker waits for: that of the deque that it has claimed, or that of the strand that
it has taken. -/
def awaited (s : FiberSwitch ω δ β) (w : ω) : Option β :=
  match s.claim w with
  | some d => (s.cactus.strand d).fiber
  | none => s.cactus.current w

end FiberSwitch

/-- The steps. -/
inductive SwitchLabel (ω δ β : Type) where
  /-- A step of the strands. -/
  | cactus (label : CactusLabel ω δ β)
  /-- A worker is handed a deque to resume or to make resumable, or mugs a resumable one. -/
  | claim (w : ω) (d : δ)
  /-- It leaves the loop that waits until the fiber is resumable. -/
  | wait (w : ω)
  /-- The end of `__cilkrts_make_resumable`. -/
  | makeResumable (w : ω)
  | switchFiber (w : ω)
  | setFromResumable (w : ω)
  | runPostSwitchProc (w : ω)
  | removePendingRef (w : ω)
deriving DecidableEq, Repr

open FiberSwitch in
/-- One step. -/
def fiberSwitchStep (s : FiberSwitch ω δ β) : SwitchLabel ω δ β → Option (FiberSwitch ω δ β)
  | .cactus label =>
      if s.Ready label then
        (cactusStep s.cactus label).map fun cactus => { s.along cactus label with cactus := cactus }
      else none
  | .claim w d =>
      if (s.cactus.strand d).place.live ∧ s.claimed d = false ∧ s.claim w = none ∧ s.awaits w = false ∧
          (s.pc w = .user ∨ s.pc w = .scheduling ∨ isSuspending (s.pc w)) then
        some { s with
          claim := setAt s.claim w (some d)
          claimed := setAt s.claimed d true
          awaits := setAt s.awaits w true }
      else none
  | .wait w =>
      match s.awaited w with
      | some fiber =>
          if s.awaits w = true ∧ s.resumable (.user fiber) then some { s with awaits := setAt s.awaits w false }
          else none
      | none => none
  | .makeResumable w =>
      match s.claim w with
      | some d => if s.awaits w = false then some (s.unclaim w d) else none
      | none => none
  | .switchFiber w =>
      match s.switchTarget w with
      | some other =>
          some (if s.removesSelf w then s.removeReferenceFromSelfAndResumeOther w other
            else s.suspendSelfAndResumeOther w other)
      | none => none
  | .setFromResumable w => if s.pc w = .arrived then some (s.setFromResumable w) else none
  | .runPostSwitchProc w => if s.pc w = .postSwitchProc then some (s.runPostSwitchProc w) else none
  | .removePendingRef w => if s.pc w = .pendingRemoveRef then some (s.removePendingRef w) else none

/-- The workers are about to run the outermost functions, or to look for work. A worker with an outermost
    function has a new scheduling fiber; another one is on its own. -/
structure FiberSwitch.Initial (s : FiberSwitch ω δ β) : Prop where
  cactus : s.cactus.Initial
  resumable : ∀ fiber, s.resumable fiber = false
  fromFiber : ∀ fiber, s.fromFiber fiber = none
  pendingRemoveRef : ∀ fiber, s.pendingRemoveRef fiber = none
  executing : ∀ w, s.executing w = (s.cactus.current w).elim (.scheduling w) .user
  live : ∀ w, s.context (s.executing w) = .live
  fresh : ∀ fiber, (∀ w, s.executing w ≠ fiber) → s.context fiber = .fresh
  pc : ∀ w, s.pc w = if (s.cactus.current w).isSome then .user else .scheduling
  decjoins : s.decjoins = []
  claim : ∀ w, s.claim w = none
  claimed : ∀ d, s.claimed d = false
  awaits : ∀ w, s.awaits w = false

variable (ω δ β) in
def fiberSwitchMachine : Machine (FiberSwitch ω δ β) (SwitchLabel ω δ β) where
  start := FiberSwitch.Initial
  step := fiberSwitchStep

end CilkL
