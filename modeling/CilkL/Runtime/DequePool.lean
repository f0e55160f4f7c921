/-
Module: CilkL.Runtime.DequePool
Layer: Runtime
Purpose: The deques of all workers, suspended, mugged, resumed and stolen from: `deque_suspend`,
  `deque_switch`, `deque_mug`, `__cilkrts_suspend_deque`, `__cilkrts_make_resumable`,
  `__cilkrts_resume_suspended`, `random_steal` and `jump_to_suspended_fiber`. A critical section under a
  worker's lock is one step, except that `deque_mug` is two, with the lock held in between: it takes the
  deque out of its pool, and then stores into the `worker` of the deque's frame. The unlocked reads of
  `d->worker` and the busy waits are steps of their own. The entries of a deque are those frames of its
  strand's stack whose continuation can be stolen; running out of memory and the teams are left out.
Imports: CilkL.Library.Machine, CilkL.Library.SwapPool, CilkL.Runtime.Future
Trusted boundary: human-reviewed spec (translated from deque.c, deque_pool.c and scheduler.c)
Main exports: PoolPc, DequePoolState, PoolLabel, poolStep, poolMachine, Suspension
Open obligations: none
-/
import CilkL.Library.Machine
import CilkL.Library.SwapPool
import CilkL.Runtime.Future

namespace CilkL

/-- `__cilkrts_pedigree`. -/
structure Pedigree (π : Type) where
  rank : Nat
  parent : Option π
deriving DecidableEq, Repr

/-- The pointers of a worker into its deque: the deque that each of them refers to. -/
structure DequePointers (δ : Type) where
  tail : δ
  head : δ
  exc : δ
  protectedTail : δ
  ltqLimit : δ
  currentLtq : δ
  frameFf : δ
deriving DecidableEq, Repr

/-- All pointers refer to one deque. -/
def DequePointers.to {δ : Type} (d : δ) : DequePointers δ where
  tail := d
  head := d
  exc := d
  protectedTail := d
  ltqLimit := d
  currentLtq := d
  frameFf := d

/-- A frame on the stack of a strand. -/
structure StackCall (φ : Type) where
  frame : φ
  /-- Its continuation is in the deque. -/
  detached : Bool
deriving DecidableEq, Repr

/-- The frames between `head` and `tail`, from the head on. -/
def ltqOf {φ : Type} (calls : List (StackCall φ)) : List φ :=
  ((calls.filter (·.detached)).map (·.frame)).reverse

/-- The frame at the head of the deque, the functions above it and those it was called through. -/
def headOf {φ : Type} : List (StackCall φ) → Option (List (StackCall φ) × φ × List (StackCall φ))
  | [] => none
  | call :: calls =>
      match headOf calls with
      | some (younger, head, older) => some (call :: younger, head, older)
      | none => if call.detached then some ([], call.frame, calls) else none

/-- The argument `enable_resume` of `__cilkrts_resume_suspended`. -/
inductive EnableResume where
  /-- 0: the active deque is suspended. -/
  | no
  /-- 1: the active deque becomes resumable. -/
  | yes
  /-- 2: the active deque is destroyed. -/
  | destroy
deriving DecidableEq, Repr

/-- What a deque is woken by. -/
inductive Wake where
  /-- `__cilkrts_make_resumable`, called from the scheduling loop (the I/O workers) or by a strand. -/
  | makeResumable (inLoop : Bool)
  /-- `__cilkrts_resume_suspended`. -/
  | resume (enable : EnableResume)
deriving DecidableEq, Repr

/-- The callers of `deque_mug`. -/
inductive Mug where
  /-- `deque_suspend`, for a resumable deque of the worker's own pool. -/
  | suspend
  | resume (enable : EnableResume)
  /-- `jump_to_suspended_fiber`. -/
  | jump
  /-- `random_steal`, for a suspended deque with no frame to steal. -/
  | empty
deriving DecidableEq, Repr

/-- Where a worker is. -/
inductive PoolPc (ω δ : Type) where
  /-- In the scheduling loop. -/
  | sched
  | running
  /-- Its strand handed its deque to a waker, and is about to suspend. -/
  | published
  /-- In `deque_suspend` without a deque to switch to, before it looks into its resumable pool. -/
  | choosing
  /-- In `deque_suspend`, with the deque to switch to; `none` stands for a new one. -/
  | chosen (newDeque : Option δ)
  /-- It switched deques; the suspended one is in no pool yet. -/
  | placing (old : δ)
  /-- About to switch fibers. -/
  | leaving (old : δ)
  /-- In `deque_mug` under the lock of `victim`, after `deque_pool_remove`. -/
  | mugging (d : δ) (victim : ω) (caller : Mug)
  /-- In `jump_to_suspended_fiber`, after the mug. -/
  | spinning (d : δ)
  /-- Waking `d`, until its fiber is resumable. -/
  | waking (d : δ) (wake : Wake)
  /-- It read `d->worker` without a lock. -/
  | sawWorker (d : δ) (wake : Wake) (worker : Option ω)
  /-- In `__cilkrts_make_resumable`, about to add `d` to the resumable pool of `victim`. -/
  | adding (d : δ) (victim : ω) (inLoop : Bool)
  /-- In `__cilkrts_resume_suspended`, about to leave the active deque for `d`. -/
  | marked (d : δ) (enable : EnableResume)
  /-- Its active deque is the resumed one; about to switch to its fiber. -/
  | jumping
  /-- On the fiber of a resumed deque, about to go on with its strand. -/
  | resumed
deriving DecidableEq, Repr

/-- Where a worker calls the functions that wake a deque. -/
def Wake.caller {ω δ : Type} : Wake → PoolPc ω δ
  | .makeResumable true => .sched
  | .resume .no => .published
  | _ => .running

/-- The two pools of a worker. -/
inductive PoolKind where
  | resumable
  | suspended
deriving DecidableEq, Repr

/-- What `d->fiber` points to. -/
inductive DequeFiber (ω : Type) where
  /-- The fiber its strand runs on. -/
  | strand
  | scheduling (w : ω)
deriving DecidableEq, Repr

/-- A record of the strand at its suspension, and of what was stolen from its deque since. -/
structure Suspension (φ ψ π : Type) where
  pedigree : Pedigree π
  currentStackFrame : Option φ
  ltq : List φ
  frameFf : Option ψ
  /-- The frames stolen since, oldest first, each with the child frame that replaced `frame_ff`. -/
  stolen : List (φ × ψ)
deriving DecidableEq, Repr

/-- `ACTIVE_DEQUE_INDEX`. -/
def activeDequeIndex : Int := -1

/-- `INVALID_DEQUE_INDEX`. -/
def invalidDequeIndex : Int := -2

/-- The workers, the deques and the stack frames. -/
structure DequePoolState (ω δ φ ψ π : Type) where
  activeDeque : ω → δ
  pointers : ω → DequePointers δ
  pedigree : ω → Pedigree π
  currentStackFrame : ω → Option φ
  /-- The owner of the worker's lock. -/
  lock : ω → Option ω
  pools : ω → PoolKind → List δ
  pc : ω → PoolPc ω δ
  /-- The deque is allocated. -/
  live : δ → Bool
  self : δ → Int
  worker : δ → Option ω
  resumable : δ → Bool
  fiber : δ → Option (DequeFiber ω)
  savedPed : δ → Pedigree π
  callStack : δ → Option φ
  frameFf : δ → Option ψ
  /-- The stack of the deque's strand, current frame first. -/
  calls : δ → List (StackCall φ)
  /-- The RESUMABLE flag of the strand's fiber. -/
  fiberResumable : δ → Bool
  /-- A waker knows the deque and has not begun to wake it. -/
  handedOut : δ → Bool
  /-- The deque whose strand has the frame on its stack. -/
  stackOf : φ → Option δ
  /-- `sf->worker`. -/
  frameWorker : φ → Option ω
  suspension : δ → Option (Suspension φ ψ π)

/-- The steps, named by the worker that takes them. -/
inductive PoolLabel (ω δ φ ψ π : Type) where
  | enterFrame (w : ω) (sf : φ)
  | detach (w : ω)
  | leaveFrame (w : ω)
  /-- The strand ends in its oldest frame, at a sync or at the return to a stolen parent. -/
  | finish (w : ω)
  /-- `setup_for_execution` of a frame that was stolen, or whose children have returned. -/
  | schedule (w : ω) (sf : φ) (ff : ψ)
  | setPedigree (w : ω) (pedigree : Pedigree π)
  /-- The strand hands its deque to a waker, in the list of a future or with an I/O operation. -/
  | publish (w : ω)
  /-- `deque_suspend(w, NULL)`, up to the saved pedigree and frame. -/
  | suspend (w : ω)
  | checkPool (w : ω)
  /-- The store into `d->call_stack->worker` that ends `deque_mug`. -/
  | mugStore (w : ω)
  /-- The switch to `newDeque`; with `stolen`, the worker steals from the deque it leaves, and that is the
      child frame. -/
  | switchDeque (w : ω) (newDeque : δ) (stolen : Option ψ)
  | place (w victim : ω)
  | switchFiber (w : ω)
  | wake (w : ω) (d : δ) (wake : Wake)
  | readWorker (w : ω)
  /-- The critical section of a waker that read a worker. -/
  | lockWorker (w : ω)
  /-- The stores of `__cilkrts_make_resumable` into a deque that is in no pool. -/
  | makeFree (w victim : ω)
  | addFree (w : ω)
  /-- The stores of `__cilkrts_resume_suspended`. -/
  | mark (w : ω)
  /-- `__cilkrts_resume_suspended(d, 2)`. -/
  | resumeDestroy (w : ω)
  /-- The other two, up to the saved pedigree and frame of the active deque. -/
  | resumeSuspend (w : ω)
  | steal (w victim : ω) (d : δ) (child : ψ)
  | mugEmpty (w victim : ω) (d : δ)
  | jumpMug (w victim : ω)
  | jumpSwitch (w : ω)
  /-- The fiber switch of a worker whose active deque is the resumed one. -/
  | jump (w : ω)
  | goOn (w : ω)
deriving DecidableEq, Repr

variable {ω δ φ ψ π : Type} [DecidableEq ω] [DecidableEq δ] [DecidableEq φ]

/-- A table without the entries of some frames. -/
def clearFrames {α : Type} (table : φ → Option α) (frames : List φ) : φ → Option α :=
  fun sf => if sf ∈ frames then none else table sf

/-- The pools with one of them replaced. -/
def setPool (pools : ω → PoolKind → List δ) (w : ω) (kind : PoolKind) (pool : List δ) :
    ω → PoolKind → List δ :=
  fun w' kind' => if w' = w ∧ kind' = kind then pool else pools w' kind'

/-- The pool a deque belongs to. -/
def PoolKind.of (resumable : Bool) : PoolKind :=
  if resumable then .resumable else .suspended

namespace DequePoolState

abbrev setPc (s : DequePoolState ω δ φ ψ π) (w : ω) (pc : PoolPc ω δ) : DequePoolState ω δ φ ψ π :=
  { s with pc := setAt s.pc w pc }

abbrev setLock (s : DequePoolState ω δ φ ψ π) (w : ω) (owner : Option ω) : DequePoolState ω δ φ ψ π :=
  { s with lock := setAt s.lock w owner }

abbrev setCalls (s : DequePoolState ω δ φ ψ π) (d : δ) (calls : List (StackCall φ)) :
    DequePoolState ω δ φ ψ π :=
  { s with calls := setAt s.calls d calls }

/-- `deque_pool_add`. -/
def dequePoolAdd (s : DequePoolState ω δ φ ψ π) (victim : ω) (kind : PoolKind) (d : δ) :
    DequePoolState ω δ φ ψ π :=
  { s with
    self := setAt s.self d (s.pools victim kind).length
    worker := setAt s.worker d (some victim)
    pools := setPool s.pools victim kind (s.pools victim kind ++ [d]) }

/-- `deque_pool_remove`. -/
def dequePoolRemove (s : DequePoolState ω δ φ ψ π) (victim : ω) (kind : PoolKind) (d : δ) :
    DequePoolState ω δ φ ψ π :=
  let pool := s.pools victim kind
  let self := match pool.getLast? with
    | some last => setAt s.self last (s.self d)
    | none => s.self
  { s with
    self := setAt self d invalidDequeIndex
    worker := setAt s.worker d none
    pools := setPool s.pools victim kind (swapRemove pool (s.self d).toNat) }

/-- `deque_mug` up to `deque_pool_remove`, by a worker that owns the lock of `d->worker`. -/
def dequeMug (s : DequePoolState ω δ φ ψ π) (w victim : ω) (d : δ) (caller : Mug) :
    DequePoolState ω δ φ ψ π :=
  ((s.dequePoolRemove victim (.of (s.resumable d)) d).setLock victim (some w)).setPc w
    (.mugging d victim caller)

/-- `d->call_stack->worker = w`. -/
def storeFrameWorker (s : DequePoolState ω δ φ ψ π) (d : δ) (w : ω) : DequePoolState ω δ φ ψ π :=
  { s with
    frameWorker := match s.callStack d with
      | some sf => setAt s.frameWorker sf (some w)
      | none => s.frameWorker }

/-- `malloc` and `deque_init` of a deque, which gets the worker's scheduling fiber. -/
def dequeInit (s : DequePoolState ω δ φ ψ π) (w : ω) (d : δ) : DequePoolState ω δ φ ψ π :=
  { s with
    live := setAt s.live d true
    self := setAt s.self d 0
    worker := setAt s.worker d none
    resumable := setAt s.resumable d false
    fiber := setAt s.fiber d (some (.scheduling w))
    savedPed := setAt s.savedPed d ⟨0, none⟩
    callStack := setAt s.callStack d none
    frameFf := setAt s.frameFf d none
    calls := setAt s.calls d []
    fiberResumable := setAt s.fiberResumable d false
    handedOut := setAt s.handedOut d false
    suspension := setAt s.suspension d none }

/-- `deque_destroy`; the strand on the deque ends with it. -/
def dequeDestroy (s : DequePoolState ω δ φ ψ π) (d : δ) : DequePoolState ω δ φ ψ π :=
  { s with
    live := setAt s.live d false
    calls := setAt s.calls d []
    stackOf := clearFrames s.stackOf ((s.calls d).map (·.frame)) }

/-- `deque_switch`. -/
def dequeSwitch (s : DequePoolState ω δ φ ψ π) (w : ω) (d : δ) : DequePoolState ω δ φ ψ π :=
  let reset := if (s.savedPed d).rank = 0 then setAt s.pedigree w ⟨1, none⟩ else s.pedigree
  { s with
    frameWorker := if s.resumable d then (s.storeFrameWorker d w).frameWorker else s.frameWorker
    worker := setAt s.worker d (some w)
    self := setAt s.self d activeDequeIndex
    pointers := setAt s.pointers w (.to d)
    pedigree := setAt reset w (s.savedPed d)
    currentStackFrame := setAt s.currentStackFrame w (s.callStack d)
    savedPed := setAt s.savedPed d ⟨0, none⟩ }

/-- The beginning of `deque_suspend`. -/
def saveStrand (s : DequePoolState ω δ φ ψ π) (w : ω) : DequePoolState ω δ φ ψ π :=
  let d := s.activeDeque w
  { s with
    savedPed := setAt s.savedPed d (s.pedigree w)
    callStack := setAt s.callStack d (s.currentStackFrame w)
    suspension := setAt s.suspension d (some
      { pedigree := s.pedigree w, currentStackFrame := s.currentStackFrame w,
        ltq := ltqOf (s.calls d), frameFf := s.frameFf d, stolen := [] }) }

/-- `detach_for_steal`: the frame at the head and those it was called through leave the stack, and the
    child frame is installed. -/
def detachForSteal (s : DequePoolState ω δ φ ψ π) (d : δ) (child : ψ) :
    Option (DequePoolState ω δ φ ψ π) :=
  match headOf (s.calls d) with
  | some (younger, head, older) =>
      some { s with
        calls := setAt s.calls d younger
        frameFf := setAt s.frameFf d (some child)
        stackOf := clearFrames s.stackOf (head :: older.map (·.frame))
        frameWorker := clearFrames s.frameWorker (head :: older.map (·.frame))
        suspension := setAt s.suspension d
          ((s.suspension d).map fun record => { record with stolen := record.stolen ++ [(head, child)] }) }
  | none => none

/-- The part of `deque_suspend` under the worker's own lock. -/
def switchTo (s : DequePoolState ω δ φ ψ π) (w : ω) (newDeque : δ) : DequePoolState ω δ φ ψ π :=
  let old := s.activeDeque w
  ({ s with
      activeDeque := setAt s.activeDeque w newDeque
      fiber := setAt s.fiber old (some .strand) }.dequeSwitch w newDeque).setPc w (.placing old)

/-- The switch of a worker that destroys its active deque, under its own lock, and the destruction. -/
def switchAndDestroy (s : DequePoolState ω δ φ ψ π) (w : ω) (d : δ) : DequePoolState ω δ φ ψ π :=
  (({ s with
      resumable := setAt s.resumable d false
      activeDeque := setAt s.activeDeque w d }.dequeSwitch w d).dequeDestroy (s.activeDeque w)).setPc w
    .jumping

end DequePoolState

namespace DequePoolState

/-- `__cilkrts_enter_frame`. -/
def enterFrame (s : DequePoolState ω δ φ ψ π) (w : ω) (sf : φ) (calls : List (StackCall φ)) :
    DequePoolState ω δ φ ψ π :=
  { s with
    calls := setAt s.calls (s.activeDeque w) (⟨sf, false⟩ :: calls)
    stackOf := setAt s.stackOf sf (some (s.activeDeque w))
    frameWorker := setAt s.frameWorker sf (some w)
    currentStackFrame := setAt s.currentStackFrame w (some sf) }

end DequePoolState

/-- One step. -/
def poolStep (s : DequePoolState ω δ φ ψ π) (label : PoolLabel ω δ φ ψ π) :
    Option (DequePoolState ω δ φ ψ π) :=
  match label with
  | .enterFrame w sf =>
      if s.pc w = .running ∧ s.stackOf sf = none then
        some (s.enterFrame w sf (s.calls (s.activeDeque w)))
      else none
  | .detach w =>
      match s.pc w, s.calls (s.activeDeque w) with
      | .running, helper :: ⟨parent, false⟩ :: calls =>
          some (s.setCalls (s.activeDeque w) (helper :: ⟨parent, true⟩ :: calls))
      | _, _ => none
  | .leaveFrame w =>
      match s.pc w, s.calls (s.activeDeque w) with
      | .running, ⟨sf, _⟩ :: ⟨parent, _⟩ :: calls =>
          some { s.setCalls (s.activeDeque w) (⟨parent, false⟩ :: calls) with
            stackOf := setAt s.stackOf sf none
            currentStackFrame := setAt s.currentStackFrame w (some parent) }
      | _, _ => none
  | .finish w =>
      match s.pc w, s.calls (s.activeDeque w) with
      | .running, [⟨sf, _⟩] =>
          some { (s.setCalls (s.activeDeque w) []).setPc w .sched with
            stackOf := setAt s.stackOf sf none
            frameFf := setAt s.frameFf (s.activeDeque w) none }
      | _, _ => none
  | .schedule w sf ff =>
      if s.pc w = .sched ∧ s.stackOf sf = none then
        some { (s.enterFrame w sf []).setPc w .running with
          frameFf := setAt s.frameFf (s.activeDeque w) (some ff)
          fiberResumable := setAt s.fiberResumable (s.activeDeque w) false }
      else none
  | .setPedigree w pedigree =>
      if s.pc w = .running then some { s with pedigree := setAt s.pedigree w pedigree } else none
  | .publish w =>
      if s.pc w = .running then
        some { s.setPc w .published with handedOut := setAt s.handedOut (s.activeDeque w) true }
      else none
  | .suspend w =>
      if s.pc w = .published then some ((s.saveStrand w).setPc w .choosing) else none
  | .checkPool w =>
      if s.pc w = .choosing ∧ s.lock w = none then
        match (s.pools w .resumable).getLast? with
        | some d => some (s.dequeMug w w d .suspend)
        | none => some (s.setPc w (.chosen none))
      else none
  | .mugStore w =>
      match s.pc w with
      | .mugging d victim caller =>
          some (((s.storeFrameWorker d w).setLock victim none).setPc w
            (match caller with
            | .suspend => .chosen (some d)
            | .resume enable => .sawWorker d (.resume enable) none
            | .jump => .spinning d
            | .empty => .sched))
      | _ => none
  | .switchDeque w newDeque stolen =>
      if s.lock w = none then
        match s.pc w with
        | .chosen (some d) =>
            if newDeque = d ∧ stolen = none then
              some ({ s with resumable := setAt s.resumable d false }.switchTo w d)
            else none
        | .chosen none =>
            if s.live newDeque = false then
              let switched := (s.dequeInit w newDeque).switchTo w newDeque
              match stolen with
              | some child => switched.detachForSteal (s.activeDeque w) child
              | none => some switched
            else none
        | _ => none
      else none
  | .place w victim =>
      match s.pc w with
      | .placing d =>
          if s.resumable d = true ∨ ltqOf (s.calls d) ≠ [] then
            if s.lock victim = none then
              some ((s.dequePoolAdd victim (.of (s.resumable d)) d).setPc w (.leaving d))
            else none
          else
            some { s.setPc w (.leaving d) with
              self := setAt s.self d invalidDequeIndex
              worker := setAt s.worker d none }
      | _ => none
  | .switchFiber w =>
      match s.pc w with
      | .leaving old =>
          let d := s.activeDeque w
          match s.fiber d with
          | some (.scheduling _) =>
              some { s.setPc w .sched with
                fiber := setAt s.fiber d none
                fiberResumable := setAt s.fiberResumable old true }
          | some .strand =>
              if s.fiberResumable d = true then
                some { s.setPc w .resumed with
                  fiber := setAt s.fiber d none
                  fiberResumable := setAt (setAt s.fiberResumable old true) d false }
              else none
          | none => none
      | _ => none
  | .wake w d wake =>
      if s.handedOut d = true ∧ s.pc w = wake.caller then
        some { s.setPc w (.waking d wake) with handedOut := setAt s.handedOut d false }
      else none
  | .readWorker w =>
      match s.pc w with
      | .waking d wake =>
          if s.fiber d ≠ none ∧ s.fiberResumable d = true then
            some (s.setPc w (.sawWorker d wake (s.worker d)))
          else none
      | _ => none
  | .lockWorker w =>
      match s.pc w with
      | .sawWorker d wake (some victim) =>
          if s.lock victim = none then
            match s.worker d with
            | some owner =>
                match wake with
                | .makeResumable inLoop =>
                    let removed := s.dequePoolRemove victim .suspended d
                    some (({ removed with resumable := setAt removed.resumable d true }.dequePoolAdd victim
                      .resumable d).setPc w (if inLoop then .sched else .running))
                | .resume enable => some ((s.dequePoolRemove owner (.of (s.resumable d)) d).setLock victim
                    (some w) |>.setPc w (.mugging d victim (.resume enable)))
            | none => some (s.setPc w (.sawWorker d wake none))
          else none
      | _ => none
  | .makeFree w victim =>
      match s.pc w with
      | .sawWorker d (.makeResumable inLoop) none =>
          some { s.setPc w (.adding d victim inLoop) with
            resumable := setAt s.resumable d true
            worker := setAt s.worker d (some victim) }
      | _ => none
  | .addFree w =>
      match s.pc w with
      | .adding d victim inLoop =>
          if s.lock victim = none then
            some ((s.dequePoolAdd victim .resumable d).setPc w (if inLoop then .sched else .running))
          else none
      | _ => none
  | .mark w =>
      match s.pc w with
      | .sawWorker d (.resume enable) none =>
          some (({ s with resumable := setAt s.resumable d true }.storeFrameWorker d w).setPc w
            (.marked d enable))
      | _ => none
  | .resumeDestroy w =>
      match s.pc w with
      | .marked d .destroy =>
          if s.lock w = none then
            let switched := s.switchAndDestroy w d
            some { switched with fiber := setAt switched.fiber d none }
          else none
      | _ => none
  | .resumeSuspend w =>
      match s.pc w with
      | .marked d .yes =>
          some (({ s with resumable := setAt s.resumable (s.activeDeque w) true }.saveStrand w).setPc w
            (.chosen (some d)))
      | .marked d .no =>
          some (({ s with resumable := setAt s.resumable (s.activeDeque w) false }.saveStrand w).setPc w
            (.chosen (some d)))
      | _ => none
  | .steal w victim d child =>
      if s.pc w = .sched ∧ s.lock victim = none ∧ s.pools victim .resumable = [] ∧
          (d = s.activeDeque victim ∨ d ∈ s.pools victim .suspended) ∧ s.frameFf d ≠ none then
        s.detachForSteal d child
      else none
  | .mugEmpty w victim d =>
      if s.pc w = .sched ∧ s.lock victim = none ∧ s.pools victim .resumable = [] ∧
          d ∈ s.pools victim .suspended ∧ s.resumable d = false ∧ ltqOf (s.calls d) = [] then
        some (s.dequeMug w victim d .empty)
      else none
  | .jumpMug w victim =>
      if s.pc w = .sched ∧ s.lock victim = none then
        match (s.pools victim .resumable).getLast? with
        | some d => some (s.dequeMug w victim d .jump)
        | none => none
      else none
  | .jumpSwitch w =>
      match s.pc w with
      | .spinning d =>
          if s.fiberResumable d = true ∧ s.lock w = none then
            some ({ s with fiber := setAt s.fiber d none }.switchAndDestroy w d)
          else none
      | _ => none
  | .jump w =>
      if s.pc w = .jumping then
        some { s.setPc w .resumed with
          fiberResumable := setAt s.fiberResumable (s.activeDeque w) false }
      else none
  | .goOn w =>
      if s.pc w = .resumed then
        some { s.setPc w .running with suspension := setAt s.suspension (s.activeDeque w) none }
      else none

/-- Every worker has its own empty deque; strands run in their first frame, and no deque is suspended. -/
def DequePoolState.Initial (s : DequePoolState ω δ φ ψ π) : Prop :=
  (∀ w, s.pointers w = .to (s.activeDeque w) ∧ s.lock w = none ∧ (∀ kind, s.pools w kind = []) ∧
    s.live (s.activeDeque w) = true ∧ s.self (s.activeDeque w) = activeDequeIndex ∧
    s.worker (s.activeDeque w) = some w ∧
    (s.pc w = .sched ∧ s.calls (s.activeDeque w) = [] ∨
      s.pc w = .running ∧ ∃ sf, s.calls (s.activeDeque w) = [⟨sf, false⟩] ∧
        s.currentStackFrame w = some sf)) ∧
  (∀ d, s.resumable d = false ∧ s.fiber d = none ∧ s.savedPed d = ⟨0, none⟩ ∧
    s.fiberResumable d = false ∧ s.handedOut d = false ∧ s.suspension d = none ∧
    (s.live d = true → ∃ w, s.activeDeque w = d) ∧ (s.live d = false → s.calls d = [])) ∧
  ∀ sf d, sf ∈ (s.calls d).map (·.frame) ↔ s.stackOf sf = some d

variable (ω δ φ ψ π) in
def poolMachine : Machine (DequePoolState ω δ φ ψ π) (PoolLabel ω δ φ ψ π) where
  start := DequePoolState.Initial
  step := poolStep

end CilkL
