/-
Module: CilkL.Proofs.FiberSwitchInv
Layer: Proofs
Purpose: The invariant of the switches between fibers. Each fiber is on the stack of at most one worker,
  which may still be leaving it; where a fiber is used from decides what is known of it: it is at rest with
  its flag set and its context saved, it is unused, or a worker has yet to leave it, and then nobody goes on
  with it.
Imports: CilkL.Runtime.FiberSwitch, CilkL.Proofs.FiberPositions
Trusted boundary: none (fully proved)
Main exports: FiberSwitch.Occupies, FiberSwitch.PositionOk, FiberSwitchInv, SameFibers
Open obligations: none
-/
import CilkL.Runtime.FiberSwitch
import CilkL.Proofs.FiberPositions

namespace CilkL

variable {ω δ β : Type}

/-! ### Who is on a fiber -/

namespace FiberSwitch

/-- A worker is on a fiber, or has left it and not finished the actions after the switch. -/
def Occupies (s : FiberSwitch ω δ β) (w : ω) (x : Fiber ω β) : Prop :=
  s.executing w = x ∨ s.fromFiber (s.executing w) = some x ∨ s.pendingRemoveRef (s.executing w) = some x

/-- A worker has published the strand of a fiber, or its parent, and the flag of the fiber is not set yet. -/
def Lags (s : FiberSwitch ω δ β) (w : ω) (f : β) : Prop :=
  (isSuspending (s.pc w) ∨ ∃ target, s.pc w = .leaving target false) ∧ s.executing w = .user f ∨
    s.fromFiber (s.executing w) = some (.user f)

/-- A worker is about to remove a fiber. -/
def Removes (s : FiberSwitch ω δ β) (w : ω) (f : β) : Prop :=
  (∃ target, s.pc w = .leaving target true) ∧ s.executing w = .user f ∨
    s.pendingRemoveRef (s.executing w) = some (.user f)

/-- No worker is on a fiber. -/
def Rests (s : FiberSwitch ω δ β) (x : Fiber ω β) : Prop := ∀ w, ¬s.Occupies w x

/-- A fiber can be resumed where it was left. -/
def Settled (s : FiberSwitch ω δ β) (point : ResumePoint) (x : Fiber ω β) : Prop :=
  s.context x = .saved point ∧ s.resumable x = true ∧ s.Rests x

/-- A fiber can be run from its start. -/
def Idle (s : FiberSwitch ω δ β) (x : Fiber ω β) : Prop :=
  s.context x = .fresh ∧ s.resumable x = false ∧ s.Rests x

/-- A fiber can be switched to. -/
def Startable (s : FiberSwitch ω δ β) (x : Fiber ω β) : Prop := s.Idle x ∨ ∃ point, s.Settled point x

/-- A worker goes on with a strand, and waits for the flag of its fiber. -/
def WaitsForCurrent (s : FiberSwitch ω δ β) (w : ω) : Prop := s.awaits w = true ∧ s.claim w = none

/-- What is known of a fiber at a position. -/
def PositionOk (s : FiberSwitch ω δ β) : FiberPosition ω δ → β → Prop
  | .current w, f =>
      s.executing w = .user f ∨ s.Startable (.user f) ∨ s.WaitsForCurrent w ∧ ∃ v, s.Lags v f
  | .inner _, f => s.Settled .future (.user f)
  | .suspended _, f => s.Settled .switch (.user f) ∨ ∃ v, s.Lags v f
  | .child d h, f => s.Settled .switch (.user f) ∨ ∃ v, s.Lags v f ∧ (v, d, h) ∈ s.decjoins
  | .pool w, f => s.Idle (.user f) ∨ s.Removes w f
  | .slot w, f => s.Rests (.user f) ∨ s.Lags w f
  | .globalPool, f | .spare _, f | .heap, f => s.Idle (.user f)

/-- A worker is in `do_post_switch_actions`. -/
def inPostSwitch : SwitchPc δ → Bool
  | .arrived | .postSwitchProc | .pendingRemoveRef => true
  | _ => false

/-- Where a worker is, and what it runs. -/
def PcOk (s : FiberSwitch ω δ β) (w : ω) : Prop :=
  match s.pc w with
  | .user => ∃ f, s.cactus.current w = some f ∧ s.executing w = .user f
  | .scheduling => s.executing w = .scheduling w
  | .suspending _ => ∃ f, s.executing w = .user f ∧ (s.cactus.current w = some f → s.WaitsForCurrent w)
  | .leaving _ remove =>
      ∃ f, s.executing w = .user f ∧ (s.cactus.current w = some f → remove = false ∧ s.WaitsForCurrent w)
  | .arrived | .postSwitchProc | .pendingRemoveRef =>
      s.executing w = .scheduling w ∨ ∃ f, s.cactus.current w = some f ∧ s.executing w = .user f

/-- The fiber that a worker is on, and what it left. -/
structure WorkerOk (s : FiberSwitch ω δ β) (w : ω) : Prop where
  live : s.context (s.executing w) = .live ∧ s.resumable (s.executing w) = false
  own : ∀ v, s.executing w = .scheduling v → v = w
  fromFiber : ∀ x, s.fromFiber (s.executing w) = some x →
    s.pc w = .arrived ∧ s.context x = .saved .switch ∧ s.resumable x = false ∧ ∀ v, x = .scheduling v → v = w
  pending : ∀ x, s.pendingRemoveRef (s.executing w) = some x →
    inPostSwitch (s.pc w) ∧ s.context x = .fresh ∧ s.resumable x = false ∧ ∃ f, x = .user f

/-- The scheduling fiber of a worker. -/
def SchedulingOk (s : FiberSwitch ω δ β) (w : ω) : Prop :=
  s.executing w = .scheduling w ∨ s.fromFiber (s.executing w) = some (.scheduling w) ∨
    s.Startable (.scheduling w)

/-- A deque is handed to one worker at a time, and a worker that has seen the flag of its fiber can go
on with it. -/
structure ClaimsOk (s : FiberSwitch ω δ β) : Prop where
  claimed : ∀ w d, s.claim w = some d → s.claimed d = true ∧ (s.cactus.strand d).place ≠ .unused
  once : ∀ v w d, s.claim v = some d → s.claim w = some d → v = w
  waited : ∀ w d, s.claim w = some d → s.awaits w = false → (s.cactus.strand d).place = .suspended ∧
    ∃ f, (s.cactus.strand d).fiber = some f ∧ s.Settled .switch (.user f)

end FiberSwitch

open FiberSwitch

/-- What holds between the steps. -/
structure FiberSwitchInv (s : FiberSwitch ω δ β) : Prop where
  cactus : CactusInv s.cactus
  alone : ∀ v w x, s.Occupies v x → s.Occupies w x → v = w
  worker : ∀ w, s.WorkerOk w
  pc : ∀ w, s.PcOk w
  scheduling : ∀ w, s.SchedulingOk w
  noFrom : ∀ x y, s.fromFiber x = some y → ∃ w, s.executing w = x
  noPending : ∀ x y, s.pendingRemoveRef x = some y → ∃ w, s.executing w = x
  position : ∀ p f, s.cactus.At p f → s.PositionOk p f
  claims : s.ClaimsOk

section Facts

variable {s s' : FiberSwitch ω δ β} {v w : ω} {x y : Fiber ω β} {f g : β} {p : FiberPosition ω δ}
  {point : ResumePoint}

theorem FiberSwitch.Lags.occupies (lags : s.Lags w f) : s.Occupies w (.user f) :=
  lags.elim (fun on => .inl on.2) fun left => .inr (.inl left)

theorem FiberSwitch.Removes.occupies (removes : s.Removes w f) : s.Occupies w (.user f) :=
  removes.elim (fun on => .inl on.2) fun left => .inr (.inr left)

/-- A worker that is not in the actions after a switch has left no fiber. -/
theorem FiberSwitch.WorkerOk.noFrom (ok : s.WorkerOk w) (notArrived : s.pc w ≠ .arrived) :
    s.fromFiber (s.executing w) = none := by
  cases isFrom : s.fromFiber (s.executing w) with
  | none => rfl
  | some x => exact absurd (ok.fromFiber x isFrom).1 notArrived

theorem FiberSwitch.WorkerOk.noPending (ok : s.WorkerOk w) (notPost : inPostSwitch (s.pc w) = false) :
    s.pendingRemoveRef (s.executing w) = none := by
  cases isPending : s.pendingRemoveRef (s.executing w) with
  | none => rfl
  | some x =>
    have inPost := (ok.pending x isPending).1
    rw [notPost] at inPost
    cases inPost

/-- Such a worker is on one fiber. -/
theorem FiberSwitch.WorkerOk.occupies_iff (ok : s.WorkerOk w) (notPost : inPostSwitch (s.pc w) = false) :
    s.Occupies w x ↔ s.executing w = x := by
  have notArrived : s.pc w ≠ .arrived := by
    intro isArrived
    rw [isArrived] at notPost
    cases notPost
  constructor
  · intro occupies
    rcases occupies with on | isFrom | isPending
    · exact on
    · rw [ok.noFrom notArrived] at isFrom
      cases isFrom
    · rw [ok.noPending notPost] at isPending
      cases isPending
  · exact .inl

/-- Nobody was left for a fiber that no worker is on. -/
theorem FiberSwitchInv.from_none (inv : FiberSwitchInv s) (rests : s.Rests x) : s.fromFiber x = none := by
  cases isFrom : s.fromFiber x with
  | none => rfl
  | some y =>
    obtain ⟨w, on⟩ := inv.noFrom x y isFrom
    exact absurd (.inl on) (rests w)

theorem FiberSwitchInv.pending_none (inv : FiberSwitchInv s) (rests : s.Rests x) :
    s.pendingRemoveRef x = none := by
  cases isPending : s.pendingRemoveRef x with
  | none => rfl
  | some y =>
    obtain ⟨w, on⟩ := inv.noPending x y isPending
    exact absurd (.inl on) (rests w)

/-- The flag of a fiber that a worker has yet to leave is not set. -/
theorem FiberSwitchInv.not_resumable_of_lags (inv : FiberSwitchInv s) (lags : s.Lags w f) :
    s.resumable (.user f) = false := by
  rcases lags with ⟨-, on⟩ | isFrom
  · rw [← on]
    exact (inv.worker w).live.2
  · exact ((inv.worker w).fromFiber _ isFrom).2.2.1

/-- A fiber that can be switched to is on nobody's stack. -/
theorem FiberSwitch.Startable.rests (startable : s.Startable x) : s.Rests x := by
  rcases startable with idle | ⟨_, settled⟩
  · exact idle.2.2
  · exact settled.2.2

end Facts

/-! ### Fibers that a step does not touch -/

/-- A step leaves a fiber alone. -/
structure FiberKept (s s' : FiberSwitch ω δ β) (x : Fiber ω β) : Prop where
  context : s'.context x = s.context x
  resumable : s'.resumable x = s.resumable x
  occupies : ∀ w, s'.Occupies w x → s.Occupies w x

/-- It leaves a user fiber alone, and those who have yet to leave it. -/
structure UserKept (s s' : FiberSwitch ω δ β) (f : β) : Prop extends FiberKept s s' (.user f) where
  executing : ∀ w, s.executing w = .user f → s'.executing w = .user f
  lags : ∀ w, s.Lags w f → s'.Lags w f
  removes : ∀ w, s.Removes w f → s'.Removes w f

section Kept

variable {s s' : FiberSwitch ω δ β} {v w : ω} {x y : Fiber ω β} {f g : β} {p : FiberPosition ω δ}
  {point : ResumePoint}

theorem FiberKept.rests (kept : FiberKept s s' x) (rests : s.Rests x) : s'.Rests x :=
  fun w occupies => rests w (kept.occupies w occupies)

theorem FiberKept.settled (kept : FiberKept s s' x) (settled : s.Settled point x) : s'.Settled point x :=
  ⟨kept.context.trans settled.1, kept.resumable.trans settled.2.1, kept.rests settled.2.2⟩

theorem FiberKept.idle (kept : FiberKept s s' x) (idle : s.Idle x) : s'.Idle x :=
  ⟨kept.context.trans idle.1, kept.resumable.trans idle.2.1, kept.rests idle.2.2⟩

theorem FiberKept.startable (kept : FiberKept s s' x) (startable : s.Startable x) : s'.Startable x :=
  startable.imp kept.idle (Exists.imp fun _ => kept.settled)

/-- What is known of the fiber stays. -/
theorem UserKept.position (kept : UserKept s s' f)
    (waits : ∀ w, p = .current w → s.WaitsForCurrent w → (∃ v, s.Lags v f) → s'.WaitsForCurrent w)
    (decjoins : ∀ v d h, p = .child d h → s.Lags v f → (v, d, h) ∈ s.decjoins → (v, d, h) ∈ s'.decjoins)
    (ok : s.PositionOk p f) : s'.PositionOk p f := by
  have lags : (∃ v, s.Lags v f) → ∃ v, s'.Lags v f := Exists.imp kept.lags
  cases p with
  | current w =>
    rcases ok with on | startable | ⟨waiting, lagging⟩
    · exact .inl (kept.executing w on)
    · exact .inr (.inl (kept.startable startable))
    · exact .inr (.inr ⟨waits w rfl waiting lagging, lags lagging⟩)
  | inner d => exact kept.settled ok
  | suspended d => exact ok.imp kept.settled lags
  | child d h =>
    apply ok.imp kept.settled
    rintro ⟨v, lagging, due⟩
    exact ⟨v, kept.lags v lagging, decjoins v d h rfl lagging due⟩
  | slot w => exact ok.imp kept.rests (kept.lags w)
  | pool w => exact ok.imp kept.idle (kept.removes w)
  | globalPool => exact kept.idle ok
  | spare w => exact kept.idle ok
  | heap => exact kept.idle ok

end Kept

/-! ### Steps that touch no fiber -/

/-- A worker goes on with leaving a fiber, and with the actions after a switch. -/
structure PcKept (a b : SwitchPc δ) : Prop where
  publishes : (isSuspending a ∨ ∃ target, a = .leaving target false) →
    isSuspending b ∨ ∃ target, b = .leaving target false
  removing : (∃ target, a = .leaving target true) → ∃ target, b = .leaving target true
  arrived : a = .arrived → b = .arrived
  inPostSwitch : inPostSwitch a → inPostSwitch b

/-- The fibers stay as they are, and who has yet to leave them. -/
structure SameFibers (s s' : FiberSwitch ω δ β) : Prop where
  resumable : s'.resumable = s.resumable
  fromFiber : s'.fromFiber = s.fromFiber
  pendingRemoveRef : s'.pendingRemoveRef = s.pendingRemoveRef
  context : s'.context = s.context
  executing : s'.executing = s.executing
  pc : ∀ w, PcKept (s.pc w) (s'.pc w)

section Same

variable {s s' : FiberSwitch ω δ β} {v w : ω} {x : Fiber ω β} {f : β} {d : δ}

theorem PcKept.refl (a : SwitchPc δ) : PcKept a a := ⟨id, id, id, id⟩

/-- A worker in user code has nothing to go on with. -/
theorem PcKept.of_user (b : SwitchPc δ) : PcKept .user b := by
  constructor <;> simp [isSuspending, FiberSwitch.inPostSwitch]

theorem PcKept.set [DecidableEq ω] {pcs : ω → SwitchPc δ} {b : SwitchPc δ} (kept : PcKept (pcs w) b) (v : ω) :
    PcKept (pcs v) (setAt pcs w b v) := by
  by_cases isW : v = w
  · rw [isW, setAt_self]
    exact kept
  · rw [setAt_other isW]
    exact .refl _

theorem SameFibers.fiberKept (same : SameFibers s s') (x : Fiber ω β) : FiberKept s s' x where
  context := by rw [same.context]
  resumable := by rw [same.resumable]
  occupies w occupies := by
    rw [FiberSwitch.Occupies, same.executing, same.fromFiber, same.pendingRemoveRef] at occupies
    exact occupies

theorem SameFibers.userKept (same : SameFibers s s') (f : β) : UserKept s s' f where
  toFiberKept := same.fiberKept _
  executing w on := by
    rw [same.executing]
    exact on
  lags w lags := by
    rw [FiberSwitch.Lags, same.executing, same.fromFiber]
    exact lags.imp_left (And.imp_left ((same.pc w).publishes))
  removes w removes := by
    rw [FiberSwitch.Removes, same.executing, same.pendingRemoveRef]
    exact removes.imp_left (And.imp_left ((same.pc w).removing))

theorem SameFibers.workerOk (same : SameFibers s s') (ok : s.WorkerOk w) : s'.WorkerOk w where
  live := by
    rw [same.executing, same.context, same.resumable]
    exact ok.live
  own := by
    rw [same.executing]
    exact ok.own
  fromFiber x isFrom := by
    rw [same.executing, same.fromFiber] at isFrom
    obtain ⟨arrived, saved, flag, own⟩ := ok.fromFiber x isFrom
    rw [same.context, same.resumable]
    exact ⟨(same.pc w).arrived arrived, saved, flag, own⟩
  pending x isPending := by
    rw [same.executing, same.pendingRemoveRef] at isPending
    obtain ⟨post, fresh, flag, isUser⟩ := ok.pending x isPending
    rw [same.context, same.resumable]
    exact ⟨(same.pc w).inPostSwitch post, fresh, flag, isUser⟩

theorem SameFibers.schedulingOk (same : SameFibers s s') (ok : s.SchedulingOk w) : s'.SchedulingOk w := by
  rw [FiberSwitch.SchedulingOk, same.executing, same.fromFiber]
  exact ok.imp_right (Or.imp_right (same.fiberKept _).startable)

/-- Such a step keeps the invariant if it keeps what is known of the workers, the positions and the claims. -/
theorem FiberSwitchInv.of_sameFibers (inv : FiberSwitchInv s) (same : SameFibers s s')
    (cactus : CactusInv s'.cactus)
    (pc : ∀ w, s'.PcOk w) (position : ∀ p f, s'.cactus.At p f → s'.PositionOk p f) (claims : s'.ClaimsOk) :
    FiberSwitchInv s' where
  cactus := cactus
  alone v w x occupiesV occupiesW :=
    inv.alone v w x ((same.fiberKept x).occupies v occupiesV) ((same.fiberKept x).occupies w occupiesW)
  worker w := same.workerOk (inv.worker w)
  pc := pc
  scheduling w := same.schedulingOk (inv.scheduling w)
  noFrom x y isFrom := by
    rw [same.fromFiber] at isFrom
    rw [same.executing]
    exact inv.noFrom x y isFrom
  noPending x y isPending := by
    rw [same.pendingRemoveRef] at isPending
    rw [same.executing]
    exact inv.noPending x y isPending
  position := position
  claims := claims

/-- The claims that are left by a step that claims nothing. -/
theorem FiberSwitch.ClaimsOk.fewer (ok : s.ClaimsOk)
    (left : ∀ w d, s'.claim w = some d →
      s.claim w = some d ∧ s'.claimed d = s.claimed d ∧ s'.awaits w = s.awaits w ∧
        (s.cactus.strand d).Persists (s'.cactus.strand d))
    (settled : ∀ w d f, s.claim w = some d → (s.cactus.strand d).place = .suspended →
      (s.cactus.strand d).fiber = some f → s.Settled .switch (.user f) → s'.Settled .switch (.user f)) :
    s'.ClaimsOk where
  claimed w d isClaim := by
    obtain ⟨was, sameClaimed, -, persists⟩ := left w d isClaim
    obtain ⟨claimed, used⟩ := ok.claimed w d was
    exact ⟨sameClaimed.trans claimed, persists.used used⟩
  once v w d isClaimV isClaimW := ok.once v w d (left v d isClaimV).1 (left w d isClaimW).1
  waited w d isClaim seen := by
    obtain ⟨was, -, sameAwaits, persists⟩ := left w d isClaim
    obtain ⟨suspended, f, isFiber, isSettled⟩ := ok.waited w d was (sameAwaits ▸ seen)
    obtain ⟨still, sameFiber⟩ := persists.suspended suspended
    exact ⟨still, f, sameFiber.trans isFiber, settled w d f was suspended isFiber isSettled⟩

/-- What is known of where a worker is, if it stays there. -/
theorem FiberSwitch.PcOk.same (ok : s.PcOk w) (pc : s'.pc w = s.pc w)
    (executing : s'.executing w = s.executing w)
    (current : s'.cactus.current w = s.cactus.current w) (waits : s.WaitsForCurrent w → s'.WaitsForCurrent w) :
    s'.PcOk w := by
  unfold PcOk at ok ⊢
  rw [pc, executing, current]
  cases isPc : s.pc w with
  | suspending d =>
    simp only [isPc] at ok
    obtain ⟨f, on, notCurrent⟩ := ok
    exact ⟨f, on, fun isCurrent => waits (notCurrent isCurrent)⟩
  | leaving target remove =>
    simp only [isPc] at ok
    obtain ⟨f, on, notCurrent⟩ := ok
    exact ⟨f, on, fun isCurrent => (notCurrent isCurrent).imp_right waits⟩
  | user | scheduling | arrived | postSwitchProc | pendingRemoveRef =>
    simp only [isPc] at ok
    exact ok

end Same

end CilkL
