/-
Module: CilkL.Proofs.FiberSwitch
Layer: Proofs
Purpose: Switches between fibers are safe in every run. No two workers are on one stack; a worker switches to a
  fiber that nobody is on, whose flag is set exactly if there is a context to go on with; and the fiber of a
  deque that another worker may be handed, of a parent of a future, or in a cache or a pool is what those who
  take it from there rely on.
Imports: CilkL.Proofs.FiberSwitchStrands
Trusted boundary: none (fully proved)
Main exports: FiberSwitchInv.of_step, FiberSwitch.Safe, fiber_switch_safe
Open obligations: none
-/
import CilkL.Proofs.FiberSwitchStrands

namespace CilkL

variable {ω δ β : Type}

open FiberSwitch

/-! ### Steps of one worker from fiber to fiber -/

/-- One worker goes to a fiber that nobody is on, or finishes with one that it has left. -/
structure ByWorker (s s' : FiberSwitch ω δ β) (w : ω) : Prop where
  executing : ∀ v, v ≠ w → s'.executing v = s.executing v
  pc : ∀ v, v ≠ w → s'.pc v = s.pc v
  fromFiber : ∀ v, v ≠ w → s'.fromFiber (s.executing v) = s.fromFiber (s.executing v)
  pendingRemoveRef : ∀ v, v ≠ w → s'.pendingRemoveRef (s.executing v) = s.pendingRemoveRef (s.executing v)
  noFrom : ∀ x y, s'.fromFiber x = some y → x = s'.executing w ∨ ∃ v, v ≠ w ∧ s.executing v = x
  noPending : ∀ x y, s'.pendingRemoveRef x = some y → x = s'.executing w ∨ ∃ v, v ≠ w ∧ s.executing v = x
  takes : ∀ x, s'.Occupies w x → s.Occupies w x ∨ s.Rests x
  untouched : ∀ x, ¬s.Occupies w x → ¬s'.Occupies w x →
    s'.context x = s.context x ∧ s'.resumable x = s.resumable x

section Moves

variable {s s' : FiberSwitch ω δ β} {v w : ω} {x y : Fiber ω β} {f g : β} {p : FiberPosition ω δ}

theorem ByWorker.occupies_other (step : ByWorker s s' w) (other : v ≠ w) :
    s'.Occupies v x ↔ s.Occupies v x := by
  rw [FiberSwitch.Occupies, FiberSwitch.Occupies, step.executing v other, step.fromFiber v other,
    step.pendingRemoveRef v other]

/-- A fiber that the worker is not on before the step, nor after it. -/
theorem ByWorker.fiberKept (step : ByWorker s s' w) (before : ¬s.Occupies w x) (after : ¬s'.Occupies w x) :
    FiberKept s s' x where
  context := (step.untouched x before after).1
  resumable := (step.untouched x before after).2
  occupies v occupies := by
    by_cases isW : v = w
    · exact absurd (isW ▸ occupies) after
    · exact (step.occupies_other isW).1 occupies

theorem ByWorker.userKept (step : ByWorker s s' w) (before : ¬s.Occupies w (.user f))
    (after : ¬s'.Occupies w (.user f)) : UserKept s s' f where
  toFiberKept := step.fiberKept before after
  executing v on := by
    have other : v ≠ w := fun isW => before (isW ▸ .inl on)
    rw [step.executing v other]
    exact on
  lags v lags := by
    have other : v ≠ w := fun isW => before (isW ▸ lags.occupies)
    rw [FiberSwitch.Lags, step.executing v other, step.fromFiber v other, step.pc v other]
    exact lags
  removes v removes := by
    have other : v ≠ w := fun isW => before (isW ▸ removes.occupies)
    rw [FiberSwitch.Removes, step.executing v other, step.pendingRemoveRef v other, step.pc v other]
    exact removes

/-- A fiber of another worker. -/
theorem ByWorker.of_other (step : ByWorker s s' w) (inv : FiberSwitchInv s) (other : v ≠ w)
    (occupies : s.Occupies v x) : ¬s.Occupies w x ∧ ¬s'.Occupies w x := by
  have before : ¬s.Occupies w x := fun mine => other (inv.alone v w x occupies mine)
  exact ⟨before, fun mine => (step.takes x mine).elim before fun rests => rests v occupies⟩

/-- Such a step keeps the invariant if it keeps what is known of this worker, and of the fibers that it
is on. -/
theorem FiberSwitchInv.of_byWorker (inv : FiberSwitchInv s) (step : ByWorker s s' w)
    (cactus : CactusInv s'.cactus)
    (worker : s'.WorkerOk w) (pc : s'.PcOk w) (scheduling : s'.SchedulingOk w)
    (current : ∀ v, v ≠ w → s'.cactus.current v = s.cactus.current v)
    (claim : s'.claim = s.claim) (awaits : s'.awaits = s.awaits) (decjoins : s'.decjoins = s.decjoins)
    (position : ∀ p f, s'.cactus.At p f →
      s.cactus.At p f ∧ ¬s.Occupies w (.user f) ∧ ¬s'.Occupies w (.user f) ∨ s'.PositionOk p f)
    (claims : s'.ClaimsOk) : FiberSwitchInv s' where
  cactus := cactus
  alone := by
    have mine : ∀ v x, v ≠ w → s'.Occupies v x → ¬s'.Occupies w x := fun v x other occupies =>
      (step.of_other inv other ((step.occupies_other other).1 occupies)).2
    intro v v' x occupies occupies'
    by_cases isW : v = w <;> by_cases isW' : v' = w
    · rw [isW, isW']
    · exact absurd (isW ▸ occupies) (mine v' x isW' occupies')
    · exact absurd (isW' ▸ occupies') (mine v x isW occupies)
    · exact inv.alone v v' x ((step.occupies_other isW).1 occupies) ((step.occupies_other isW').1 occupies')
  worker v := by
    by_cases isW : v = w
    · rw [isW]
      exact worker
    · have ok := inv.worker v
      have kept : ∀ x, s.Occupies v x → FiberKept s s' x := fun x occupies =>
        step.fiberKept (step.of_other inv isW occupies).1 (step.of_other inv isW occupies).2
      constructor
      · rw [step.executing v isW, (kept _ (.inl rfl)).context, (kept _ (.inl rfl)).resumable]
        exact ok.live
      · rw [step.executing v isW]
        exact ok.own
      · intro x isFrom
        rw [step.executing v isW, step.fromFiber v isW] at isFrom
        rw [step.pc v isW, (kept x (.inr (.inl isFrom))).context, (kept x (.inr (.inl isFrom))).resumable]
        exact ok.fromFiber x isFrom
      · intro x isPending
        rw [step.executing v isW, step.pendingRemoveRef v isW] at isPending
        rw [step.pc v isW, (kept x (.inr (.inr isPending))).context, (kept x (.inr (.inr isPending))).resumable]
        exact ok.pending x isPending
  pc v := by
    by_cases isW : v = w
    · rw [isW]
      exact pc
    · refine (inv.pc v).same (step.pc v isW) (step.executing v isW) (current v isW) ?_
      rw [WaitsForCurrent, WaitsForCurrent, claim, awaits]
      exact id
  scheduling v := by
    by_cases isW : v = w
    · rw [isW]
      exact scheduling
    · rw [FiberSwitch.SchedulingOk, step.executing v isW, step.fromFiber v isW]
      refine (inv.scheduling v).imp_right (Or.imp_right fun startable => ?_)
      refine (step.fiberKept (startable.rests w) fun mine => ?_).startable startable
      rcases mine with on | isFrom | isPending
      · exact isW (worker.own v on)
      · exact isW ((worker.fromFiber _ isFrom).2.2.2 v rfl)
      · obtain ⟨f, isUser⟩ := (worker.pending _ isPending).2.2.2
        cases isUser
  noFrom x y isFrom := by
    rcases step.noFrom x y isFrom with rfl | ⟨v, other, on⟩
    · exact ⟨w, rfl⟩
    · exact ⟨v, (step.executing v other).trans on⟩
  noPending x y isPending := by
    rcases step.noPending x y isPending with rfl | ⟨v, other, on⟩
    · exact ⟨w, rfl⟩
    · exact ⟨v, (step.executing v other).trans on⟩
  position p f now := by
    rcases position p f now with ⟨was, before, after⟩ | ok
    · refine (step.userKept before after).position ?_
        (fun _ _ _ _ _ due => decjoins ▸ due) (inv.position p f was)
      intro v _ waits _
      rw [WaitsForCurrent, claim, awaits]
      exact waits
    · exact ok
  claims := claims

end Moves

/-! ### A worker goes to another fiber -/

section Switch

variable {s s' : FiberSwitch ω δ β} {t : CactusState ω δ β} {v w : ω} {d : δ} {x y left next : Fiber ω β}
  {f g : β} {p : FiberPosition ω δ} [DecidableEq ω]

/-- It goes from `left` to `next`, which nobody is on. -/
structure Moves (s s' : FiberSwitch ω δ β) (w : ω) (left next : Fiber ω β) : Prop where
  isLeft : s.executing w = left
  notPost : inPostSwitch (s.pc w) = false
  rests : s.Rests next
  executing : s'.executing = setAt s.executing w next
  pc : ∀ v, v ≠ w → s'.pc v = s.pc v
  fromFiber : ∀ x, x ≠ next → s'.fromFiber x = s.fromFiber x
  pendingRemoveRef : ∀ x, x ≠ next → s'.pendingRemoveRef x = s.pendingRemoveRef x
  fromOther : ∀ y, s'.fromFiber next = some y → y = left
  pendingOther : ∀ y, s'.pendingRemoveRef next = some y → y = left
  untouched : ∀ x, x ≠ left → x ≠ next → s'.context x = s.context x ∧ s'.resumable x = s.resumable x
  live : s'.context next = .live ∧ s'.resumable next = false

theorem Moves.now (moves : Moves s s' w left next) : s'.executing w = next := by
  rw [moves.executing, setAt_self]

theorem Moves.occupies (moves : Moves s s' w left next) (occupies : s'.Occupies w x) : x = next ∨ x = left := by
  rw [FiberSwitch.Occupies, moves.now] at occupies
  rcases occupies with on | isFrom | isPending
  · exact .inl on.symm
  · exact .inr (moves.fromOther x isFrom)
  · exact .inr (moves.pendingOther x isPending)

omit [DecidableEq ω] in
/-- The worker was on `left` alone. -/
theorem FiberSwitchInv.occupies_left (inv : FiberSwitchInv s) (notPost : inPostSwitch (s.pc w) = false) :
    s.Occupies w x ↔ s.executing w = x :=
  (inv.worker w).occupies_iff notPost

theorem Moves.left_ne (moves : Moves s s' w left next) : left ≠ next := by
  intro same
  exact moves.rests w (.inl (moves.isLeft.trans same))

/-- A fiber that the worker is neither on before nor after it went. -/
theorem Moves.away (inv : FiberSwitchInv s) (moves : Moves s s' w left next) (notSelf : x ≠ left)
    (notOther : x ≠ next) : ¬s.Occupies w x ∧ ¬s'.Occupies w x := by
  constructor
  · intro occupies
    have on := (inv.occupies_left moves.notPost).1 occupies
    exact notSelf (on.symm.trans moves.isLeft)
  · exact fun occupies => (moves.occupies occupies).elim notOther notSelf

theorem Moves.byWorker (inv : FiberSwitchInv s) (moves : Moves s s' w left next) : ByWorker s s' w := by
  have notArrived : s.pc w ≠ .arrived := by
    intro isArrived
    have notPost := moves.notPost
    rw [isArrived] at notPost
    cases notPost
  have away : ∀ v, s.executing v ≠ next := fun v on => moves.rests v (.inl on)
  constructor
  · intro v isOther
    rw [moves.executing, setAt_other isOther]
  · exact moves.pc
  · exact fun v _ => moves.fromFiber _ (away v)
  · exact fun v _ => moves.pendingRemoveRef _ (away v)
  · intro x y isFrom
    by_cases isOther : x = next
    · exact .inl (isOther.trans moves.now.symm)
    · rw [moves.fromFiber x isOther] at isFrom
      obtain ⟨v, on⟩ := inv.noFrom x y isFrom
      refine .inr ⟨v, ?_, on⟩
      intro isW
      rw [← on, isW, (inv.worker w).noFrom notArrived] at isFrom
      cases isFrom
  · intro x y isPending
    by_cases isOther : x = next
    · exact .inl (isOther.trans moves.now.symm)
    · rw [moves.pendingRemoveRef x isOther] at isPending
      obtain ⟨v, on⟩ := inv.noPending x y isPending
      refine .inr ⟨v, ?_, on⟩
      intro isW
      rw [← on, isW, (inv.worker w).noPending moves.notPost] at isPending
      cases isPending
  · intro x occupies
    rcases moves.occupies occupies with rfl | rfl
    · exact .inr moves.rests
    · exact .inl (.inl moves.isLeft)
  · intro x before after
    apply moves.untouched
    · exact fun isSelf => before (.inl (moves.isLeft.trans isSelf.symm))
    · exact fun isOther => after (.inl (moves.now.trans isOther.symm))

/-- The claims stay where the worker does not go to the fiber of a suspended deque. -/
theorem Moves.claimsOk (inv : FiberSwitchInv s) (moves : Moves s s' w left next)
    (elsewhere : ∀ d f, s.cactus.At (.suspended d) f → .user f ≠ next)
    (claim : s'.claim = s.claim) (claimed : s'.claimed = s.claimed) (awaits : s'.awaits = s.awaits)
    (persists : ∀ d, (s.cactus.strand d).Persists (s'.cactus.strand d)) : s'.ClaimsOk := by
  apply inv.claims.fewer
  · intro v d isClaim
    rw [claim] at isClaim
    exact ⟨isClaim, by rw [claimed], by rw [awaits], persists d⟩
  · intro v d f _ _ isFiber settled
    have notSelf : Fiber.user f ≠ left := fun isSelf => settled.2.2 w (.inl (moves.isLeft.trans isSelf.symm))
    obtain ⟨before, after⟩ := moves.away inv notSelf (elsewhere d f isFiber)
    exact ((moves.byWorker inv).fiberKept before after).settled settled

/-- The switches of `setup_for_future` and `setup_for_future_return`. -/
theorem Moves.of_setup [DecidableEq β] (inv : FiberSwitchInv s) {saved : FiberContext} {flag : Bool}
    (inUser : s.pc w = .user) (isLeft : s.executing w = left) (rests : s.Rests next)
    (executing : s'.executing = setAt s.executing w next) (pc : s'.pc = s.pc)
    (fromFiber : s'.fromFiber = s.fromFiber) (pendingRemoveRef : s'.pendingRemoveRef = s.pendingRemoveRef)
    (context : s'.context = setAt (setAt s.context left saved) next .live)
    (resumable : s'.resumable = setAt (setAt s.resumable left flag) next false) :
    Moves s s' w left next ∧ s'.context left = saved ∧ s'.resumable left = flag ∧ s'.Rests left := by
  have moves : Moves s s' w left next := by
    refine ⟨isLeft, by rw [inUser]; rfl, rests, executing, fun v _ => by rw [pc], fun x _ => by rw [fromFiber],
      fun x _ => by rw [pendingRemoveRef], ?_, ?_, ?_, ?_⟩
    · intro y isFrom
      rw [fromFiber, inv.from_none rests] at isFrom
      cases isFrom
    · intro y isPending
      rw [pendingRemoveRef, inv.pending_none rests] at isPending
      cases isPending
    · intro x notLeft notNext
      rw [context, resumable, setAt_other notNext, setAt_other notLeft,
        setAt_other notNext, setAt_other notLeft]
      exact ⟨rfl, rfl⟩
    · rw [context, resumable, setAt_self, setAt_self]
      exact ⟨rfl, rfl⟩
  refine ⟨moves, ?_, ?_, ?_⟩
  · rw [context, setAt_other moves.left_ne, setAt_self]
  · rw [resumable, setAt_other moves.left_ne, setAt_self]
  · intro v occupies
    by_cases isW : v = w
    · rw [isW, FiberSwitch.Occupies, moves.now, fromFiber, pendingRemoveRef, inv.from_none rests,
        inv.pending_none rests] at occupies
      rcases occupies with on | isFrom | isPending
      · exact moves.left_ne on.symm
      · cases isFrom
      · cases isPending
    · have was := ((moves.byWorker inv).occupies_other isW).1 occupies
      exact isW (inv.alone v w left was (.inl isLeft))

/-- A worker that has gone from a user fiber to that of its strand is in order. -/
theorem FiberSwitchInv.of_moves (inv : FiberSwitchInv s) (moves : Moves s s' w (.user g) (.user f))
    (cactus : CactusInv s'.cactus) (inUser : s.pc w = .user) (pc : s'.pc = s.pc)
    (fromFiber : s'.fromFiber = s.fromFiber) (pendingRemoveRef : s'.pendingRemoveRef = s.pendingRemoveRef)
    (isCurrent : s'.cactus.current w = some f) (current : ∀ v, v ≠ w → s'.cactus.current v = s.cactus.current v)
    (claim : s'.claim = s.claim) (claimed : s'.claimed = s.claimed) (awaits : s'.awaits = s.awaits)
    (decjoins : s'.decjoins = s.decjoins)
    (elsewhere : ∀ d, ¬s.cactus.At (.suspended d) f)
    (persists : ∀ d, (s.cactus.strand d).Persists (s'.cactus.strand d))
    (position : ∀ p f', s'.cactus.At p f' → s.cactus.At p f' ∧ f' ≠ g ∧ f' ≠ f ∨ s'.PositionOk p f') :
    FiberSwitchInv s' := by
  have noFrom : ∀ y, s'.fromFiber (s'.executing w) ≠ some y := by
    intro y isFrom
    rw [moves.now, fromFiber, inv.from_none moves.rests] at isFrom
    cases isFrom
  have noPending : ∀ y, s'.pendingRemoveRef (s'.executing w) ≠ some y := by
    intro y isPending
    rw [moves.now, pendingRemoveRef, inv.pending_none moves.rests] at isPending
    cases isPending
  apply inv.of_byWorker (moves.byWorker inv) cactus
  · refine ⟨moves.now ▸ moves.live, ?_, fun y isFrom => absurd isFrom (noFrom y),
      fun y isPending => absurd isPending (noPending y)⟩
    intro v isScheduling
    rw [moves.now] at isScheduling
    cases isScheduling
  · simp only [PcOk, pc, inUser]
    exact ⟨f, isCurrent, moves.now⟩
  · have notArrived : s.pc w ≠ .arrived := by simp [inUser]
    rcases inv.scheduling w with on | isFrom | startable
    · exact absurd (moves.isLeft.symm.trans on) (by simp)
    · rw [(inv.worker w).noFrom notArrived] at isFrom
      cases isFrom
    · obtain ⟨before, after⟩ := moves.away inv (x := .scheduling w) (by simp) (by simp)
      exact .inr (.inr (((moves.byWorker inv).fiberKept before after).startable startable))
  · exact current
  · exact claim
  · exact awaits
  · exact decjoins
  · intro p f' now
    rcases position p f' now with ⟨was, notLeft, notNext⟩ | ok
    · refine .inl ⟨was, ?_⟩
      exact moves.away inv (fun same => notLeft (Fiber.user.inj same)) fun same => notNext (Fiber.user.inj same)
    · exact .inr ok
  · refine moves.claimsOk inv (fun d f' isAt isNext => ?_) claim claimed awaits persists
    cases isNext
    exact elsewhere d isAt

end Switch

section Futures

variable {s : FiberSwitch ω δ β} {t : CactusState ω δ β} {w : ω} {d : δ} {f g : β} {p : FiberPosition ω δ}
  {f' : β} [DecidableEq ω] [DecidableEq δ] [DecidableEq β]

omit [DecidableEq ω] [DecidableEq δ] [DecidableEq β] in
/-- The fiber that a worker is on after the step, and the one that it was on, are at new positions. -/
theorem new_positions (before : CactusInv s.cactus) (after : CactusInv t)
    (isCurrent : s.cactus.current w = some g)
    (isCurrent' : t.current w = some f) (different : g ≠ f) (was : s.cactus.At p f') (now : t.At p f') :
    f' ≠ g ∧ (f' = f → p = .current w) := by
  constructor
  · rintro rfl
    have isP := before.at_unique was (q := .current w) isCurrent
    rw [isP] at now
    exact different (Option.some.inj (now.symm.trans isCurrent'))
  · rintro rfl
    exact after.at_unique now isCurrent'

/-- A future is spawned: its parent can be resumed from then on. -/
theorem FiberSwitchInv.spawnFuture {heap heapOfParent : Option β} (inv : FiberSwitchInv s) (ready : s.InUser d)
    (taken : cactusStep s.cactus (.spawnFuture d heap heapOfParent) = some t) :
    FiberSwitchInv { s.along t (.spawnFuture d heap heapOfParent) with cactus := t } := by
  obtain ⟨w, initial, fiber, on, isCurrent, isFiber, source, others, back⟩ := at_spawnFuture inv.cactus taken
  have inUser := inUser_of_ready ready on
  have onInitial := inv.on_current inUser isCurrent
  have after := inv.cactus.next taken trivial
  simp only [along, on, isFiber]
  have rests : s.Rests (.user fiber) := by
    rcases source with inSlot | isSpare
    · refine (inv.position _ _ inSlot).resolve_right fun lags => ?_
      rcases lags with ⟨publishes, -⟩ | isFrom
      · simp [inUser, isSuspending] at publishes
      · rw [(inv.worker w).noFrom (by simp [inUser])] at isFrom
        cases isFrom
    · exact (inv.idle_of_spare (by rw [inUser]; rfl) (by simp [inUser]) isSpare).2.2
  obtain ⟨moves, saved, flag, settled⟩ :=
    (Moves.of_setup inv inUser onInitial rests rfl rfl rfl rfl (by rw [← onInitial]; rfl)
      (by rw [← onInitial]; rfl) :
      Moves s { s.setupForFuture w (.user fiber) with cactus := t } w (.user initial) (.user fiber) ∧ _)
  have different : initial ≠ fiber := fun same => moves.left_ne (by rw [same])
  refine inv.of_moves moves after inUser rfl rfl rfl isFiber others rfl rfl rfl rfl ?_ ?_ ?_
  · intro e isAt
    rcases source with inSlot | inPool | inGlobal | fresh
    · exact absurd (inv.cactus.at_unique isAt inSlot) (by simp)
    · exact absurd (inv.cactus.at_unique isAt inPool) (by simp)
    · exact absurd (inv.cactus.at_unique isAt inGlobal) (by simp)
    · exact absurd (inv.cactus.at_unique isAt fresh) (by simp)
  · exact fun e => strand_of_step taken (by simp [TakesOver])
  · intro p f now
    rcases back p f now with was | ⟨rfl, rfl⟩ | ⟨rfl, rfl⟩
    · obtain ⟨notInitial, isNext⟩ := new_positions inv.cactus after isCurrent isFiber different was now
      by_cases isF : f = fiber
      · rw [isNext isF, isF]
        exact .inr (.inl moves.now)
      · exact .inl ⟨was, notInitial, isF⟩
    · exact .inr (.inl moves.now)
    · exact .inr ⟨saved, flag, settled⟩

/-- A future returns: its fiber goes to the cache at rest, or to the pool without its flag. -/
theorem FiberSwitchInv.futureReturn (inv : FiberSwitchInv s) (ready : s.InUser d)
    (taken : cactusStep s.cactus (.futureReturn d) = some t) :
    FiberSwitchInv { s.along t (.futureReturn d) with cactus := t } := by
  obtain ⟨w, initial, current, on, isCurrent, isInitial, isInner, others, back⟩ :=
    at_futureReturn inv.cactus taken
  have inUser := inUser_of_ready ready on
  have onCurrent := inv.on_current inUser isCurrent
  have after := inv.cactus.next taken trivial
  simp only [along, on, isInitial]
  obtain ⟨moves, fresh, flag, settled⟩ :=
    (Moves.of_setup inv inUser onCurrent (inv.position _ _ isInner).2.2 rfl rfl rfl rfl
      (by rw [← onCurrent]; rfl)
      (by rw [← onCurrent]; rfl) :
      Moves s { s.setupForFutureReturn w (.user initial) (!s.hasRoom w) with cactus := t } w (.user current)
        (.user initial) ∧ _)
  have different : current ≠ initial := fun same => moves.left_ne (by rw [same])
  refine inv.of_moves moves after inUser rfl rfl rfl isInitial others rfl rfl rfl rfl ?_ ?_ ?_
  · exact fun e isAt => absurd (inv.cactus.at_unique isAt isInner) (by simp)
  · exact fun e => strand_of_step taken (by simp [TakesOver])
  · intro p f now
    rcases back p f now with was | ⟨rfl, rfl⟩ | ⟨rfl, rfl⟩
    · obtain ⟨notCurrent, isNext⟩ := new_positions inv.cactus after isCurrent isInitial different was now
      by_cases isF : f = initial
      · rw [isNext isF, isF]
        exact .inr (.inl moves.now)
      · exact .inl ⟨was, notCurrent, isF⟩
    · exact .inr (.inl moves.now)
    · rw [returnPosition]
      by_cases room : s.cactus.futureFiberPoolIdx w < maxFutureFibersInPool - 1
      · rw [if_pos room]
        exact .inr (.inl settled)
      · rw [if_neg room]
        refine .inr (.inl ⟨fresh, ?_, settled⟩)
        rw [flag]
        simp [hasRoom, room]

end Futures

/-! ### The switch -/

section SwitchFiber

variable {s s' : FiberSwitch ω δ β} {v w : ω} {left next : Fiber ω β} {f g : β} {p : FiberPosition ω δ}
  [DecidableEq ω] [DecidableEq β]

omit [DecidableEq ω] [DecidableEq β] in
/-- A worker that is about to switch is not in the actions after one. -/
theorem notPost_of_target (isTarget : s.switchTarget w = some next) : inPostSwitch (s.pc w) = false := by
  cases isPc : s.pc w <;> simp [switchTarget, isPc] at isTarget <;> rfl

omit [DecidableEq ω] [DecidableEq β] in
/-- It goes to its scheduling fiber, or to that of the strand that it has taken, whose flag it has seen. -/
theorem switchTarget_cases (isTarget : s.switchTarget w = some next) :
    next = .scheduling w ∧ s.pc w ≠ .scheduling ∨
      ∃ f, next = .user f ∧ s.cactus.current w = some f ∧ s.awaits w = false := by
  cases isPc : s.pc w with
  | scheduling =>
    simp only [switchTarget, isPc] at isTarget
    split at isTarget
    case isFalse => cases isTarget
    rename_i ready
    obtain ⟨f, isF, rfl⟩ := Option.map_eq_some_iff.1 isTarget
    exact .inr ⟨f, rfl, isF, ready.2⟩
  | suspending d =>
    simp only [switchTarget, isPc] at isTarget
    split at isTarget <;> cases isTarget
    exact .inl ⟨rfl, by simp⟩
  | leaving target remove =>
    cases target with
    | scheduling =>
      simp only [switchTarget, isPc, Option.some.injEq] at isTarget
      exact .inl ⟨isTarget.symm, by simp⟩
    | current =>
      simp only [switchTarget, isPc] at isTarget
      split at isTarget
      case isFalse => cases isTarget
      rename_i seen
      obtain ⟨f, isF, rfl⟩ := Option.map_eq_some_iff.1 isTarget
      exact .inr ⟨f, rfl, isF, seen⟩
  | user | arrived | postSwitchProc | pendingRemoveRef =>
    simp only [switchTarget, isPc] at isTarget
    cases isTarget

omit [DecidableEq ω] [DecidableEq β] in
/-- A worker that is about to switch and on the fiber of the strand that it has taken waits for the flag
of it. -/
theorem FiberSwitchInv.waits_of_target (inv : FiberSwitchInv s) (isTarget : s.switchTarget w = some next)
    (on : s.executing w = .user f) (isCurrent : s.cactus.current w = some f) :
    s.WaitsForCurrent w ∧ s.removesSelf w = false := by
  have ok := inv.pc w
  cases isPc : s.pc w with
  | scheduling =>
    simp only [PcOk, isPc] at ok
    exact absurd (ok.symm.trans on) (by simp)
  | suspending d =>
    simp only [PcOk, isPc] at ok
    obtain ⟨g, onG, notCurrent⟩ := ok
    cases onG.symm.trans on
    simp only [removesSelf, isPc]
    exact ⟨notCurrent isCurrent, trivial⟩
  | leaving target remove =>
    simp only [PcOk, isPc] at ok
    obtain ⟨g, onG, notCurrent⟩ := ok
    cases onG.symm.trans on
    simp only [removesSelf, isPc]
    exact (notCurrent isCurrent).symm
  | user | arrived | postSwitchProc | pendingRemoveRef =>
    simp only [switchTarget, isPc] at isTarget
    cases isTarget

omit [DecidableEq ω] [DecidableEq β] in
/-- The fiber that a worker is about to switch to can be run from its start, or resumed. -/
theorem FiberSwitchInv.startable_of_target (inv : FiberSwitchInv s) (isTarget : s.switchTarget w = some next) :
    s.Startable next := by
  have notPost := notPost_of_target isTarget
  have notArrived : s.pc w ≠ .arrived := by
    intro isArrived
    rw [isArrived] at notPost
    cases notPost
  rcases switchTarget_cases isTarget with ⟨rfl, notInLoop⟩ | ⟨f, rfl, isCurrent, seen⟩
  · rcases inv.scheduling w with on | isFrom | startable
    · have ok := inv.pc w
      cases isPc : s.pc w <;> simp only [PcOk, isPc, on] at ok <;>
        simp [switchTarget, isPc] at isTarget notInLoop
      all_goals exact absurd ok.choose_spec.1 (by simp)
    · rw [(inv.worker w).noFrom notArrived] at isFrom
      cases isFrom
    · exact startable
  · have notWaiting : ¬s.WaitsForCurrent w := by
      rintro ⟨waiting, _⟩
      rw [seen] at waiting
      cases waiting
    rcases inv.position (.current w) f isCurrent with on | startable | ⟨waits, _⟩
    · exact absurd (inv.waits_of_target isTarget on isCurrent).1 notWaiting
    · exact startable
    · exact absurd waits notWaiting

omit [DecidableEq ω] in
/-- `resume_other_sysdep` leaves the flag of the fiber cleared. -/
theorem resumeOther_eq [DecidableEq ω] (s : FiberSwitch ω δ β) (w : ω) (other : Fiber ω β) :
    s.resumeOther w other = { s with
      resumable := setAt s.resumable other false
      context := setAt s.context other .live
      executing := setAt s.executing w other
      pc := setAt s.pc w .arrived } := by
  unfold resumeOther
  cases flag : s.resumable other with
  | true => rfl
  | false =>
    have cleared : setAt s.resumable other false = s.resumable := by
      rw [← flag]
      exact setAt_same s.resumable other
    rw [cleared]
    rfl

/-- What both switches do: the worker goes to the other fiber, where it looks at what it left. -/
theorem FiberSwitchInv.of_switch (inv : FiberSwitchInv s) (isTarget : s.switchTarget w = some next)
    (moves : Moves s s' w left next) (cactus : s'.cactus = s.cactus) (pc : s'.pc = setAt s.pc w .arrived)
    (claim : s'.claim = s.claim) (claimed : s'.claimed = s.claimed) (awaits : s'.awaits = s.awaits)
    (decjoins : s'.decjoins = s.decjoins)
    (from_next : ∀ x, s'.fromFiber next = some x → x = left ∧ s'.context left = .saved .switch)
    (pending_next : ∀ x, s'.pendingRemoveRef next = some x →
      x = left ∧ s'.context left = .fresh ∧ ∃ f, left = .user f)
    (flag : s'.resumable left = false) (keeps : left = .scheduling w → s'.fromFiber next = some left)
    (position : ∀ p f, left = .user f → s.PositionOk p f → s.cactus.At p f → s'.PositionOk p f) :
    FiberSwitchInv s' := by
  have own : ∀ v, left = .scheduling v → v = w := by
    rw [← moves.isLeft]
    exact (inv.worker w).own
  have isArrived : s'.pc w = .arrived := by rw [pc, setAt_self]
  have target := switchTarget_cases isTarget
  have step := moves.byWorker inv
  apply inv.of_byWorker step (cactus ▸ inv.cactus) _ _ _ (fun v _ => by rw [cactus]) claim awaits decjoins
  · intro p f now
    rw [cactus] at now
    by_cases isLeft : left = .user f
    · exact .inr (position p f isLeft (inv.position p f now) now)
    · by_cases isNext : next = .user f
      · right
        rcases target with ⟨isScheduling, -⟩ | ⟨f', isUser, isCurrent, -⟩
        · exact absurd (isScheduling.symm.trans isNext) (by simp)
        · cases isUser.symm.trans isNext
          have isP := inv.cactus.at_unique now (q := .current w) isCurrent
          rw [isP]
          exact .inl (moves.now.trans isNext)
      · exact .inl ⟨now, moves.away inv (Ne.symm isLeft) (Ne.symm isNext)⟩
  · apply moves.claimsOk inv _ claim claimed awaits
    · intro d
      rw [cactus]
      exact .refl _
    · intro d f isAt isNext
      rcases target with ⟨isScheduling, -⟩ | ⟨f', isUser, isCurrent, -⟩
      · exact absurd (isNext.trans isScheduling) (by simp)
      · cases isNext.trans isUser
        exact absurd (inv.cactus.at_unique isAt (q := .current w) isCurrent) (by simp)
  · constructor
    · rw [moves.now]
      exact moves.live
    · intro v isScheduling
      rw [moves.now] at isScheduling
      rcases target with ⟨isOwn, -⟩ | ⟨f', isUser, -, -⟩
      · exact (Fiber.scheduling.inj (isOwn.symm.trans isScheduling)).symm
      · exact absurd (isUser.symm.trans isScheduling) (by simp)
    · intro x isFrom
      rw [moves.now] at isFrom
      obtain ⟨rfl, saved⟩ := from_next x isFrom
      exact ⟨isArrived, saved, flag, own⟩
    · intro x isPending
      rw [moves.now] at isPending
      obtain ⟨rfl, fresh, isUser⟩ := pending_next x isPending
      exact ⟨by rw [isArrived]; rfl, fresh, flag, isUser⟩
  · simp only [PcOk, isArrived, moves.now, cactus]
    rcases target with ⟨isOwn, -⟩ | ⟨f', isUser, isCurrent, -⟩
    · exact .inl isOwn
    · exact .inr ⟨f', isCurrent, isUser⟩
  · rw [SchedulingOk, moves.now]
    by_cases isLeft : left = .scheduling w
    · exact .inr (.inl ((keeps isLeft).trans (congrArg some isLeft)))
    · rcases target with ⟨isOwn, -⟩ | ⟨f', isUser, -, -⟩
      · exact .inl isOwn
      · right
        right
        rcases inv.scheduling w with on | isFrom | startable
        · exact absurd (moves.isLeft.symm.trans on) isLeft
        · have from_none := (inv.worker w).noFrom (by
            intro arrived
            have notPost := moves.notPost
            rw [arrived] at notPost
            cases notPost)
          rw [from_none] at isFrom
          cases isFrom
        · obtain ⟨before, after⟩ := moves.away inv (x := .scheduling w) (Ne.symm isLeft) (by simp [isUser])
          exact (step.fiberKept before after).startable startable

omit [DecidableEq ω] [DecidableEq β] in
/-- What is known of the fiber that a worker is about to leave: it removes it, or it has published its
strand. -/
theorem FiberSwitchInv.left_cases (inv : FiberSwitchInv s) (isTarget : s.switchTarget w = some next)
    (on : s.executing w = .user f) (isAt : s.cactus.At p f) (ok : s.PositionOk p f) :
    s.removesSelf w = false ∧ ((∃ v, p = .current v ∧ s.WaitsForCurrent v) ∨ (∃ d, p = .suspended d) ∨
        (∃ d h, p = .child d h ∧ (w, d, h) ∈ s.decjoins) ∨ p = .slot w) ∨
      s.removesSelf w = true ∧ p = .pool w := by
  have notPost := notPost_of_target isTarget
  have occupied : s.Occupies w (.user f) := .inl on
  have notRests : ¬s.Rests (.user f) := fun rests => rests w occupied
  have mine : ∀ v, s.Occupies v (.user f) → v = w := fun v occupies => inv.alone v w _ occupies occupied
  have notArrived : s.pc w ≠ .arrived := by
    intro arrived
    rw [arrived] at notPost
    cases notPost
  have keeps : s.Lags w f → s.removesSelf w = false := by
    intro lags
    rcases lags with ⟨suspending | ⟨target, isLeaving⟩, -⟩ | isFrom
    · cases isPc : s.pc w <;> rw [isPc] at suspending <;> cases suspending
      simp [removesSelf, isPc]
    · simp [removesSelf, isLeaving]
    · rw [(inv.worker w).noFrom notArrived] at isFrom
      cases isFrom
  have removes : s.Removes w f → s.removesSelf w = true := by
    intro removes
    rcases removes with ⟨⟨target, isLeaving⟩, -⟩ | isPending
    · simp [removesSelf, isLeaving]
    · rw [(inv.worker w).noPending notPost] at isPending
      cases isPending
  cases p with
  | current v =>
    left
    rcases ok with onV | startable | ⟨waits, u, lags⟩
    · cases mine v (.inl onV)
      obtain ⟨waits, stays⟩ := inv.waits_of_target isTarget on isAt
      exact ⟨stays, .inl ⟨_, rfl, waits⟩⟩
    · exact absurd startable.rests notRests
    · cases mine u lags.occupies
      exact ⟨keeps lags, .inl ⟨v, rfl, waits⟩⟩
  | inner d => exact absurd ok.2.2 notRests
  | suspended d =>
    rcases ok with settled | ⟨u, lags⟩
    · exact absurd settled.2.2 notRests
    · cases mine u lags.occupies
      exact .inl ⟨keeps lags, .inr (.inl ⟨d, rfl⟩)⟩
  | child d h =>
    rcases ok with settled | ⟨u, lags, due⟩
    · exact absurd settled.2.2 notRests
    · cases mine u lags.occupies
      exact .inl ⟨keeps lags, .inr (.inr (.inl ⟨d, h, rfl, due⟩))⟩
  | slot v =>
    rcases ok with rests | lags
    · exact absurd rests notRests
    · cases mine v lags.occupies
      exact .inl ⟨keeps lags, .inr (.inr (.inr rfl))⟩
  | pool v =>
    rcases ok with idle | isRemoved
    · exact absurd idle.2.2 notRests
    · cases mine v isRemoved.occupies
      exact .inr ⟨removes isRemoved, rfl⟩
  | globalPool | spare v | heap => exact absurd ok.2.2 notRests

/-- `cilk_fiber_suspend_self_and_resume_other`. -/
theorem FiberSwitchInv.suspendSelf (inv : FiberSwitchInv s) (isTarget : s.switchTarget w = some next)
    (stays : s.removesSelf w = false) : FiberSwitchInv (s.suspendSelfAndResumeOther w next) := by
  have rests := (inv.startable_of_target isTarget).rests
  have different : s.executing w ≠ next := fun same => rests w (.inl same)
  have isState : s.suspendSelfAndResumeOther w next = { s with
      fromFiber := setAt s.fromFiber next (some (s.executing w))
      resumable := setAt s.resumable next false
      context := setAt (setAt s.context (s.executing w) (.saved .switch)) next .live
      executing := setAt s.executing w next
      pc := setAt s.pc w .arrived } := resumeOther_eq _ _ _
  have moves : Moves s (s.suspendSelfAndResumeOther w next) w (s.executing w) next := by
    rw [isState]
    refine ⟨rfl, notPost_of_target isTarget, rests, rfl, fun v other => setAt_other other _ _,
      fun x other => setAt_other other _ _, fun _ _ => rfl, ?_, ?_, ?_, setAt_self _ _ _, setAt_self _ _ _⟩
    · intro y isFrom
      exact (Option.some.inj ((setAt_self _ _ _).symm.trans isFrom)).symm
    · intro y isPending
      exact absurd (isPending.symm.trans (inv.pending_none rests)) (by simp)
    · intro x notLeft notNext
      exact ⟨(setAt_other notNext _ _).trans (setAt_other notLeft _ _), setAt_other notNext _ _⟩
  have lags : ∀ f, s.executing w = .user f → (s.suspendSelfAndResumeOther w next).Lags w f := by
    intro f on
    rw [isState]
    right
    simp only [setAt_self, on]
  rw [isState] at moves lags ⊢
  refine inv.of_switch isTarget moves rfl rfl rfl rfl rfl rfl ?_ ?_ ?_ ?_ ?_
  · intro x isFrom
    refine ⟨(Option.some.inj ((setAt_self _ _ _).symm.trans isFrom)).symm, ?_⟩
    exact (setAt_other different _ _).trans (setAt_self _ _ _)
  · intro x isPending
    exact absurd (isPending.symm.trans (inv.pending_none rests)) (by simp)
  · exact (setAt_other different _ _).trans (inv.worker w).live.2
  · exact fun _ => setAt_self _ _ _
  · intro p f on ok isAt
    rcases inv.left_cases isTarget on isAt ok with ⟨-, known⟩ | ⟨removes, -⟩
    · rcases known with ⟨v, rfl, waits⟩ | ⟨d, rfl⟩ | ⟨d, h, rfl, due⟩ | rfl
      · exact .inr (.inr ⟨waits, w, lags f on⟩)
      · exact .inr ⟨w, lags f on⟩
      · exact .inr ⟨w, lags f on, due⟩
      · exact .inr (lags f on)
    · exact absurd (stays.symm.trans removes) (by simp)

/-- `cilk_fiber_remove_reference_from_self_and_resume_other`. -/
theorem FiberSwitchInv.removeReferenceFromSelf (inv : FiberSwitchInv s)
    (isTarget : s.switchTarget w = some next)
    (removes : s.removesSelf w = true) : FiberSwitchInv (s.removeReferenceFromSelfAndResumeOther w next) := by
  have rests := (inv.startable_of_target isTarget).rests
  have different : s.executing w ≠ next := fun same => rests w (.inl same)
  obtain ⟨g, onG⟩ : ∃ g, s.executing w = .user g := by
    have ok := inv.pc w
    cases isPc : s.pc w <;> simp only [removesSelf, isPc] at removes <;> try cases removes
    simp only [PcOk, isPc] at ok
    obtain ⟨g, onG, -⟩ := ok
    exact ⟨g, onG⟩
  have isState : s.removeReferenceFromSelfAndResumeOther w next = { s with
      pendingRemoveRef := setAt s.pendingRemoveRef next (some (s.executing w))
      resumable := setAt s.resumable next false
      context := setAt (setAt s.context (s.executing w) .fresh) next .live
      executing := setAt s.executing w next
      pc := setAt s.pc w .arrived } := resumeOther_eq _ _ _
  have moves : Moves s (s.removeReferenceFromSelfAndResumeOther w next) w (s.executing w) next := by
    rw [isState]
    refine ⟨rfl, notPost_of_target isTarget, rests, rfl, fun v other => setAt_other other _ _,
      fun _ _ => rfl, fun x other => setAt_other other _ _, ?_, ?_, ?_, setAt_self _ _ _, setAt_self _ _ _⟩
    · intro y isFrom
      exact absurd (isFrom.symm.trans (inv.from_none rests)) (by simp)
    · intro y isPending
      exact (Option.some.inj ((setAt_self _ _ _).symm.trans isPending)).symm
    · intro x notLeft notNext
      exact ⟨(setAt_other notNext _ _).trans (setAt_other notLeft _ _), setAt_other notNext _ _⟩
  rw [isState] at moves ⊢
  refine inv.of_switch isTarget moves rfl rfl rfl rfl rfl rfl ?_ ?_ ?_ ?_ ?_
  · intro x isFrom
    exact absurd (isFrom.symm.trans (inv.from_none rests)) (by simp)
  · intro x isPending
    refine ⟨(Option.some.inj ((setAt_self _ _ _).symm.trans isPending)).symm, ?_, g, onG⟩
    exact (setAt_other different _ _).trans (setAt_self _ _ _)
  · exact (setAt_other different _ _).trans (inv.worker w).live.2
  · exact fun isScheduling => absurd (onG.symm.trans isScheduling) (by simp)
  · intro p f on ok isAt
    rcases inv.left_cases isTarget on isAt ok with ⟨stays, -⟩ | ⟨-, rfl⟩
    · exact absurd (stays.symm.trans removes) (by simp)
    · refine .inr (.inr ?_)
      simp only [setAt_self, on]

end SwitchFiber

/-! ### The actions after a switch -/

section PostSwitch

variable {s s' : FiberSwitch ω δ β} {v w : ω} {x y : Fiber ω β} {f g : β} {p : FiberPosition ω δ}

/-- A worker goes on with the actions after a switch: what it has left is left to others, or to nobody. -/
structure Finishes (s s' : FiberSwitch ω δ β) (w : ω) : Prop where
  cactus : s'.cactus = s.cactus
  context : s'.context = s.context
  executing : s'.executing = s.executing
  claim : s'.claim = s.claim
  claimed : s'.claimed = s.claimed
  awaits : s'.awaits = s.awaits
  decjoins : s'.decjoins = s.decjoins
  pc : ∀ v, v ≠ w → s'.pc v = s.pc v
  fromFiber : ∀ x, x ≠ s.executing w → s'.fromFiber x = s.fromFiber x
  pendingRemoveRef : ∀ x, x ≠ s.executing w → s'.pendingRemoveRef x = s.pendingRemoveRef x
  fromLess : ∀ y, s'.fromFiber (s.executing w) = some y → s.fromFiber (s.executing w) = some y
  pendingLess : ∀ y, s'.pendingRemoveRef (s.executing w) = some y → s.pendingRemoveRef (s.executing w) = some y
  resumable : ∀ x, ¬s.Occupies w x ∨ s'.Occupies w x → s'.resumable x = s.resumable x

theorem Finishes.occupies (finishes : Finishes s s' w) (occupies : s'.Occupies w x) : s.Occupies w x := by
  rw [FiberSwitch.Occupies, finishes.executing] at occupies
  exact occupies.imp_right (Or.imp (finishes.fromLess x) (finishes.pendingLess x))

theorem Finishes.byWorker (inv : FiberSwitchInv s) (finishes : Finishes s s' w) : ByWorker s s' w := by
  have other : ∀ v, v ≠ w → s.executing v ≠ s.executing w :=
    fun v isOther same => isOther (inv.alone v w _ (.inl rfl) (.inl same.symm))
  constructor
  · exact fun v _ => by rw [finishes.executing]
  · exact finishes.pc
  · exact fun v isOther => finishes.fromFiber _ (other v isOther)
  · exact fun v isOther => finishes.pendingRemoveRef _ (other v isOther)
  · intro x y isFrom
    rw [finishes.executing]
    by_cases isSelf : x = s.executing w
    · exact .inl isSelf
    · rw [finishes.fromFiber x isSelf] at isFrom
      obtain ⟨v, on⟩ := inv.noFrom x y isFrom
      exact .inr ⟨v, fun isW => isSelf (isW ▸ on.symm), on⟩
  · intro x y isPending
    rw [finishes.executing]
    by_cases isSelf : x = s.executing w
    · exact .inl isSelf
    · rw [finishes.pendingRemoveRef x isSelf] at isPending
      obtain ⟨v, on⟩ := inv.noPending x y isPending
      exact .inr ⟨v, fun isW => isSelf (isW ▸ on.symm), on⟩
  · exact fun x occupies => .inl (finishes.occupies occupies)
  · exact fun x before _ => ⟨by rw [finishes.context], finishes.resumable x (.inl before)⟩

/-- A fiber that the worker has not let go of in the step. -/
theorem Finishes.userKept (inv : FiberSwitchInv s) (finishes : Finishes s s' w) (post : inPostSwitch (s.pc w))
    (from_same : s.fromFiber (s.executing w) = some (.user f) → s'.fromFiber (s.executing w) = some (.user f))
    (pending_same : s.pendingRemoveRef (s.executing w) = some (.user f) →
      s'.pendingRemoveRef (s.executing w) = some (.user f)) : UserKept s s' f := by
  have same : s.Occupies w (.user f) → s'.Occupies w (.user f) := by
    intro occupies
    rw [FiberSwitch.Occupies, finishes.executing]
    exact occupies.imp_right (Or.imp from_same pending_same)
  have notLeaving : ∀ target remove, s.pc w ≠ .leaving target remove := by
    intro target remove isLeaving
    rw [isLeaving] at post
    cases post
  by_cases mine : s.Occupies w (.user f)
  · have others : ∀ v, s.Occupies v (.user f) → v = w := fun v occupies => inv.alone v w _ occupies mine
    constructor
    · constructor
      · rw [finishes.context]
      · exact finishes.resumable _ (.inr (same mine))
      · intro v occupies
        by_cases isW : v = w
        · rw [isW]
          exact mine
        · exact ((finishes.byWorker inv).occupies_other isW).1 occupies
    · intro v on
      rw [finishes.executing]
      exact on
    · intro v lags
      have isW := others v lags.occupies
      rw [isW] at lags ⊢
      rcases lags with ⟨publishes, -⟩ | isFrom
      · rcases publishes with suspending | ⟨target, isLeaving⟩
        · cases isPc : s.pc w <;> rw [isPc] at suspending post <;> cases suspending; cases post
        · exact absurd isLeaving (notLeaving target false)
      · rw [FiberSwitch.Lags, finishes.executing]
        exact .inr (from_same isFrom)
    · intro v removes
      have isW := others v removes.occupies
      rw [isW] at removes ⊢
      rcases removes with ⟨⟨target, isLeaving⟩, -⟩ | isPending
      · exact absurd isLeaving (notLeaving target true)
      · rw [FiberSwitch.Removes, finishes.executing]
        exact .inr (pending_same isPending)
  · exact (finishes.byWorker inv).userKept mine fun occupies => mine (finishes.occupies occupies)

/-- What is known of the fibers that the worker has not let go of stays. -/
theorem Finishes.position (inv : FiberSwitchInv s) (finishes : Finishes s s' w) (kept : UserKept s s' f)
    (isAt : s.cactus.At p f) : s'.PositionOk p f := by
  refine kept.position ?_ (fun _ _ _ _ _ due => finishes.decjoins ▸ due) (inv.position p f isAt)
  intro v _ waits _
  rw [WaitsForCurrent, finishes.awaits, finishes.claim]
  exact waits

/-- Such a step keeps the invariant if it keeps what is known of the worker and of the fiber that it
lets go of. -/
theorem FiberSwitchInv.of_finishes (inv : FiberSwitchInv s) (finishes : Finishes s s' w)
    (worker : s'.WorkerOk w)
    (pc : s'.PcOk w) (scheduling : s'.SchedulingOk w)
    (position : ∀ p f, s.cactus.At p f → s'.PositionOk p f) : FiberSwitchInv s' := by
  apply inv.of_byWorker (finishes.byWorker inv) (finishes.cactus ▸ inv.cactus) worker pc scheduling
  · intro v _
    rw [finishes.cactus]
  · exact finishes.claim
  · exact finishes.awaits
  · exact finishes.decjoins
  · intro p f now
    rw [finishes.cactus] at now
    exact .inr (position p f now)
  · apply inv.claims.fewer
    · intro v d isClaim
      rw [finishes.claim] at isClaim
      rw [finishes.claimed, finishes.awaits, finishes.cactus]
      exact ⟨isClaim, rfl, rfl, .refl _⟩
    · intro v d f _ _ _ settled
      have before := settled.2.2 w
      exact ((finishes.byWorker inv).fiberKept before fun after =>
        before (finishes.occupies after)).settled settled

variable [DecidableEq ω] [DecidableEq β]

/-- The fiber that a worker has left can be resumed now. -/
theorem FiberSwitchInv.setFromResumable (inv : FiberSwitchInv s) (arrived : s.pc w = .arrived) :
    FiberSwitchInv (s.setFromResumable w) := by
  have post : inPostSwitch (s.pc w) := by rw [arrived]; rfl
  have ok := inv.worker w
  have pcOk := inv.pc w
  simp only [PcOk, arrived] at pcOk
  cases isFrom : s.fromFiber (s.executing w) with
  | none =>
    have isState : s.setFromResumable w = { s with pc := setAt s.pc w .postSwitchProc } := by
      simp only [FiberSwitch.setFromResumable, isFrom]
    rw [isState]
    have finishes : Finishes s { s with pc := setAt s.pc w .postSwitchProc } w :=
      ⟨rfl, rfl, rfl, rfl, rfl, rfl, rfl, fun v other => setAt_other other _ _, fun _ _ => rfl, fun _ _ => rfl,
        fun _ => id, fun _ => id, fun _ _ => rfl⟩
    have kept := fun f => finishes.userKept inv (f := f) post id id
    apply inv.of_finishes finishes
    · refine ⟨ok.live, ok.own, fun x isFrom' => absurd (isFrom.symm.trans isFrom')
        (by simp), fun x isPending => ?_⟩
      obtain ⟨-, fresh, flag, isUser⟩ := ok.pending x isPending
      exact ⟨by simp [FiberSwitch.inPostSwitch], fresh, flag, isUser⟩
    · simp only [PcOk, setAt_self]
      exact pcOk
    · rcases inv.scheduling w with on | isFrom' | startable
      · exact .inl on
      · exact absurd (isFrom.symm.trans isFrom') (by simp)
      · have before := startable.rests w
        exact .inr (.inr (((finishes.byWorker inv).fiberKept before before).startable startable))
    · exact fun p f isAt => finishes.position inv (kept f) isAt
  | some x =>
    have isState : s.setFromResumable w = { s with
        resumable := setAt s.resumable x true
        fromFiber := setAt s.fromFiber (s.executing w) none
        pc := setAt s.pc w .postSwitchProc } := by
      simp only [FiberSwitch.setFromResumable, isFrom]
    rw [isState]
    obtain ⟨-, saved, flag, own⟩ := ok.fromFiber x isFrom
    have notOn : s.executing w ≠ x := by
      intro on
      rw [← on, ok.live.1] at saved
      cases saved
    have notPending : s.pendingRemoveRef (s.executing w) ≠ some x := by
      intro isPending
      have fresh := (ok.pending x isPending).2.1
      rw [saved] at fresh
      cases fresh
    have occupied : s.Occupies w x := .inr (.inl isFrom)
    set s' : FiberSwitch ω δ β := { s with
      resumable := setAt s.resumable x true
      fromFiber := setAt s.fromFiber (s.executing w) none
      pc := setAt s.pc w .postSwitchProc } with isS'
    have gone : ¬s'.Occupies w x := by
      intro occupies
      rcases occupies with on | isFrom' | isPending
      · exact notOn on
      · exact absurd ((setAt_self _ _ _).symm.trans isFrom') (by simp)
      · exact notPending isPending
    have finishes : Finishes s s' w := by
      refine ⟨rfl, rfl, rfl, rfl, rfl, rfl, rfl, fun v other => setAt_other other _ _,
        fun y other => setAt_other other _ _, fun _ _ => rfl,
        fun y isFrom' => absurd ((setAt_self _ _ _).symm.trans isFrom') (by simp),
          fun _ => id, fun y known => ?_⟩
      refine setAt_other (fun isX => ?_) _ _
      rw [isX] at known
      exact known.elim (fun free => free occupied) gone
    have settled : s'.Settled .switch x := by
      refine ⟨saved, setAt_self _ _ _, fun v occupies => ?_⟩
      by_cases isW : v = w
      · exact gone (isW ▸ occupies)
      · exact isW (inv.alone v w x (((finishes.byWorker inv).occupies_other isW).1 occupies) occupied)
    apply inv.of_finishes finishes
    · refine ⟨⟨ok.live.1, (setAt_other notOn _ _).trans ok.live.2⟩, ok.own,
        fun y isFrom' => absurd ((setAt_self _ _ _).symm.trans isFrom') (by simp), fun y isPending => ?_⟩
      obtain ⟨-, fresh, noFlag, isUser⟩ := ok.pending y isPending
      have different : y ≠ x := fun isX => notPending (isX ▸ isPending)
      exact ⟨by simp [isS', FiberSwitch.inPostSwitch], fresh, (setAt_other different _ _).trans noFlag, isUser⟩
    · simp only [PcOk, isS', setAt_self]
      exact pcOk
    · rcases inv.scheduling w with on | isFrom' | startable
      · exact .inl on
      · cases isFrom.symm.trans isFrom'
        exact .inr (.inr (.inr ⟨_, settled⟩))
      · have before := startable.rests w
        have after := fun occupies => before (finishes.occupies occupies)
        exact .inr (.inr (((finishes.byWorker inv).fiberKept before after).startable startable))
    · intro p f isAt
      by_cases isX : x = .user f
      · -- the fiber is where a worker that had yet to leave it is waited for
        rw [isX] at settled occupied notOn notPending
        have mine : ∀ v, s.Occupies v (.user f) → v = w := fun v occupies => inv.alone v w _ occupies occupied
        have notRests : ¬s.Rests (.user f) := fun rests => rests w occupied
        have known := inv.position p f isAt
        cases p with
        | current v => exact .inr (.inl (.inr ⟨_, settled⟩))
        | inner d => exact absurd known.2.2 notRests
        | suspended d => exact .inl settled
        | child d h => exact .inl settled
        | slot v => exact .inl settled.2.2
        | pool v =>
          rcases known with idle | removes
          · exact absurd idle.2.2 notRests
          · cases mine v removes.occupies
            rcases removes with ⟨⟨target, isLeaving⟩, -⟩ | isPending
            · exact absurd (arrived.symm.trans isLeaving) (by simp)
            · exact absurd isPending notPending
        | globalPool | spare v | heap => exact absurd known.2.2 notRests
      · refine finishes.position inv (finishes.userKept inv post (fun isFrom' => ?_) id) isAt
        exact absurd (Option.some.inj (isFrom.symm.trans isFrom')) isX

omit [DecidableEq ω] [DecidableEq β] in
/-- The end of the actions after a switch: the worker is in user code or in its scheduling loop. -/
theorem pcOk_done (onItsFiber : s.executing w = .scheduling w ∨
      ∃ f, s.cactus.current w = some f ∧ s.executing w = .user f)
    (cactus : s'.cactus = s.cactus) (executing : s'.executing = s.executing)
    (pc : s.executing w = .scheduling w ∧ s'.pc w = .scheduling ∨
      s.executing w ≠ .scheduling w ∧ s'.pc w = .user) : s'.PcOk w := by
  unfold PcOk
  rcases pc with ⟨on, isPc⟩ | ⟨notOn, isPc⟩
  · simp only [isPc, executing]
    exact on
  · simp only [isPc, executing, cactus]
    exact onItsFiber.resolve_left notOn

/-- A worker has finished with the fiber that it removed. -/
theorem FiberSwitchInv.removePendingRef (inv : FiberSwitchInv s) (isPc : s.pc w = .pendingRemoveRef) :
    FiberSwitchInv (s.removePendingRef w) := by
  have post : inPostSwitch (s.pc w) := by rw [isPc]; rfl
  have ok := inv.worker w
  have noFrom : ∀ x, s.fromFiber (s.executing w) ≠ some x := by
    intro x isFrom
    rw [ok.noFrom (by simp [isPc])] at isFrom
    cases isFrom
  have pcOk := inv.pc w
  simp only [PcOk, isPc] at pcOk
  have pcs : s.executing w = .scheduling w ∧
        setAt s.pc w (if s.executing w = .scheduling w then .scheduling else .user) w = .scheduling ∨
      s.executing w ≠ .scheduling w ∧
        setAt s.pc w (if s.executing w = .scheduling w then .scheduling else .user) w = .user := by
    rw [setAt_self]
    by_cases on : s.executing w = .scheduling w
    · exact .inl ⟨on, if_pos on⟩
    · exact .inr ⟨on, if_neg on⟩
  cases isPending : s.pendingRemoveRef (s.executing w) with
  | none =>
    have isState : s.removePendingRef w = { s with
        pc := setAt s.pc w (if s.executing w = .scheduling w then .scheduling else .user) } := by
      simp only [FiberSwitch.removePendingRef, isPending]
    rw [isState]
    have finishes : Finishes s { s with
        pc := setAt s.pc w (if s.executing w = .scheduling w then .scheduling else .user) } w :=
      ⟨rfl, rfl, rfl, rfl, rfl, rfl, rfl, fun v other => setAt_other other _ _, fun _ _ => rfl, fun _ _ => rfl,
        fun _ => id, fun _ => id, fun _ _ => rfl⟩
    apply inv.of_finishes finishes
    · exact ⟨ok.live, ok.own, fun x isFrom => absurd isFrom (noFrom x),
        fun x isPending' => absurd (isPending.symm.trans isPending') (by simp)⟩
    · exact pcOk_done pcOk rfl rfl pcs
    · rcases inv.scheduling w with on | isFrom | startable
      · exact .inl on
      · exact absurd isFrom (noFrom _)
      · have before := startable.rests w
        exact .inr (.inr (((finishes.byWorker inv).fiberKept before before).startable startable))
    · exact fun p f isAt => finishes.position inv (finishes.userKept inv post id id) isAt
  | some x =>
    obtain ⟨-, fresh, flag, g, rfl⟩ := ok.pending x isPending
    have isState : s.removePendingRef w = { s with
        pendingRemoveRef := setAt s.pendingRemoveRef (s.executing w) none
        pc := setAt s.pc w (if s.executing w = .scheduling w then .scheduling else .user) } := by
      have cleared : setAt s.resumable (.user g) false = s.resumable := by
        rw [← flag]
        exact setAt_same s.resumable _
      simp only [FiberSwitch.removePendingRef, isPending, cleared]
    rw [isState]
    have occupied : s.Occupies w (.user g) := .inr (.inr isPending)
    have notOn : s.executing w ≠ .user g := by
      intro on
      rw [← on, ok.live.1] at fresh
      cases fresh
    set s' : FiberSwitch ω δ β := { s with
      pendingRemoveRef := setAt s.pendingRemoveRef (s.executing w) none
      pc := setAt s.pc w (if s.executing w = .scheduling w then .scheduling else .user) }
    have finishes : Finishes s s' w :=
      ⟨rfl, rfl, rfl, rfl, rfl, rfl, rfl, fun v other => setAt_other other _ _, fun _ _ => rfl,
        fun y other => setAt_other other _ _, fun _ => id,
        fun y isPending' => absurd ((setAt_self _ _ _).symm.trans isPending') (by simp), fun _ _ => rfl⟩
    have idle : s'.Idle (.user g) := by
      refine ⟨fresh, flag, fun v occupies => ?_⟩
      by_cases isW : v = w
      · rw [isW] at occupies
        rcases occupies with on | isFrom | isPending'
        · exact notOn on
        · exact noFrom _ isFrom
        · exact absurd ((setAt_self _ _ _).symm.trans isPending') (by simp)
      · exact isW (inv.alone v w _ (((finishes.byWorker inv).occupies_other isW).1 occupies) occupied)
    apply inv.of_finishes finishes
    · exact ⟨ok.live, ok.own, fun x isFrom => absurd isFrom (noFrom x),
        fun x isPending' => absurd ((setAt_self _ _ _).symm.trans isPending') (by simp)⟩
    · exact pcOk_done pcOk rfl rfl pcs
    · rcases inv.scheduling w with on | isFrom | startable
      · exact .inl on
      · exact absurd isFrom (noFrom _)
      · have before := startable.rests w
        have after := fun occupies => before (finishes.occupies occupies)
        exact .inr (.inr (((finishes.byWorker inv).fiberKept before after).startable startable))
    · intro p f isAt
      by_cases isG : f = g
      · -- the fiber is in the pool
        rw [isG] at isAt ⊢
        have mine : ∀ v, s.Occupies v (.user g) → v = w := fun v occupies => inv.alone v w _ occupies occupied
        have notRests : ¬s.Rests (.user g) := fun rests => rests w occupied
        have notLagging : ∀ v, ¬s.Lags v g := by
          intro v lags
          cases mine v lags.occupies
          rcases lags with ⟨publishes, -⟩ | isFrom
          · simp [isPc, isSuspending] at publishes
          · exact noFrom _ isFrom
        have known := inv.position p g isAt
        cases p with
        | current v =>
          rcases known with on | startable | ⟨-, u, lags⟩
          · cases mine v (.inl on)
            exact absurd on notOn
          · exact absurd startable.rests notRests
          · exact absurd lags (notLagging u)
        | inner d => exact absurd known.2.2 notRests
        | suspended d =>
          rcases known with settled | ⟨v, lags⟩
          · exact absurd settled.2.2 notRests
          · exact absurd lags (notLagging v)
        | child d h =>
          rcases known with settled | ⟨v, lags, -⟩
          · exact absurd settled.2.2 notRests
          · exact absurd lags (notLagging v)
        | slot v =>
          rcases known with rests | lags
          · exact absurd rests notRests
          · exact absurd lags (notLagging v)
        | pool v => exact .inl idle
        | globalPool | spare v | heap => exact absurd known.2.2 notRests
      · refine finishes.position inv (finishes.userKept inv post id fun isPending' => ?_) isAt
        exact absurd (Fiber.user.inj (Option.some.inj (isPending.symm.trans isPending'))).symm isG

end PostSwitch

/-! ### Runs -/

section Runs

variable {s s' : FiberSwitch ω δ β} {v w : ω} {f g : β} {p : FiberPosition ω δ} {label : SwitchLabel ω δ β}

theorem FiberSwitchInv.initial (start : s.Initial) : FiberSwitchInv s := by
  have cactus := CactusInv.initial start.cactus
  have noFrom : ∀ x y, s.fromFiber x ≠ some y := by simp [start.fromFiber]
  have noPending : ∀ x y, s.pendingRemoveRef x ≠ some y := by simp [start.pendingRemoveRef]
  have onCurrent : ∀ w f, s.cactus.current w = some f → s.executing w = .user f := by
    intro w f isCurrent
    rw [start.executing, isCurrent]
    rfl
  have current_of_on : ∀ w f, s.executing w = .user f → s.cactus.current w = some f := by
    intro w f on
    rw [start.executing] at on
    cases isCurrent : s.cactus.current w <;> rw [isCurrent] at on <;> cases on
    rfl
  have own : ∀ w v, s.executing w = .scheduling v → v = w ∧ s.cactus.current w = none := by
    intro w v on
    rw [start.executing] at on
    cases isCurrent : s.cactus.current w <;> rw [isCurrent] at on <;> cases on
    exact ⟨rfl, rfl⟩
  have occupies : ∀ w x, s.Occupies w x → s.executing w = x :=
    fun w x occupies => occupies.elim id fun left => (left.elim (noFrom _ _) (noPending _ _)).elim
  have idle : ∀ x, (∀ w, s.executing w ≠ x) → s.Idle x := fun x away =>
    ⟨start.fresh x away, start.resumable x, fun w occ => away w (occupies w x occ)⟩
  -- a fiber that is not the one of a worker is unused
  have elsewhere : ∀ p f, s.cactus.At p f → (∀ w, p ≠ .current w) → s.Idle (.user f) := by
    intro p f isAt notCurrent
    refine idle _ fun w on => notCurrent w ?_
    exact cactus.at_unique isAt (q := .current w) (current_of_on w f on)
  have strand : ∀ d, (s.cactus.strand d).fiber = none ∧ (s.cactus.strand d).queue = [] ∧
      ∀ frame ∈ (s.cactus.strand d).frames, frame.fiberChild = none := by
    intro d
    rcases start.cactus.strand d with isUnused | ⟨w, f, isRoot, -⟩
    · rw [isUnused]
      exact ⟨rfl, rfl, fun frame member => absurd member List.not_mem_nil⟩
    · rw [isRoot]
      refine ⟨rfl, rfl, fun frame member => ?_⟩
      rw [List.mem_singleton.1 member]
      rfl
  constructor
  · exact cactus
  · intro v w x occupiesV occupiesW
    have onV := occupies v x occupiesV
    have onW := occupies w x occupiesW
    cases x with
    | scheduling u => exact (own v u onV).1.symm.trans (own w u onW).1
    | user f =>
      have same := cactus.at_unique (p := .current v) (q := .current w) (current_of_on v f onV)
        (current_of_on w f onW)
      exact FiberPosition.current.inj same
  · intro w
    exact ⟨⟨start.live w, start.resumable _⟩, fun v on => (own w v on).1, fun x isFrom =>
      absurd isFrom (noFrom _ x),
      fun x isPending => absurd isPending (noPending _ x)⟩
  · intro w
    cases isCurrent : s.cactus.current w with
    | none =>
      have isPc : s.pc w = .scheduling := by rw [start.pc, isCurrent]; rfl
      simp only [PcOk, isPc]
      rw [start.executing, isCurrent]
      rfl
    | some f =>
      have isPc : s.pc w = .user := by rw [start.pc, isCurrent]; rfl
      simp only [PcOk, isPc]
      exact ⟨f, isCurrent, onCurrent w f isCurrent⟩
  · intro w
    by_cases on : s.executing w = .scheduling w
    · exact .inl on
    · refine .inr (.inr (.inl (idle _ fun v onV => on ?_)))
      rw [← (own v w onV).1] at onV
      exact onV
  · exact fun x y isFrom => absurd isFrom (noFrom x y)
  · exact fun x y isPending => absurd isPending (noPending x y)
  · intro p f isAt
    cases p with
    | current w => exact .inl (onCurrent w f isAt)
    | inner d =>
      obtain ⟨isSelf | member, notTip⟩ := isAt
      · rw [(strand d).2.1] at notTip
        exact absurd isSelf.2 notTip
      · rw [(strand d).2.1] at member
        cases member
    | suspended d => exact absurd ((strand d).1.symm.trans isAt) (by simp)
    | child d h =>
      obtain ⟨frame, found, isChild⟩ := isAt
      exact absurd (((strand d).2.2 frame (mem_of_atHeight found)).symm.trans isChild) (by simp)
    | slot w => exact .inl (elsewhere _ f isAt (by simp)).2.2
    | pool w => exact .inl (elsewhere _ f isAt (by simp))
    | globalPool | spare w | heap => exact elsewhere _ f isAt (by simp)
  · constructor
    · exact fun w d isClaim => absurd ((start.claim w).symm.trans isClaim) (by simp)
    · exact fun v w d isClaim => absurd ((start.claim v).symm.trans isClaim) (by simp)
    · exact fun w d isClaim => absurd ((start.claim w).symm.trans isClaim) (by simp)

variable [DecidableEq ω] [DecidableEq δ] [DecidableEq β]

/-- Every step keeps the invariant. -/
theorem FiberSwitchInv.of_step (inv : FiberSwitchInv s) (taken : fiberSwitchStep s label = some s') :
    FiberSwitchInv s' := by
  cases label with
  | cactus label =>
    simp only [fiberSwitchStep] at taken
    split at taken
    case isFalse => cases taken
    rename_i ready
    obtain ⟨t, moved, rfl⟩ := Option.map_eq_some_iff.1 taken
    cases label with
    | call d => exact inv.call moved
    | spawn d => exact inv.spawn moved
    | spawnFuture d heap heapOfParent => exact inv.spawnFuture ready moved
    | leave d => exact inv.leave moved
    | futureReturn d => exact inv.futureReturn ready moved
    | allocate u heap heapOfParent => exact inv.allocate ready moved
    | giveBack u => exact inv.giveBack moved
    | steal u d c => exact inv.steal ready moved
    | childReturn d => exact inv.childReturn ready moved
    | futureReturnStolen d => exact inv.futureReturnStolen ready moved
    | stall d => exact inv.stall ready moved
    | resumeStalled u d => exact inv.resumeStalled ready.1 ready.2 moved
    | suspend d => exact inv.suspend ready moved
    | resume u d => exact inv.resume ready moved
    | handOff d e => exact inv.handOff ready moved
    | throw d => exact ready.elim
  | claim w d =>
    simp only [fiberSwitchStep] at taken
    split at taken <;> cases taken
    rename_i ready
    obtain ⟨live, free, noClaim, notWaiting, -⟩ := ready
    exact inv.claim live free noClaim notWaiting
  | wait w =>
    simp only [fiberSwitchStep] at taken
    split at taken
    case h_2 => cases taken
    rename_i fiber isAwaited
    split at taken <;> cases taken
    rename_i seen
    exact inv.wait isAwaited seen.2
  | makeResumable w =>
    simp only [fiberSwitchStep] at taken
    split at taken
    case h_2 => cases taken
    rename_i d isClaim
    split at taken <;> cases taken
    exact inv.makeResumable isClaim
  | switchFiber w =>
    simp only [fiberSwitchStep] at taken
    split at taken <;> cases taken
    rename_i other isTarget
    cases removes : s.removesSelf w with
    | true => exact inv.removeReferenceFromSelf isTarget removes
    | false => exact inv.suspendSelf isTarget removes
  | setFromResumable w =>
    simp only [fiberSwitchStep] at taken
    split at taken <;> cases taken
    rename_i arrived
    exact inv.setFromResumable arrived
  | runPostSwitchProc w =>
    simp only [fiberSwitchStep] at taken
    split at taken <;> cases taken
    rename_i isPc
    exact inv.runPostSwitchProc isPc
  | removePendingRef w =>
    simp only [fiberSwitchStep] at taken
    split at taken <;> cases taken
    rename_i isPc
    exact inv.removePendingRef isPc

/-- What those who switch between fibers and take them rely on. -/
structure FiberSwitch.Safe (s : FiberSwitch ω δ β) : Prop where
  /-- No two workers are on one stack. -/
  alone : ∀ v w, s.executing v = s.executing w → v = w
  /-- `resume_other_sysdep` runs an unused fiber, or jumps to one that was left, which nobody is on. -/
  target : ∀ w other, s.switchTarget w = some other → (∀ v, s.executing v ≠ other) ∧
    (s.context other = .fresh ∧ s.resumable other = false ∨
      ∃ point, s.context other = .saved point ∧ s.resumable other = true)
  /-- The flag is set for a fiber that was left. -/
  fromFiber : ∀ w fiber, s.fromFiber (s.executing w) = some fiber →
    (∀ v, s.executing v ≠ fiber) ∧ s.context fiber = .saved .switch
  /-- The parent of a future can go on. -/
  parent : ∀ d f, s.cactus.At (.inner d) f →
    (∀ v, s.executing v ≠ .user f) ∧ s.context (.user f) = .saved .future ∧ s.resumable (.user f) = true
  /-- A suspended strand can go on, or one worker has yet to leave its fiber. -/
  suspended : ∀ d f, (s.cactus.strand d).fiber = some f →
    (∀ v, s.executing v ≠ .user f) ∧ s.context (.user f) = .saved .switch ∧ s.resumable (.user f) = true ∨
      s.resumable (.user f) = false ∧ ∃ v, s.Lags v f
  /-- A fiber in a cache is left by the worker of the cache, if anybody is on it. -/
  slot : ∀ w f, s.cactus.At (.slot w) f → ∀ v, s.executing v = .user f →
    v = w ∧ (isSuspending (s.pc w) ∨ ∃ target, s.pc w = .leaving target false)
  /-- A fiber in a pool is removed by the worker of the pool, if anybody is on it. -/
  pool : ∀ w f, s.cactus.At (.pool w) f → ∀ v, s.executing v = .user f →
    v = w ∧ ∃ target, s.pc w = .leaving target true
  unused : ∀ p f, s.cactus.At p f → p = .globalPool ∨ p = .heap ∨ (∃ w, p = .spare w) →
    (∀ v, s.executing v ≠ .user f) ∧ s.context (.user f) = .fresh ∧ s.resumable (.user f) = false

omit [DecidableEq ω] [DecidableEq δ] [DecidableEq β] in
/-- Nobody is on a fiber at rest. -/
theorem FiberSwitch.Rests.away {x : Fiber ω β} (rests : s.Rests x) (v : ω) : s.executing v ≠ x :=
  fun on => rests v (.inl on)

omit [DecidableEq ω] [DecidableEq δ] [DecidableEq β] in
theorem FiberSwitchInv.safe (inv : FiberSwitchInv s) : s.Safe where
  alone v w same := inv.alone v w _ (.inl rfl) (.inl same.symm)
  target w other isTarget := by
    rcases inv.startable_of_target isTarget with ⟨fresh, flag, rests⟩ | ⟨point, saved, flag, rests⟩
    · exact ⟨rests.away, .inl ⟨fresh, flag⟩⟩
    · exact ⟨rests.away, .inr ⟨point, saved, flag⟩⟩
  fromFiber w fiber isFrom := by
    obtain ⟨-, saved, -, -⟩ := (inv.worker w).fromFiber fiber isFrom
    refine ⟨fun v on => ?_, saved⟩
    rw [← on, (inv.worker v).live.1] at saved
    cases saved
  parent d f isAt := by
    obtain ⟨saved, flag, rests⟩ := inv.position _ f isAt
    exact ⟨rests.away, saved, flag⟩
  suspended d f isFiber := by
    rcases inv.position (.suspended d) f isFiber with ⟨saved, flag, rests⟩ | ⟨v, lags⟩
    · exact .inl ⟨rests.away, saved, flag⟩
    · exact .inr ⟨inv.not_resumable_of_lags lags, v, lags⟩
  slot w f isAt v on := by
    rcases inv.position (.slot w) f isAt with rests | lags
    · exact absurd on (rests.away v)
    · have isW := inv.alone v w _ (.inl on) lags.occupies
      rcases lags with ⟨publishes, -⟩ | isFrom
      · exact ⟨isW, publishes⟩
      · have saved := ((inv.worker w).fromFiber _ isFrom).2.1
        rw [← on, (inv.worker v).live.1] at saved
        cases saved
  pool w f isAt v on := by
    rcases inv.position (.pool w) f isAt with idle | removes
    · exact absurd on (idle.2.2.away v)
    · have isW := inv.alone v w _ (.inl on) removes.occupies
      rcases removes with ⟨removing, -⟩ | isPending
      · exact ⟨isW, removing⟩
      · have fresh := ((inv.worker w).pending _ isPending).2.1
        rw [← on, (inv.worker v).live.1] at fresh
        cases fresh
  unused p f isAt isUnused := by
    have idle : s.Idle (.user f) := by
      rcases isUnused with rfl | rfl | ⟨w, rfl⟩ <;> exact inv.position _ f isAt
    exact ⟨idle.2.2.away, idle.1, idle.2.1⟩

/-- One worker, about to run the outermost function on the fiber 128. -/
def oneWorkerSwitches : FiberSwitch Unit Nat Nat where
  cactus := oneWorkerCaches
  resumable _ := false
  fromFiber _ := none
  pendingRemoveRef _ := none
  context fiber := if fiber = .user 128 then .live else .fresh
  executing _ := .user 128
  pc _ := .user
  decjoins := []
  claim _ := none
  claimed _ := false
  awaits _ := false

theorem oneWorkerSwitches_start : (fiberSwitchMachine Unit Nat Nat).start oneWorkerSwitches where
  cactus := oneWorkerCaches_start
  resumable _ := rfl
  fromFiber _ := rfl
  pendingRemoveRef _ := rfl
  executing _ := rfl
  live _ := rfl
  fresh _ away := if_neg fun isRoot => away () isRoot.symm
  pc _ := rfl
  decjoins := rfl
  claim _ := rfl
  claimed _ := rfl
  awaits _ := rfl

end Runs

end CilkL
