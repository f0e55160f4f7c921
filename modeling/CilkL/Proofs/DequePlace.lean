/-
Module: CilkL.Proofs.DequePlace
Layer: Proofs
Purpose: The switches of deques, the wake-ups and the destructions keep the places and the wakers of all
  deques, and with the rest of the operations every step does: in every interleaving each live deque is in
  exactly one situation, and a resumable deque is kept until it is active.
Imports: CilkL.Proofs.DequePool
Trusted boundary: none (fully proved)
Main exports: PoolInv.of_start, PoolInv.of_step, DequePoolState.InOneSituation, deque_has_one_place
Open obligations: none
-/
import CilkL.Proofs.DequePool

namespace CilkL

variable {ω δ φ ψ π : Type} {s : DequePoolState ω δ φ ψ π} {place : δ → Place ω} {waker : δ → Waker ω}

section Steps

variable [DecidableEq ω] [DecidableEq δ]

omit [DecidableEq ω] [DecidableEq δ] in
/-- A worker that moves no deque has none in flight. -/
theorem PoolInv.not_moving (inv : PoolInv s place waker) {w : ω} (quiet : (s.pc w).moves = none) (d : δ) :
    place d ≠ .moving w := by
  intro isMoving
  have fits := inv.deque d
  rw [isMoving] at fits
  exact nomatch quiet.symm.trans fits.2.1

omit [DecidableEq ω] [DecidableEq δ] in
/-- A worker that wakes no deque is no waker. -/
theorem PoolInv.not_waker (inv : PoolInv s place waker) {w : ω} (quiet : (s.pc w).wakes = none) (d : δ) :
    waker d ≠ .worker w := by
  intro isWaker
  exact nomatch quiet.symm.trans ((inv.wakes d w).1 isWaker)

/-- The switch to the fiber of a deque that was resumed directly, or of a strand that is scheduled. -/
theorem PoolInv.of_enterFiber (inv : PoolInv s place waker) {w : ω} {pc : PoolPc ω δ}
    (before : s.pc w = .jumping ∧ pc = .resumed ∨ s.pc w = .sched ∧ pc = .running) :
    PoolInv { s.setPc w pc with fiberResumable := setAt s.fiberResumable (s.activeDeque w) false }
      place waker where
  pools := inv.pools
  deque e := by
    have fits := inv.deque e
    have := inv.wakes e w
    have := (inv.worker w).active
    cases isPlace : place e <;> rw [isPlace] at fits <;> simp only [Fits] at fits ⊢ <;> and_intros <;>
      grind -linarith [setAt]
  worker w' := by
    have isActive := fun (d : δ) w' => inv.activeDeque (d := d) (w := w')
    have := (inv.worker w).active
    obtain ⟨active, moves, sawWorker, claims, sees, leaving, leaver⟩ := inv.worker w'
    constructor <;> grind -linarith [setAt]
  wakes e w' := by
    have := inv.wakes e w'
    grind -linarith [setAt]
  handedOut := inv.handedOut

/-- `__cilkrts_make_resumable` marks a deque that is in no pool. -/
theorem PoolInv.of_makeFree (inv : PoolInv s place waker) {w : ω} {d : δ} {inLoop : Bool}
    (saw : s.pc w = .sawWorker d (.makeResumable inLoop) none) (v : ω) :
    PoolInv { s.setPc w (.adding d v inLoop) with
      resumable := setAt s.resumable d true
      worker := setAt s.worker d (some v) } place waker where
  pools := inv.pools
  deque e := by
    have fits := inv.deque e
    have := inv.wakes e w
    have := (inv.worker w).claims d (by rw [saw]; rfl)
    cases isPlace : place e <;> rw [isPlace] at fits <;> simp only [Fits] at fits ⊢ <;> and_intros <;>
      grind -linarith [setAt]
  worker w' := by
    have := inv.wakes d w
    have := inv.wakes d w'
    have := (inv.worker w).claims d (by rw [saw]; rfl)
    obtain ⟨active, moves, sawWorker, claims, sees, leaving, leaver⟩ := inv.worker w'
    constructor <;> grind -linarith [setAt]
  wakes e w' := by
    have := inv.wakes e w'
    grind -linarith [setAt]
  handedOut := inv.handedOut

/-- `__cilkrts_make_resumable` adds it to a pool. -/
theorem PoolInv.of_addFree (inv : PoolInv s place waker) {w v : ω} {d : δ} {inLoop : Bool}
    (adding : s.pc w = .adding d v inLoop) :
    PoolInv ((s.dequePoolAdd v .resumable d).setPc w (if inLoop then .sched else .running))
      (setAt place d (.slot v .resumable)) (setAt waker d .nobody) := by
  have isWaiting : place d = .waiting := (inv.worker w).claims d (by rw [adding]; rfl)
  have pools' := inv.pools.add (d := d) (by simp [isWaiting]) v .resumable
  have dFits := inv.deque d
  rw [isWaiting] at dFits
  simp only [DequePoolState.dequePoolAdd]
  exact
    { pools := pools'
      deque := by
        intro e
        have fits := inv.deque e
        have := inv.wakes e w
        by_cases here : e = d
        · subst here
          simp only [setAt_self, Fits] at dFits ⊢
          and_intros <;> grind -linarith [setAt]
        · simp only [setAt_other here]
          cases isPlace : place e <;> rw [isPlace] at fits <;> simp only [Fits] at fits ⊢ <;> and_intros <;>
            cases inLoop <;> grind -linarith [setAt]
      worker := by
        intro w'
        have := inv.wakes d w
        have := inv.wakes d w'
        obtain ⟨active, moves, sawWorker, claims, sees, leaving, leaver⟩ := inv.worker w'
        cases inLoop <;> constructor <;> grind -linarith [setAt]
      wakes := by
        intro e w'
        have := inv.wakes e w'
        have := inv.wakes d w
        cases inLoop <;> grind -linarith [setAt]
      handedOut := by
        intro e
        have := inv.handedOut e
        have := inv.wakes d w
        grind -linarith [setAt] }

/-- `__cilkrts_resume_suspended` takes the deque over, and is about to suspend the active one. -/
theorem PoolInv.of_resumeSuspend (inv : PoolInv s place waker) {w : ω} {d : δ} {enable : EnableResume}
    (marked : s.pc w = .marked d enable) (suspends : enable ≠ .destroy) :
    PoolInv (({ s with
        resumable := setAt s.resumable (s.activeDeque w) (decide (enable = EnableResume.yes)) }.saveStrand w).setPc w
          (.chosen (some d))) (setAt place d (.moving w)) (setAt waker d .nobody) := by
  have isWaiting : place d = .waiting := (inv.worker w).claims d (by rw [marked]; rfl)
  have dFits := inv.deque d
  rw [isWaiting] at dFits
  have isWaker : waker d = .worker w := (inv.wakes d w).2 (by rw [marked]; rfl)
  have active_w := (inv.worker w).active
  have isActive := fun (d : δ) w' => inv.activeDeque (d := d) (w := w')
  simp only [DequePoolState.saveStrand]
  exact
    { pools := by apply inv.pools.congr <;> grind -linarith [setAt]
      deque := by
        intro e
        have fits := inv.deque e
        have := inv.wakes e w
        by_cases here : e = d
        · subst here
          simp only [setAt_self, Fits] at dFits ⊢
          and_intros <;> grind -linarith [setAt]
        · simp only [setAt_other here]
          cases isPlace : place e <;> rw [isPlace] at fits <;> simp only [Fits] at fits ⊢ <;> and_intros <;>
            cases enable <;> grind -linarith [setAt]
      worker := by
        intro w'
        have := inv.wakes d w'
        obtain ⟨active, moves, sawWorker, claims, sees, leaving, leaver⟩ := inv.worker w'
        constructor <;> grind -linarith [setAt]
      wakes := by
        intro e w'
        have := inv.wakes e w'
        grind -linarith [setAt]
      handedOut := by
        intro e
        have := inv.handedOut e
        grind -linarith [setAt] }

variable [DecidableEq φ]

/-- `__cilkrts_resume_suspended` marks the deque. -/
theorem PoolInv.of_mark (inv : PoolInv s place waker) {w : ω} {d : δ} {enable : EnableResume}
    (saw : s.pc w = .sawWorker d (.resume enable) none) :
    PoolInv (({ s with resumable := setAt s.resumable d true }.storeFrameWorker d w).setPc w
      (.marked d enable)) place waker where
  pools := inv.pools
  deque e := by
    have fits := inv.deque e
    have := inv.wakes e w
    have := (inv.worker w).claims d (by rw [saw]; rfl)
    simp only [DequePoolState.storeFrameWorker]
    cases isPlace : place e <;> rw [isPlace] at fits <;> simp only [Fits] at fits ⊢ <;> and_intros <;>
      grind -linarith [setAt]
  worker w' := by
    have := inv.wakes d w
    have := inv.wakes d w'
    have := (inv.worker w).claims d (by rw [saw]; rfl)
    obtain ⟨active, moves, sawWorker, claims, sees, leaving, leaver⟩ := inv.worker w'
    simp only [DequePoolState.storeFrameWorker]
    constructor <;> grind -linarith [setAt]
  wakes e w' := by
    have := inv.wakes e w'
    simp only [DequePoolState.storeFrameWorker]
    grind -linarith [setAt]
  handedOut := inv.handedOut

/-- `deque_suspend` switches to a deque that the worker took over. -/
theorem PoolInv.of_switchOver (inv : PoolInv s place waker) {w : ω} {d : δ}
    (chosen : s.pc w = .chosen (some d)) :
    PoolInv ({ s with resumable := setAt s.resumable d false }.switchTo w d)
      (setAt (setAt place (s.activeDeque w) (.moving w)) d (.active w)) waker := by
  have isMoving : place d = .moving w := (inv.worker w).moves d (by rw [chosen]; rfl)
  have dFits := inv.deque d
  rw [isMoving] at dFits
  have active_w := (inv.worker w).active
  have aFits := inv.deque (s.activeDeque w)
  rw [active_w] at aFits
  have isActive := fun (d : δ) w' => inv.activeDeque (d := d) (w := w')
  simp only [DequePoolState.switchTo, DequePoolState.dequeSwitch]
  exact
    { pools := by apply inv.pools.congr <;> grind -linarith [setAt]
      deque := by
        intro e
        have fits := inv.deque e
        have := inv.wakes e w
        by_cases here : e = d
        · subst here
          simp only [setAt_self, Fits] at dFits ⊢
          and_intros <;> grind -linarith [setAt]
        · by_cases left : e = s.activeDeque w
          · subst left
            simp only [setAt_self, setAt_other here, Fits] at aFits ⊢
            and_intros <;> grind -linarith [setAt]
          · simp only [setAt_other here, setAt_other left]
            cases isPlace : place e <;> rw [isPlace] at fits <;> simp only [Fits] at fits ⊢ <;> and_intros <;>
              grind -linarith [setAt]
      worker := by
        intro w'
        obtain ⟨active, moves, sawWorker, claims, sees, leaving, leaver⟩ := inv.worker w'
        constructor <;> grind -linarith [setAt, Fits]
      wakes := by
        intro e w'
        have := inv.wakes e w'
        grind -linarith [setAt]
      handedOut := inv.handedOut }

/-- `deque_suspend` switches to a new deque. -/
theorem PoolInv.of_switchNew (inv : PoolInv s place waker) {w : ω} {d : δ}
    (chosen : s.pc w = .chosen none) (free : s.live d = false) :
    PoolInv ((s.dequeInit w d).switchTo w d)
      (setAt (setAt place (s.activeDeque w) (.moving w)) d (.active w)) waker := by
  have dFits := inv.deque d
  have unused : place d = .dead := by
    cases isPlace : place d <;> rw [isPlace] at dFits <;> simp only [Fits] at dFits <;> grind -linarith
  rw [unused] at dFits
  have active_w := (inv.worker w).active
  have aFits := inv.deque (s.activeDeque w)
  rw [active_w] at aFits
  have isActive := fun (d : δ) w' => inv.activeDeque (d := d) (w := w')
  simp only [DequePoolState.switchTo, DequePoolState.dequeSwitch, DequePoolState.dequeInit]
  exact
    { pools := by apply inv.pools.congr <;> grind -linarith [setAt]
      deque := by
        intro e
        have fits := inv.deque e
        have := inv.wakes e w
        by_cases here : e = d
        · subst here
          simp only [setAt_self, Fits] at dFits ⊢
          and_intros <;> grind -linarith [setAt]
        · by_cases left : e = s.activeDeque w
          · subst left
            simp only [setAt_self, setAt_other here, Fits] at aFits ⊢
            and_intros <;> grind -linarith [setAt]
          · simp only [setAt_other here, setAt_other left]
            cases isPlace : place e <;> rw [isPlace] at fits <;> simp only [Fits] at fits ⊢ <;> and_intros <;>
              grind -linarith [setAt]
      worker := by
        intro w'
        obtain ⟨active, moves, sawWorker, claims, sees, leaving, leaver⟩ := inv.worker w'
        constructor <;> grind -linarith [setAt, Fits]
      wakes := by
        intro e w'
        have := inv.wakes e w'
        grind -linarith [setAt]
      handedOut := by
        intro e
        have := inv.handedOut e
        grind -linarith [setAt, Fits] }

/-- The active deque is destroyed, and one that the worker holds takes its place. -/
theorem PoolInv.of_switchAndDestroy (inv : PoolInv s place waker) {w : ω} {d : δ}
    (holds : s.pc w = .marked d .destroy ∨ s.pc w = .spinning d ∧ s.fiberResumable d = true) :
    PoolInv { s.switchAndDestroy w d with fiber := setAt s.fiber d none }
      (setAt (setAt place (s.activeDeque w) .dead) d (.active w)) (setAt waker d .nobody) := by
  have held : (s.pc w).wakes = some d ∧ place d = .waiting ∨
      (s.pc w).wakes = none ∧ place d = .moving w := by
    rcases holds with holds | ⟨holds, -⟩
    · exact .inl ⟨by rw [holds]; rfl, (inv.worker w).claims d (by rw [holds]; rfl)⟩
    · exact .inr ⟨by rw [holds]; rfl, (inv.worker w).moves d (by rw [holds]; rfl)⟩
  have isWaker : waker d = .worker w ∨ waker d = .nobody := by
    have fits := inv.deque d
    rcases held with ⟨wakes, -⟩ | ⟨-, held⟩
    · exact .inl ((inv.wakes d w).2 wakes)
    · rw [held] at fits
      grind -linarith [Fits]
  have flag : s.fiberResumable d = true := by
    rcases holds with holds | ⟨-, flag⟩
    · exact (inv.worker w).sees d (by rw [holds]; rfl)
    · exact flag
  have active_w := (inv.worker w).active
  have aFits := inv.deque (s.activeDeque w)
  rw [active_w] at aFits
  have isActive := fun (d : δ) w' => inv.activeDeque (d := d) (w := w')
  simp only [DequePoolState.switchAndDestroy, DequePoolState.dequeSwitch, DequePoolState.dequeDestroy]
  exact
    { pools := by apply inv.pools.congr <;> grind -linarith [setAt]
      deque := by
        intro e
        have fits := inv.deque e
        have := inv.wakes e w
        by_cases here : e = d
        · subst here
          simp only [setAt_self, Fits]
          and_intros <;> rcases held with ⟨-, held⟩ | ⟨-, held⟩ <;> rw [held] at fits <;> grind -linarith [setAt, Fits]
        · by_cases left : e = s.activeDeque w
          · subst left
            simp only [setAt_self, setAt_other here, Fits] at aFits ⊢
            and_intros <;> grind -linarith [setAt]
          · simp only [setAt_other here, setAt_other left]
            cases isPlace : place e <;> rw [isPlace] at fits <;> simp only [Fits] at fits ⊢ <;> and_intros <;>
              grind -linarith [setAt]
      worker := by
        intro w'
        have := inv.wakes d w
        have := inv.wakes d w'
        obtain ⟨active, moves, sawWorker, claims, sees, leaving, leaver⟩ := inv.worker w'
        constructor <;> grind -linarith [setAt]
      wakes := by
        intro e w'
        have := inv.wakes e w'
        have := inv.wakes d w
        grind -linarith [setAt]
      handedOut := by
        intro e
        have := inv.handedOut e
        grind -linarith [setAt] }

/-! ### Every step -/

omit [DecidableEq ω] [DecidableEq δ] [DecidableEq φ] in
/-- The invariant does not read the stacks, the pointers, the locks and what is saved in the deques. -/
theorem PoolInv.congr {s' : DequePoolState ω δ φ ψ π} (inv : PoolInv s place waker)
    (pools : s'.pools = s.pools) (self : s'.self = s.self) (activeDeque : s'.activeDeque = s.activeDeque)
    (live : s'.live = s.live) (worker : s'.worker = s.worker) (resumable : s'.resumable = s.resumable)
    (fiber : s'.fiber = s.fiber) (flag : s'.fiberResumable = s.fiberResumable) (pc : s'.pc = s.pc)
    (handedOut : s'.handedOut = s.handedOut) : PoolInv s' place waker where
  pools := by rw [pools, self]; exact inv.pools
  deque d := by
    have fits := inv.deque d
    cases isPlace : place d <;> rw [isPlace] at fits <;>
      simpa only [Fits, self, activeDeque, live, worker, resumable, fiber, flag, pc] using fits
  worker w := by
    obtain ⟨active, moves, sawWorker, claims, sees, leaving, leaver⟩ := inv.worker w
    constructor <;> simp only [activeDeque, fiber, flag, pc] <;> assumption
  wakes d w := by rw [pc]; exact inv.wakes d w
  handedOut d := by rw [handedOut]; exact inv.handedOut d

omit [DecidableEq ω] [DecidableEq δ] [DecidableEq φ] in
/-- A waker that found the fiber resumable found its deque in the suspended pool of its worker, or in no
    pool. -/
theorem PoolInv.of_sees (inv : PoolInv s place waker) {w : ω} {d : δ} (wakes : (s.pc w).wakes = some d)
    (flag : s.fiberResumable d = true) :
    (∃ v, s.worker d = some v ∧ place d = .slot v .suspended) ∨
      ((s.pc w).adds = false → s.worker d = none) ∧ place d = .waiting := by
  have isWaker : waker d = .worker w := (inv.wakes d w).2 wakes
  have fits := inv.deque d
  rw [isWaker] at fits
  cases isPlace : place d with
  | dead =>
      rw [isPlace] at fits
      cases fits.2
  | active v =>
      rw [isPlace] at fits
      obtain ⟨-, -, -, -, -, known, onFiber⟩ := fits
      have notHanded : (s.pc v).handedOut = false := by
        by_contra isHanded
        rw [onFiber (PoolPc.onFiber_of_handedOut (by simpa using isHanded))] at flag
        cases flag
      cases known.2 (.inl notHanded)
  | slot v kind =>
      rw [isPlace] at fits
      cases kind with
      | resumable => cases fits.2.2.2.2 rfl
      | suspended => exact .inl ⟨v, fits.2.1, rfl⟩
  | moving v =>
      rw [isPlace] at fits
      by_cases placing : s.pc v = .placing d
      · rw [(fits.2.2.1 placing).2.2.2.1] at flag
        cases flag
      · cases (fits.2.2.2 placing).2.2.2
  | waiting =>
      rw [isPlace] at fits
      exact .inr ⟨(fits.2.2.2.2 w rfl).1, rfl⟩

omit [DecidableEq φ] in
/-- `__cilkrts_make_resumable` moves a deque from the suspended pool to the resumable pool. -/
theorem PoolInv.of_makeInPool (inv : PoolInv s place waker) {w v : ω} {d : δ} {inLoop : Bool}
    (saw : s.pc w = .sawWorker d (.makeResumable inLoop) (some v)) (inside : place d = .slot v .suspended) :
    PoolInv (({ s.dequePoolRemove v .suspended d with
        resumable := setAt s.resumable d true }.dequePoolAdd v .resumable d).setPc w
          (if inLoop then .sched else .running))
      (setAt place d (.slot v .resumable)) (setAt waker d .nobody) := by
  have dFits := inv.deque d
  rw [inside] at dFits
  obtain ⟨index', removed, eq, gone, same, pools'⟩ := inv.remove inside
  have added := (pools' .waiting (by simp)).add (d := d) (by simp) v .resumable
  have isWaker : waker d = .worker w := (inv.wakes d w).2 (by rw [saw]; rfl)
  simp only [eq, DequePoolState.dequePoolAdd]
  generalize setPool removed v .resumable (removed v .resumable ++ [d]) = pools₁ at added ⊢
  exact
    { pools := by apply added.congr <;> grind -linarith [setAt]
      deque := by
        intro e
        have fits := inv.deque e
        have := inv.wakes e w
        by_cases here : e = d
        · subst here
          simp only [setAt_self, Fits] at dFits ⊢
          and_intros <;> grind -linarith [setAt]
        · simp only [setAt_other here]
          cases isPlace : place e <;> rw [isPlace] at fits <;> simp only [Fits] at fits ⊢ <;> and_intros <;>
            cases inLoop <;> grind -linarith [setAt]
      worker := by
        intro w'
        have := inv.wakes d w'
        obtain ⟨active, moves, sawWorker, claims, sees, leaving, leaver⟩ := inv.worker w'
        clear dFits eq gone same pools' added
        by_cases other : w' = w
        · -- The worker itself neither holds nor sees a deque any more.
          subst other
          cases inLoop <;> constructor <;> grind -linarith [setAt]
        · constructor <;> grind -linarith [setAt]
      wakes := by
        intro e w'
        have := inv.wakes e w'
        cases inLoop <;> grind -linarith [setAt]
      handedOut := by
        intro e
        have := inv.handedOut e
        grind -linarith [setAt] }

omit [DecidableEq ω] in
/-- A thief touches only the stack of the deque it steals from. -/
theorem PoolInv.of_detachForSteal {s' : DequePoolState ω δ φ ψ π} (inv : PoolInv s place waker) {d : δ}
    {child : ψ} (taken : s.detachForSteal d child = some s') : PoolInv s' place waker := by
  simp only [DequePoolState.detachForSteal] at taken
  split at taken <;> cases taken
  exact inv.congr rfl rfl rfl rfl rfl rfl rfl rfl rfl rfl

omit [DecidableEq ω] [DecidableEq δ] [DecidableEq φ] in
/-- At the start every deque is active or dead. -/
theorem PoolInv.of_start (initial : s.Initial) : ∃ (place : δ → Place ω) (waker : δ → Waker ω),
    PoolInv s place waker := by
  obtain ⟨workers, deques, -⟩ := initial
  have hasPlace (d : δ) : ∃ p : Place ω, s.live d = false ∧ p = .dead ∨
      ∃ w, s.activeDeque w = d ∧ p = .active w := by
    cases isLive : s.live d with
    | false => exact ⟨.dead, .inl ⟨rfl, rfl⟩⟩
    | true =>
        obtain ⟨w, active⟩ := (deques d).2.2.2.2.2.2.1 isLive
        exact ⟨.active w, .inr ⟨w, active, rfl⟩⟩
  choose place known using hasPlace
  have active (w : ω) : place (s.activeDeque w) = .active w := by
    obtain ⟨-, -, -, isLive, -, owner, -⟩ := workers w
    rcases known (s.activeDeque w) with ⟨dead, -⟩ | ⟨w', same, isActive⟩
    · exact nomatch isLive.symm.trans dead
    · have owner' := (workers w').2.2.2.2.2.1
      rw [same, owner] at owner'
      cases owner'
      exact isActive
  have quiet (w : ω) : s.pc w = .sched ∨ s.pc w = .running := by
    rcases (workers w).2.2.2.2.2.2 with ⟨isSched, -⟩ | ⟨isRunning, -⟩
    · exact .inl isSched
    · exact .inr isRunning
  refine ⟨place, fun _ => .nobody, ?_⟩
  exact
    { pools := by
        constructor
        · intro d w kind
          rw [(workers w).2.2.1 kind]
          rcases known d with ⟨-, isDead⟩ | ⟨w', -, isActive⟩ <;> simp [*]
        · intro w kind
          rw [(workers w).2.2.1 kind]
          exact List.nodup_nil
        · intro w kind
          rw [(workers w).2.2.1 kind]
          intro i d member
          simp at member
      deque := by
        intro d
        rcases known d with ⟨isDead, place_d⟩ | ⟨w, rfl, place_d⟩
        · rw [place_d]
          exact ⟨isDead, rfl⟩
        · rw [place_d]
          obtain ⟨-, -, -, isLive, index, owner, -⟩ := workers w
          obtain ⟨notResumable, -, -, notFlagged, -⟩ := deques (s.activeDeque w)
          simp only [Fits]
          and_intros <;> rcases quiet w with pc | pc <;> grind -linarith
      worker := by
        intro w
        constructor <;> rcases quiet w with pc | pc <;> grind -linarith
      wakes := by
        intro d w
        rcases quiet w with pc | pc <;> rw [pc] <;> simp
      handedOut := by
        intro d
        simp [(deques d).2.2.2.2.1] }

/-- Every step keeps the invariant. -/
theorem PoolInv.of_step {s' : DequePoolState ω δ φ ψ π} {label : PoolLabel ω δ φ ψ π}
    (inv : PoolInv s place waker) (taken : poolStep s label = some s') :
    ∃ (place' : δ → Place ω) (waker' : δ → Waker ω), PoolInv s' place' waker' := by
  cases label with
  | enterFrame w sf =>
      simp only [poolStep, Option.ite_none_right_eq_some, Option.some.injEq] at taken
      obtain ⟨-, rfl⟩ := taken
      exact ⟨place, waker, inv.congr rfl rfl rfl rfl rfl rfl rfl rfl rfl rfl⟩
  | detach w =>
      simp only [poolStep] at taken
      split at taken <;> cases taken
      exact ⟨place, waker, inv.congr rfl rfl rfl rfl rfl rfl rfl rfl rfl rfl⟩
  | leaveFrame w =>
      simp only [poolStep] at taken
      split at taken <;> cases taken
      exact ⟨place, waker, inv.congr rfl rfl rfl rfl rfl rfl rfl rfl rfl rfl⟩
  | finish w =>
      simp only [poolStep] at taken
      split at taken <;> cases taken
      rename_i running _
      have ended : PoolInv (s.setPc w .sched) place waker := by
        apply inv.setPc <;> simp [running]
      exact ⟨place, waker, ended.congr rfl rfl rfl rfl rfl rfl rfl rfl rfl rfl⟩
  | schedule w sf ff =>
      simp only [poolStep, Option.ite_none_right_eq_some, Option.some.injEq] at taken
      obtain ⟨⟨isSched, -⟩, rfl⟩ := taken
      exact ⟨place, waker, (inv.of_enterFiber (.inr ⟨isSched, rfl⟩)).congr rfl rfl rfl rfl rfl rfl rfl rfl rfl
        rfl⟩
  | setPedigree w pedigree =>
      simp only [poolStep, Option.ite_none_right_eq_some, Option.some.injEq] at taken
      obtain ⟨-, rfl⟩ := taken
      exact ⟨place, waker, inv.congr rfl rfl rfl rfl rfl rfl rfl rfl rfl rfl⟩
  | publish w =>
      simp only [poolStep, Option.ite_none_right_eq_some, Option.some.injEq] at taken
      obtain ⟨running, rfl⟩ := taken
      exact ⟨_, _, inv.of_publish running⟩
  | suspend w =>
      simp only [poolStep, Option.ite_none_right_eq_some, Option.some.injEq] at taken
      obtain ⟨isPublished, rfl⟩ := taken
      have chooses : PoolInv (s.setPc w .choosing) place waker := by
        apply inv.setPc <;> simp [isPublished]
      exact ⟨place, waker, chooses.congr rfl rfl rfl rfl rfl rfl rfl rfl rfl rfl⟩
  | checkPool w =>
      simp only [poolStep, Option.ite_none_right_eq_some] at taken
      obtain ⟨⟨choosing, -⟩, taken⟩ := taken
      split at taken <;> cases taken
      · rename_i d isLast
        have inside := (inv.pools.slot d w .resumable).1 (List.mem_of_getLast? isLast)
        exact ⟨_, _, inv.of_mugResumable inside (.inl ⟨choosing, rfl⟩)⟩
      · refine ⟨place, waker, ?_⟩
        apply inv.setPc <;> simp [choosing]
  | mugStore w =>
      simp only [poolStep] at taken
      split at taken <;> cases taken
      rename_i d victim caller mugging
      cases caller with
      | suspend =>
          have chosen : PoolInv (s.setPc w (.chosen (some d))) place waker := by
            apply inv.setPc <;> simp [mugging]
          exact ⟨place, waker, chosen.congr rfl rfl rfl rfl rfl rfl rfl rfl rfl rfl⟩
      | resume enable =>
          have claims := (inv.worker w).claims d (by simp [mugging])
          have sees := (inv.worker w).sees d (by simp [mugging])
          have back : PoolInv (s.setPc w (.sawWorker d (.resume enable) none)) place waker := by
            apply inv.setPc <;> simp [mugging, claims, sees]
          exact ⟨place, waker, back.congr rfl rfl rfl rfl rfl rfl rfl rfl rfl rfl⟩
      | jump =>
          have spins : PoolInv (s.setPc w (.spinning d)) place waker := by
            apply inv.setPc <;> simp [mugging]
          exact ⟨place, waker, spins.congr rfl rfl rfl rfl rfl rfl rfl rfl rfl rfl⟩
      | empty =>
          have looks : PoolInv (s.setPc w .sched) place waker := by
            apply inv.setPc <;> simp [mugging]
          exact ⟨place, waker, looks.congr rfl rfl rfl rfl rfl rfl rfl rfl rfl rfl⟩
  | switchDeque w newDeque stolen =>
      simp only [poolStep, Option.ite_none_right_eq_some] at taken
      obtain ⟨-, taken⟩ := taken
      split at taken
      · rename_i d chosen
        simp only [Option.ite_none_right_eq_some, Option.some.injEq] at taken
        obtain ⟨-, rfl⟩ := taken
        exact ⟨_, _, inv.of_switchOver chosen⟩
      · rename_i chosen
        simp only [Option.ite_none_right_eq_some] at taken
        obtain ⟨free, taken⟩ := taken
        have switched := inv.of_switchNew chosen free
        split at taken
        · exact ⟨_, _, switched.of_detachForSteal taken⟩
        · cases taken
          exact ⟨_, _, switched⟩
      · cases taken
  | place w victim =>
      simp only [poolStep] at taken
      split at taken
      case h_2 => cases taken
      rename_i d placing
      split at taken
      · simp only [Option.ite_none_right_eq_some, Option.some.injEq] at taken
        obtain ⟨-, rfl⟩ := taken
        exact ⟨_, _, inv.of_place placing victim⟩
      · rename_i empty
        cases taken
        exact ⟨_, _, inv.of_placeFree placing (by simpa using fun flag => empty (.inl flag))⟩
  | switchFiber w =>
      simp only [poolStep] at taken
      split at taken
      case h_2 => cases taken
      rename_i old leaving
      split at taken
      · rename_i v isNew
        cases taken
        exact ⟨place, waker, inv.of_switchToLoop leaving isNew⟩
      · simp only [Option.ite_none_right_eq_some, Option.some.injEq] at taken
        obtain ⟨flag, rfl⟩ := taken
        exact ⟨place, waker, inv.of_switchToStrand leaving flag⟩
      · cases taken
  | wake w d wake =>
      simp only [poolStep, Option.ite_none_right_eq_some, Option.some.injEq] at taken
      obtain ⟨⟨pending, caller⟩, rfl⟩ := taken
      exact ⟨_, _, inv.of_wake pending caller⟩
  | readWorker w =>
      simp only [poolStep] at taken
      split at taken
      case h_2 => cases taken
      rename_i d wake waking
      simp only [Option.ite_none_right_eq_some, Option.some.injEq] at taken
      obtain ⟨⟨-, flag⟩, rfl⟩ := taken
      have found := inv.of_sees (w := w) (d := d) (by simp [waking]) flag
      refine ⟨place, waker, ?_⟩
      apply inv.setPc <;> simp [waking] <;> grind -linarith
  | lockWorker w =>
      simp only [poolStep] at taken
      split at taken
      case h_2 => cases taken
      rename_i d wake victim saw
      simp only [Option.ite_none_right_eq_some] at taken
      obtain ⟨-, taken⟩ := taken
      have flag : s.fiberResumable d = true := (inv.worker w).sees d (by simp [saw])
      have known := (inv.worker w).sawWorker d wake victim saw
      rcases inv.of_sees (w := w) (d := d) (by simp [saw]) flag with ⟨v, owner, inside⟩ | ⟨free, isWaiting⟩
      · obtain rfl : v = victim := by
          rw [inside] at known
          simpa using known
        rw [owner] at taken
        cases wake with
        | makeResumable inLoop =>
            cases taken
            exact ⟨_, _, inv.of_makeInPool saw inside⟩
        | resume enable =>
            cases taken
            exact ⟨_, _, inv.of_mugSuspended inside (.inr ⟨enable, saw, rfl⟩)⟩
      · rw [free (by simp [saw])] at taken
        cases taken
        refine ⟨place, waker, ?_⟩
        apply inv.setPc <;> simp [saw, isWaiting, flag]
  | makeFree w victim =>
      simp only [poolStep] at taken
      split at taken <;> cases taken
      rename_i d inLoop saw
      exact ⟨place, waker, inv.of_makeFree saw victim⟩
  | addFree w =>
      simp only [poolStep] at taken
      split at taken
      case h_2 => cases taken
      rename_i d victim inLoop adding
      simp only [Option.ite_none_right_eq_some, Option.some.injEq] at taken
      obtain ⟨-, rfl⟩ := taken
      exact ⟨_, _, inv.of_addFree adding⟩
  | mark w =>
      simp only [poolStep] at taken
      split at taken <;> cases taken
      rename_i d enable saw
      exact ⟨place, waker, inv.of_mark saw⟩
  | resumeDestroy w =>
      simp only [poolStep] at taken
      split at taken
      case h_2 => cases taken
      rename_i d marked
      simp only [Option.ite_none_right_eq_some, Option.some.injEq] at taken
      obtain ⟨-, rfl⟩ := taken
      exact ⟨_, _, inv.of_switchAndDestroy (.inl marked)⟩
  | resumeSuspend w =>
      simp only [poolStep] at taken
      split at taken <;> cases taken
      · rename_i d marked
        exact ⟨_, _, inv.of_resumeSuspend marked (by rintro ⟨⟩)⟩
      · rename_i d marked
        exact ⟨_, _, inv.of_resumeSuspend marked (by rintro ⟨⟩)⟩
  | steal w victim d child =>
      simp only [poolStep, Option.ite_none_right_eq_some] at taken
      exact ⟨place, waker, inv.of_detachForSteal taken.2⟩
  | mugEmpty w victim d =>
      simp only [poolStep, Option.ite_none_right_eq_some, Option.some.injEq] at taken
      obtain ⟨⟨isSched, -, -, member, -⟩, rfl⟩ := taken
      exact ⟨_, _, inv.of_mugSuspended ((inv.pools.slot d victim .suspended).1 member) (.inl ⟨isSched, rfl⟩)⟩
  | jumpMug w victim =>
      simp only [poolStep, Option.ite_none_right_eq_some] at taken
      obtain ⟨⟨isSched, -⟩, taken⟩ := taken
      split at taken <;> cases taken
      rename_i d isLast
      have inside := (inv.pools.slot d victim .resumable).1 (List.mem_of_getLast? isLast)
      exact ⟨_, _, inv.of_mugResumable inside (.inr ⟨isSched, rfl⟩)⟩
  | jumpSwitch w =>
      simp only [poolStep] at taken
      split at taken
      case h_2 => cases taken
      rename_i d spinning
      simp only [Option.ite_none_right_eq_some, Option.some.injEq] at taken
      obtain ⟨⟨flag, -⟩, rfl⟩ := taken
      exact ⟨_, _, inv.of_switchAndDestroy (.inr ⟨spinning, flag⟩)⟩
  | jump w =>
      simp only [poolStep, Option.ite_none_right_eq_some, Option.some.injEq] at taken
      obtain ⟨isJumping, rfl⟩ := taken
      exact ⟨place, waker, inv.of_enterFiber (.inl ⟨isJumping, rfl⟩)⟩
  | goOn w =>
      simp only [poolStep, Option.ite_none_right_eq_some, Option.some.injEq] at taken
      obtain ⟨isResumed, rfl⟩ := taken
      have goesOn : PoolInv (s.setPc w .running) place waker := by
        apply inv.setPc <;> simp [isResumed]
      exact ⟨place, waker, goesOn.congr rfl rfl rfl rfl rfl rfl rfl rfl rfl rfl⟩

end Steps

/-! ### The situations of a deque -/

namespace DequePoolState

/-- The deque is in no pool. -/
def InNoPool (s : DequePoolState ω δ φ ψ π) (d : δ) : Prop :=
  ∀ w kind, d ∉ s.pools w kind

/-- The deque is the active deque of one worker only. -/
def ActiveOnOne (s : DequePoolState ω δ φ ψ π) (d : δ) : Prop :=
  s.InNoPool d ∧ ∃ w, s.activeDeque w = d ∧ (∀ w', s.activeDeque w' = d → w' = w) ∧
    s.self d = activeDequeIndex ∧ s.worker d = some w

/-- The deque is in one slot of one pool of one worker only, and active nowhere. -/
def InOneSlot (s : DequePoolState ω δ φ ψ π) (d : δ) : Prop :=
  (∀ w, s.activeDeque w ≠ d) ∧ ∃ (w : ω) (kind : PoolKind) (i : Nat), (s.pools w kind)[i]? = some d ∧
    (∀ w' kind' (i' : Nat), (s.pools w' kind')[i']? = some d → w' = w ∧ kind' = kind ∧ i' = i) ∧
    s.self d = i ∧ s.worker d = some w ∧ (s.resumable d = true ↔ kind = .resumable)

/-- A future or an I/O operation has the deque, or one worker is waking it. -/
def HasOneWaker (s : DequePoolState ω δ φ ψ π) (d : δ) : Prop :=
  s.handedOut d = true ∧ (∀ w, (s.pc w).wakes ≠ some d) ∨
    s.handedOut d = false ∧ ∃ w, (s.pc w).wakes = some d ∧ ∀ w', (s.pc w').wakes = some d → w' = w

/-- The deque is in no pool and active nowhere, and one worker moves it, or its waker has it. -/
def HeldByOne (s : DequePoolState ω δ φ ψ π) (d : δ) : Prop :=
  s.InNoPool d ∧ (∀ w, s.activeDeque w ≠ d) ∧
    ((∃ w, (s.pc w).moves = some d ∧ (∀ w', (s.pc w').moves = some d → w' = w) ∧
        (s.pc w = .placing d ∨ s.self d = invalidDequeIndex ∧
          s.handedOut d = false ∧ ∀ w', (s.pc w').wakes ≠ some d)) ∨
      (∀ w, (s.pc w).moves ≠ some d) ∧ s.self d = invalidDequeIndex ∧ s.HasOneWaker d)

/-- The deque is in one of the three situations, and in no other. -/
def InOneSituation (s : DequePoolState ω δ φ ψ π) (d : δ) : Prop :=
  s.ActiveOnOne d ∧ ¬s.InOneSlot d ∧ ¬s.HeldByOne d ∨
    ¬s.ActiveOnOne d ∧ s.InOneSlot d ∧ ¬s.HeldByOne d ∨
    ¬s.ActiveOnOne d ∧ ¬s.InOneSlot d ∧ s.HeldByOne d

end DequePoolState

/-- A deque is in the pools as its place says. -/
theorem PoolInv.inNoPool (inv : PoolInv s place waker) {d : δ} (outside : ∀ w kind, place d ≠ .slot w kind) :
    s.InNoPool d := fun w kind member => outside w kind ((inv.pools.slot d w kind).1 member)

/-- A deque is active as its place says. -/
theorem PoolInv.not_active (inv : PoolInv s place waker) {d : δ} (outside : ∀ w, place d ≠ .active w) (w : ω) :
    s.activeDeque w ≠ d := by
  rintro rfl
  exact outside w (inv.worker w).active

/-- A deque is moved as its place says. -/
theorem PoolInv.not_moved (inv : PoolInv s place waker) {d : δ} (outside : ∀ w, place d ≠ .moving w) (w : ω) :
    (s.pc w).moves ≠ some d := fun moves => outside w ((inv.worker w).moves d moves)

/-- A deque that is not left alone has one waker. -/
theorem PoolInv.hasOneWaker (inv : PoolInv s place waker) {d : δ} (known : waker d ≠ .nobody) :
    s.HasOneWaker d := by
  have handed := inv.handedOut d
  have wakes := inv.wakes d
  cases isWaker : waker d with
  | nobody => exact absurd isWaker known
  | pending =>
      refine .inl ⟨handed.1 isWaker, fun w isWaking => ?_⟩
      exact nomatch isWaker.symm.trans ((wakes w).2 isWaking)
  | worker w =>
      refine .inr ⟨by simpa [isWaker] using handed.symm, w, (wakes w).1 isWaker, fun w' isWaking => ?_⟩
      have := isWaker.symm.trans ((wakes w').2 isWaking)
      grind -linarith

/-- The active deques. -/
theorem PoolInv.activeOnOne (inv : PoolInv s place waker) {d : δ} {w : ω} (active : place d = .active w) :
    s.ActiveOnOne d := by
  have fits := inv.deque d
  rw [active] at fits
  refine ⟨inv.inNoPool (by simp [active]), w, fits.2.1, fun w' same => ?_, fits.2.2.1, fits.2.2.2.1⟩
  have active' := (inv.worker w').active
  rw [same, active] at active'
  grind -linarith

/-- The deques in pools. -/
theorem PoolInv.inOneSlot (inv : PoolInv s place waker) {d : δ} {w : ω} {kind : PoolKind}
    (slot : place d = .slot w kind) : s.InOneSlot d := by
  have fits := inv.deque d
  rw [slot] at fits
  obtain ⟨i, at_i⟩ := List.mem_iff_getElem?.1 ((inv.pools.slot d w kind).2 slot)
  have index : s.self d = i := inv.pools.slots w kind i d at_i
  refine ⟨inv.not_active (by simp [slot]), w, kind, i, at_i, fun w' kind' i' at_i' => ?_, index, fits.2.1,
    fits.2.2.1⟩
  have slot' := (inv.pools.slot d w' kind').1 (List.mem_of_getElem? at_i')
  rw [slot] at slot'
  cases slot'
  have index' : s.self d = i' := inv.pools.slots w kind i' d at_i'
  exact ⟨rfl, rfl, by omega⟩

/-- The deques that a worker moves. -/
theorem PoolInv.heldByOne_moving (inv : PoolInv s place waker) {d : δ} {w : ω} (moving : place d = .moving w) :
    s.HeldByOne d := by
  have fits := inv.deque d
  rw [moving] at fits
  refine ⟨inv.inNoPool (by simp [moving]), inv.not_active (by simp [moving]), .inl ⟨w, fits.2.1,
    fun w' moves => ?_, ?_⟩⟩
  · have moving' := (inv.worker w').moves d moves
    rw [moving] at moving'
    grind -linarith
  · by_cases placing : s.pc w = .placing d
    · exact .inl placing
    · obtain ⟨index, -, -, nobody⟩ := fits.2.2.2 placing
      have handed := inv.handedOut d
      have wakes := inv.wakes d
      rw [nobody] at handed wakes
      exact .inr ⟨index, by simpa using handed.symm, fun w' isWaking => nomatch (wakes w').2 isWaking⟩

/-- The deques that are left to their waker. -/
theorem PoolInv.heldByOne_waiting (inv : PoolInv s place waker) {d : δ} (waiting : place d = .waiting) :
    s.HeldByOne d := by
  have fits := inv.deque d
  rw [waiting] at fits
  exact ⟨inv.inNoPool (by simp [waiting]), inv.not_active (by simp [waiting]),
    .inr ⟨inv.not_moved (by simp [waiting]), fits.2.1, inv.hasOneWaker fits.2.2.1⟩⟩

/-- The three situations exclude each other. -/
theorem DequePoolState.inOneSituation {d : δ} (some : s.ActiveOnOne d ∨ s.InOneSlot d ∨ s.HeldByOne d) :
    s.InOneSituation d := by
  have notActive (free : ∀ w, s.activeDeque w ≠ d) : ¬s.ActiveOnOne d := by
    rintro ⟨-, w, active, -⟩
    exact free w active
  have notSlot (free : s.InNoPool d) : ¬s.InOneSlot d := by
    rintro ⟨-, w, kind, i, at_i, -⟩
    exact free w kind (List.mem_of_getElem? at_i)
  rcases some with active | slot | held
  · refine .inl ⟨active, notSlot active.1, fun held => notActive held.2.1 active⟩
  · refine .inr (.inl ⟨notActive slot.1, slot, fun held => notSlot held.1 slot⟩)
  · exact .inr (.inr ⟨notActive held.2.1, notSlot held.1, held⟩)

/-- Every live deque is in one situation. -/
theorem PoolInv.inOneSituation (inv : PoolInv s place waker) {d : δ} (isLive : s.live d = true) :
    s.InOneSituation d := by
  apply DequePoolState.inOneSituation
  cases isPlace : place d with
  | dead =>
      have fits := inv.deque d
      rw [isPlace] at fits
      exact nomatch isLive.symm.trans fits.1
  | active w => exact .inl (inv.activeOnOne isPlace)
  | slot w kind => exact .inr (.inl (inv.inOneSlot isPlace))
  | moving w => exact .inr (.inr (inv.heldByOne_moving isPlace))
  | waiting => exact .inr (.inr (inv.heldByOne_waiting isPlace))

/-- The deque is allocated, and resumable until it is active. -/
def DequePoolState.Kept (s : DequePoolState ω δ φ ψ π) (d : δ) : Prop :=
  s.live d = true ∧ (s.resumable d = true ∨ ∃ w, s.activeDeque w = d)

theorem DequePoolState.kept_of_detachForSteal [DecidableEq δ] [DecidableEq φ]
    {s' : DequePoolState ω δ φ ψ π} {d e : δ} {child : ψ} (kept : s.Kept d)
    (taken : s.detachForSteal e child = some s') : s'.Kept d := by
  simp only [DequePoolState.detachForSteal] at taken
  split at taken <;> cases taken
  exact kept

variable [DecidableEq ω] [DecidableEq δ] [DecidableEq φ]

/-- The destruction of the active deque of a worker that does not make it resumable. -/
theorem PoolInv.kept_of_switchAndDestroy (inv : PoolInv s place waker) {w : ω} {d e : δ}
    (isLive : s.live d = true) (flag : s.resumable d = true) (quiet : (s.pc w).switches = false) :
    ({ s.switchAndDestroy w e with fiber := setAt s.fiber e none }).Kept d := by
  have fits := inv.deque (s.activeDeque w)
  rw [(inv.worker w).active] at fits
  have other : d ≠ s.activeDeque w := by
    rintro rfl
    exact nomatch quiet.symm.trans (fits.2.2.2.2.1 flag)
  simp only [DequePoolState.Kept, DequePoolState.switchAndDestroy, DequePoolState.dequeSwitch,
    DequePoolState.dequeDestroy]
  by_cases here : d = e
  · subst here
    exact ⟨by rwa [setAt_other other], .inr ⟨w, setAt_self ..⟩⟩
  · exact ⟨by rwa [setAt_other other], .inl (by rwa [setAt_other here])⟩

/-- No step drops a resumable deque. -/
theorem PoolInv.kept {s' : DequePoolState ω δ φ ψ π} {label : PoolLabel ω δ φ ψ π}
    (inv : PoolInv s place waker) (taken : poolStep s label = some s') {d : δ} (isLive : s.live d = true)
    (flag : s.resumable d = true) : s'.Kept d := by
  have kept : s.Kept d := ⟨isLive, .inl flag⟩
  cases label with
  | switchDeque w newDeque stolen =>
      simp only [poolStep, Option.ite_none_right_eq_some] at taken
      obtain ⟨-, taken⟩ := taken
      split at taken
      · rename_i e chosen
        simp only [Option.ite_none_right_eq_some, Option.some.injEq] at taken
        obtain ⟨-, rfl⟩ := taken
        simp only [DequePoolState.Kept, DequePoolState.switchTo, DequePoolState.dequeSwitch]
        by_cases here : d = e
        · subst here
          exact ⟨isLive, .inr ⟨w, setAt_self ..⟩⟩
        · exact ⟨isLive, .inl (by rwa [setAt_other here])⟩
      · rename_i chosen
        simp only [Option.ite_none_right_eq_some] at taken
        obtain ⟨free, taken⟩ := taken
        have other : d ≠ newDeque := by
          rintro rfl
          exact nomatch free.symm.trans isLive
        have switched : ((s.dequeInit w newDeque).switchTo w newDeque).Kept d := by
          simp only [DequePoolState.Kept, DequePoolState.switchTo, DequePoolState.dequeSwitch,
            DequePoolState.dequeInit, setAt_other other]
          exact ⟨isLive, .inl flag⟩
        split at taken
        · exact DequePoolState.kept_of_detachForSteal switched taken
        · cases taken
          exact switched
      · cases taken
  | lockWorker w =>
      simp only [poolStep] at taken
      split at taken
      case h_2 => cases taken
      rename_i e wake victim saw
      simp only [Option.ite_none_right_eq_some] at taken
      obtain ⟨-, taken⟩ := taken
      split at taken
      · split at taken
        · cases taken
          simp only [DequePoolState.Kept, DequePoolState.dequePoolAdd, DequePoolState.dequePoolRemove]
          grind -linarith [setAt]
        · cases taken
          exact kept
      · cases taken
        exact kept
  | makeFree w victim =>
      simp only [poolStep] at taken
      split at taken <;> cases taken
      simp only [DequePoolState.Kept]
      grind -linarith [setAt]
  | mark w =>
      simp only [poolStep] at taken
      split at taken <;> cases taken
      simp only [DequePoolState.Kept, DequePoolState.storeFrameWorker]
      grind -linarith [setAt]
  | resumeDestroy w =>
      simp only [poolStep] at taken
      split at taken
      case h_2 => cases taken
      rename_i e marked
      simp only [Option.ite_none_right_eq_some, Option.some.injEq] at taken
      obtain ⟨-, rfl⟩ := taken
      exact inv.kept_of_switchAndDestroy isLive flag (by simp [marked])
  | resumeSuspend w =>
      simp only [poolStep] at taken
      split at taken <;> cases taken <;> simp only [DequePoolState.Kept, DequePoolState.saveStrand] <;>
        grind -linarith [setAt]
  | jumpSwitch w =>
      simp only [poolStep] at taken
      split at taken
      case h_2 => cases taken
      rename_i e spinning
      simp only [Option.ite_none_right_eq_some, Option.some.injEq] at taken
      obtain ⟨-, rfl⟩ := taken
      exact inv.kept_of_switchAndDestroy isLive flag (by simp [spinning])
  | steal w victim e child =>
      simp only [poolStep, Option.ite_none_right_eq_some] at taken
      exact DequePoolState.kept_of_detachForSteal kept taken.2
  | place w victim =>
      simp only [poolStep] at taken
      split at taken
      case h_2 => cases taken
      split at taken
      · simp only [Option.ite_none_right_eq_some, Option.some.injEq] at taken
        obtain ⟨-, rfl⟩ := taken
        exact kept
      · cases taken
        exact kept
  | switchFiber w =>
      simp only [poolStep] at taken
      split at taken
      case h_2 => cases taken
      split at taken
      · cases taken
        exact kept
      · simp only [Option.ite_none_right_eq_some, Option.some.injEq] at taken
        obtain ⟨-, rfl⟩ := taken
        exact kept
      · cases taken
  | checkPool w | jumpMug w victim =>
      simp only [poolStep, Option.ite_none_right_eq_some] at taken
      obtain ⟨-, taken⟩ := taken
      split at taken <;> cases taken <;> exact kept
  | detach w | leaveFrame w | finish w | mugStore w =>
      simp only [poolStep] at taken
      split at taken <;> cases taken
      exact kept
  | readWorker w | addFree w =>
      simp only [poolStep] at taken
      split at taken
      case h_2 => cases taken
      simp only [Option.ite_none_right_eq_some, Option.some.injEq] at taken
      obtain ⟨-, rfl⟩ := taken
      exact kept
  | enterFrame w sf | schedule w sf ff | setPedigree w pedigree | publish w | suspend w | wake w e wake
  | mugEmpty w victim e | jump w | goOn w =>
      simp only [poolStep, Option.ite_none_right_eq_some, Option.some.injEq] at taken
      obtain ⟨-, rfl⟩ := taken
      exact kept

/-- The deques have a place and a waker in every reachable state. -/
theorem PoolInv.of_reachable (reachable : (poolMachine ω δ φ ψ π).Reachable s) :
    ∃ (place : δ → Place ω) (waker : δ → Waker ω), PoolInv s place waker :=
  reachable.invariant (fun _ => PoolInv.of_start) (fun _ _ _ _ ⟨_, _, inv⟩ taken => inv.of_step taken)

/-- In every reachable state every live deque is active on one worker, in one slot of one pool, or in no
    pool and held by the one worker that moves it or by its one waker. No deque is run by two workers, and
    no step drops a deque that was made resumable before it is active. -/
theorem deque_has_one_place (reachable : (poolMachine ω δ φ ψ π).Reachable s) :
    (∀ d, s.live d = true → s.InOneSituation d) ∧
      (∀ w, s.live (s.activeDeque w) = true ∧ ∀ w', s.activeDeque w' = s.activeDeque w → w' = w) ∧
      ∀ label s' d, poolStep s label = some s' → s.live d = true → s.resumable d = true → s'.Kept d := by
  obtain ⟨place, waker, inv⟩ := PoolInv.of_reachable reachable
  refine ⟨fun d => inv.inOneSituation, fun w => ?_, fun label s' d taken => inv.kept taken⟩
  have active := (inv.worker w).active
  have fits := inv.deque (s.activeDeque w)
  rw [active] at fits
  obtain ⟨-, w₁, -, unique, -⟩ := inv.activeOnOne active
  exact ⟨fits.1, fun w' same => (unique w' same).trans (unique w rfl).symm⟩

/-- One worker runs a strand on deque `true`; the other deque is not allocated. -/
def oneStrand : DequePoolState Unit Bool Unit Unit Unit where
  activeDeque := fun _ => true
  pointers := fun _ => .to true
  pedigree := fun _ => ⟨0, none⟩
  currentStackFrame := fun _ => some ()
  lock := fun _ => none
  pools := fun _ _ => []
  pc := fun _ => .running
  live := id
  self := fun _ => activeDequeIndex
  worker := fun _ => some ()
  resumable := fun _ => false
  fiber := fun _ => none
  savedPed := fun _ => ⟨0, none⟩
  callStack := fun _ => none
  frameFf := fun _ => none
  calls := fun d => if d then [⟨(), false⟩] else []
  fiberResumable := fun _ => false
  handedOut := fun _ => false
  stackOf := fun _ => some true
  frameWorker := fun _ => some ()
  suspension := fun _ => none

theorem oneStrand_start : (poolMachine Unit Bool Unit Unit Unit).start oneStrand := by
  refine ⟨fun _ => ⟨rfl, rfl, fun _ => rfl, rfl, rfl, rfl, .inr ⟨rfl, (), rfl, rfl⟩⟩,
    fun d => ⟨rfl, rfl, rfl, rfl, rfl, rfl, fun isLive => ⟨(), by simpa [oneStrand] using isLive.symm⟩, ?_⟩,
    ?_⟩
  · intro dead
    cases d with
    | false => rfl
    | true => cases dead
  · intro sf d
    cases d <;> simp [oneStrand]

/-- The strand suspends itself with a new deque. -/
def suspendStrand : List (PoolLabel Unit Bool Unit Unit Unit) :=
  [.publish (), .suspend (), .checkPool (), .switchDeque () false none, .place () (), .switchFiber ()]

theorem deque_has_one_place_suspended :
    ((poolMachine Unit Bool Unit Unit Unit).after oneStrand suspendStrand).self true = invalidDequeIndex ∧
      ((poolMachine Unit Bool Unit Unit Unit).after oneStrand suspendStrand).InOneSituation true :=
  ⟨rfl, (deque_has_one_place (.after (.start oneStrand_start) suspendStrand)).1 true rfl⟩

end CilkL
