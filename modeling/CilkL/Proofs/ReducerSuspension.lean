/-
Module: CilkL.Proofs.ReducerSuspension
Layer: Proofs
Purpose: The reducer views of a suspended strand stay in the map of the worker that it left. As long as that
  worker starts no other frame and takes up no other strand, and the strand is taken up there, no other strand
  gets at them and it has them again; the other steps leave a strand with views of another one.
Imports: CilkL.Proofs.DequeContext, CilkL.Runtime.ReducerSuspension
Trusted boundary: none (fully proved)
Main exports: PoolPc.runs, StrandsStay, SuspendedInv, ViewInv, ReducerInv, ViewsAllowed, ViewState.ViewsKept,
  ViewState.OwnViews, reducer_views_kept
Open obligations: none
-/
import CilkL.Proofs.DequeContext
import CilkL.Runtime.ReducerSuspension

namespace CilkL

variable {ω δ φ ψ π ρ V : Type}

/-! ### The steps of the deques -/

/-- The worker runs user code of its strand, or a function of the runtime that the strand called. -/
@[simp, grind] def PoolPc.runs {ω δ : Type} : PoolPc ω δ → Bool
  | .running | .published | .marked _ _ | .adding _ _ false | .mugging _ _ (.resume _) => true
  | .waking _ wake | .sawWorker _ wake _ => wake ≠ .makeResumable true
  | .sched | .choosing | .chosen _ | .placing _ | .leaving _ | .spinning _ | .mugging _ _ .suspend
  | .mugging _ _ .jump | .mugging _ _ .empty | .adding _ _ true | .jumping | .resumed => false

theorem PoolPc.phase_of_runs {pc : PoolPc ω δ} (runs : pc.runs = true) :
    pc.saves = false ∧ pc.restores = false := by
  cases pc with
  | mugging d victim caller => cases caller <;> simp_all
  | _ => simp_all

theorem PoolPc.phase_of_saves {pc : PoolPc ω δ} (saves : pc.saves = true) :
    pc.runs = false ∧ pc.restores = false := by
  cases pc with
  | mugging d victim caller => cases caller <;> simp_all
  | _ => simp_all

/-- What a program counter says of the worker's strand. -/
structure SamePhase (pc pc' : PoolPc ω δ) : Prop where
  saves : pc'.saves = pc.saves
  restores : pc'.restores = pc.restores
  awaits : pc'.awaits = pc.awaits
  jumps : pc'.jumps = pc.jumps
  runs : pc'.runs = pc.runs

theorem SamePhase.refl (pc : PoolPc ω δ) : SamePhase pc pc := ⟨rfl, rfl, rfl, rfl, rfl⟩

/-- A step that moves no strand. -/
structure StrandsStay (s s' : DequePoolState ω δ φ ψ π) : Prop where
  activeDeque : s'.activeDeque = s.activeDeque
  live : s'.live = s.live
  fiber : s'.fiber = s.fiber
  phase : ∀ w, SamePhase (s.pc w) (s'.pc w)

/-- A label of a step that moves a strand. -/
def PoolLabel.moves : PoolLabel ω δ φ ψ π → Bool
  | .finish _ | .schedule _ _ _ | .suspend _ | .switchDeque _ _ _ | .switchFiber _ | .resumeDestroy _
  | .resumeSuspend _ | .jumpSwitch _ | .goOn _ => true
  | _ => false

section Quiet

variable [DecidableEq ω] [DecidableEq δ] [DecidableEq φ] {s s' : DequePoolState ω δ φ ψ π}

omit [DecidableEq δ] [DecidableEq φ] in
/-- One worker goes on in the same phase. -/
theorem StrandsStay.of_pc {w : ω} (pc : PoolPc ω δ) (phase : SamePhase (s.pc w) pc)
    (activeDeque : s'.activeDeque = s.activeDeque) (live : s'.live = s.live) (fiber : s'.fiber = s.fiber)
    (isPc : s'.pc = setAt s.pc w pc) : StrandsStay s s' where
  activeDeque := activeDeque
  live := live
  fiber := fiber
  phase w' := by
    rw [isPc]
    by_cases same : w' = w
    · subst same
      rwa [setAt_self]
    · rw [setAt_other same]
      exact .refl _

omit [DecidableEq ω] [DecidableEq δ] [DecidableEq φ] in
/-- No worker goes on. -/
theorem StrandsStay.of_samePc (activeDeque : s'.activeDeque = s.activeDeque) (live : s'.live = s.live)
    (fiber : s'.fiber = s.fiber) (samePc : s'.pc = s.pc) : StrandsStay s s' where
  activeDeque := activeDeque
  live := live
  fiber := fiber
  phase w := by
    rw [samePc]
    exact .refl _

omit [DecidableEq ω] in
theorem StrandsStay.of_detachForSteal {d : δ} {child : ψ} (taken : s.detachForSteal d child = some s') :
    StrandsStay s s' := by
  simp only [DequePoolState.detachForSteal] at taken
  split at taken <;> cases taken
  exact .of_samePc rfl rfl rfl rfl

/-- The other steps leave all strands where they are. -/
theorem StrandsStay.of_step {label : PoolLabel ω δ φ ψ π} (stays : label.moves = false)
    (taken : poolStep s label = some s') : StrandsStay s s' := by
  cases label with
  | finish w | schedule w sf ff | suspend w | switchDeque w d stolen | switchFiber w | resumeDestroy w
  | resumeSuspend w | jumpSwitch w | goOn w => cases stays
  | enterFrame w sf | setPedigree w pedigree =>
      simp only [poolStep, Option.ite_none_right_eq_some, Option.some.injEq] at taken
      obtain ⟨-, rfl⟩ := taken
      exact .of_samePc rfl rfl rfl rfl
  | detach w | leaveFrame w =>
      simp only [poolStep] at taken
      split at taken <;> cases taken
      exact .of_samePc rfl rfl rfl rfl
  | steal w victim d child =>
      simp only [poolStep, Option.ite_none_right_eq_some] at taken
      exact .of_detachForSteal taken.2
  | publish w =>
      simp only [poolStep, Option.ite_none_right_eq_some, Option.some.injEq] at taken
      obtain ⟨isRunning, rfl⟩ := taken
      refine .of_pc (w := w) .published ?_ rfl rfl rfl rfl
      rw [isRunning]
      exact ⟨rfl, rfl, rfl, rfl, rfl⟩
  | jump w =>
      simp only [poolStep, Option.ite_none_right_eq_some, Option.some.injEq] at taken
      obtain ⟨isJumping, rfl⟩ := taken
      refine .of_pc (w := w) .resumed ?_ rfl rfl rfl rfl
      rw [isJumping]
      exact ⟨rfl, rfl, rfl, rfl, rfl⟩
  | mugEmpty w victim d =>
      simp only [poolStep, Option.ite_none_right_eq_some, Option.some.injEq] at taken
      obtain ⟨⟨isSched, -⟩, rfl⟩ := taken
      refine .of_pc (w := w) (.mugging d victim .empty) ?_ rfl rfl rfl rfl
      rw [isSched]
      exact ⟨rfl, rfl, rfl, rfl, rfl⟩
  | jumpMug w victim =>
      simp only [poolStep, Option.ite_none_right_eq_some] at taken
      obtain ⟨⟨isSched, -⟩, taken⟩ := taken
      split at taken <;> cases taken
      next d isLast =>
        refine .of_pc (w := w) (.mugging d victim .jump) ?_ rfl rfl rfl rfl
        rw [isSched]
        exact ⟨rfl, rfl, rfl, rfl, rfl⟩
  | checkPool w =>
      simp only [poolStep, Option.ite_none_right_eq_some] at taken
      obtain ⟨⟨isChoosing, -⟩, taken⟩ := taken
      split at taken <;> cases taken
      · next d isLast =>
        refine .of_pc (w := w) (.mugging d w .suspend) ?_ rfl rfl rfl rfl
        rw [isChoosing]
        exact ⟨rfl, rfl, rfl, rfl, rfl⟩
      · refine .of_pc (w := w) (.chosen none) ?_ rfl rfl rfl rfl
        rw [isChoosing]
        exact ⟨rfl, rfl, rfl, rfl, rfl⟩
  | mugStore w =>
      simp only [poolStep] at taken
      split at taken <;> cases taken
      next d victim caller isMugging =>
        refine .of_pc (w := w) _ ?_ rfl rfl rfl rfl
        rw [isMugging]
        cases caller <;> exact ⟨rfl, rfl, rfl, rfl, rfl⟩
  | place w victim =>
      simp only [poolStep] at taken
      split at taken
      case h_2 => cases taken
      next d isPlacing =>
        have phase : SamePhase (s.pc w) (.leaving d) := by
          rw [isPlacing]
          exact ⟨rfl, rfl, rfl, rfl, rfl⟩
        split at taken
        · simp only [Option.ite_none_right_eq_some, Option.some.injEq] at taken
          obtain ⟨-, rfl⟩ := taken
          exact .of_pc _ phase rfl rfl rfl rfl
        · cases taken
          exact .of_pc _ phase rfl rfl rfl rfl
  | wake w d wake =>
      simp only [poolStep, Option.ite_none_right_eq_some, Option.some.injEq] at taken
      obtain ⟨⟨-, caller⟩, rfl⟩ := taken
      refine .of_pc (w := w) (.waking d wake) ?_ rfl rfl rfl rfl
      rw [caller]
      rcases wake with ⟨_ | _⟩ | ⟨_ | _ | _⟩ <;> exact ⟨rfl, rfl, rfl, rfl, rfl⟩
  | readWorker w =>
      simp only [poolStep] at taken
      split at taken
      case h_2 => cases taken
      next d wake isWaking =>
        simp only [Option.ite_none_right_eq_some, Option.some.injEq] at taken
        obtain ⟨-, rfl⟩ := taken
        refine .of_pc (w := w) _ ?_ rfl rfl rfl rfl
        rw [isWaking]
        exact ⟨rfl, rfl, rfl, rfl, rfl⟩
  | lockWorker w =>
      simp only [poolStep] at taken
      split at taken
      case h_2 => cases taken
      next d wake victim saw =>
        simp only [Option.ite_none_right_eq_some] at taken
        obtain ⟨-, taken⟩ := taken
        split at taken
        · split at taken
          · next inLoop =>
            cases taken
            refine .of_pc (w := w) _ ?_ rfl rfl rfl rfl
            rw [saw]
            cases inLoop <;> exact ⟨rfl, rfl, rfl, rfl, rfl⟩
          · next enable =>
            cases taken
            refine .of_pc (w := w) (.mugging d victim (.resume enable)) ?_ rfl rfl rfl rfl
            rw [saw]
            exact ⟨rfl, rfl, rfl, rfl, rfl⟩
        · cases taken
          refine .of_pc (w := w) _ ?_ rfl rfl rfl rfl
          rw [saw]
          exact ⟨rfl, rfl, rfl, rfl, rfl⟩
  | makeFree w victim =>
      simp only [poolStep] at taken
      split at taken <;> cases taken
      next d inLoop saw =>
        refine .of_pc (w := w) (.adding d victim inLoop) ?_ rfl rfl rfl rfl
        rw [saw]
        cases inLoop <;> exact ⟨rfl, rfl, rfl, rfl, rfl⟩
  | addFree w =>
      simp only [poolStep] at taken
      split at taken
      case h_2 => cases taken
      next d victim inLoop isAdding =>
        simp only [Option.ite_none_right_eq_some, Option.some.injEq] at taken
        obtain ⟨-, rfl⟩ := taken
        refine .of_pc (w := w) _ ?_ rfl rfl rfl rfl
        rw [isAdding]
        cases inLoop <;> exact ⟨rfl, rfl, rfl, rfl, rfl⟩
  | mark w =>
      simp only [poolStep] at taken
      split at taken <;> cases taken
      next d enable saw =>
        refine .of_pc (w := w) (.marked d enable) ?_ rfl rfl rfl rfl
        rw [saw]
        exact ⟨rfl, rfl, rfl, rfl, rfl⟩

end Quiet

/-! ### The suspended strands -/

/-- Where the records of suspended strands are. -/
structure SuspendedInv {α : Type} (s : DequePoolState ω δ φ ψ π) (left : δ → Option α) : Prop where
  working : ∀ w, (s.pc w).saves = false → (s.pc w).restores = false → left (s.activeDeque w) = none
  saving : ∀ w, (s.pc w).saves = true → left (s.activeDeque w) ≠ none
  awaiting : ∀ w, (s.pc w).awaits = true →
    (∃ v, s.fiber (s.activeDeque w) = some (.scheduling v)) ∧ left (s.activeDeque w) = none ∨
      s.fiber (s.activeDeque w) = some .strand ∧ left (s.activeDeque w) ≠ none
  jumping : ∀ w, (s.pc w).jumps = true → left (s.activeDeque w) ≠ none
  inactive : ∀ d, s.live d = true → (∀ w, s.activeDeque w ≠ d) → s.fiber d = some .strand ∧ left d ≠ none
  live : ∀ d, left d ≠ none → s.live d = true

section Suspended

variable {α : Type} [DecidableEq ω] [DecidableEq δ] [DecidableEq φ] {s s' : DequePoolState ω δ φ ψ π}
  {left : δ → Option α} {place : δ → Place ω} {waker : δ → Waker ω}

omit [DecidableEq ω] [DecidableEq δ] [DecidableEq φ] in
/-- A step that moves no strand. -/
theorem SuspendedInv.congr (inv : SuspendedInv s left) (same : StrandsStay s s') : SuspendedInv s' left where
  working w notSaves notRestores := by
    rw [same.activeDeque]
    exact inv.working w ((same.phase w).saves.symm.trans notSaves)
      ((same.phase w).restores.symm.trans notRestores)
  saving w saves := by
    rw [same.activeDeque]
    exact inv.saving w ((same.phase w).saves.symm.trans saves)
  awaiting w awaits := by
    rw [same.activeDeque, same.fiber]
    exact inv.awaiting w ((same.phase w).awaits.symm.trans awaits)
  jumping w jumps := by
    rw [same.activeDeque]
    exact inv.jumping w ((same.phase w).jumps.symm.trans jumps)
  inactive d isLive isInactive := by
    rw [same.live] at isLive
    rw [same.activeDeque] at isInactive
    rw [same.fiber]
    exact inv.inactive d isLive isInactive
  live d isLeft := by
    rw [same.live]
    exact inv.live d isLeft

omit [DecidableEq δ] [DecidableEq φ] in
/-- A worker starts or ends a strand that was not suspended. -/
theorem SuspendedInv.of_pc (inv : SuspendedInv s left) {w : ω} (pc : PoolPc ω δ)
    (notSaved : (s.pc w).saves = false) (notRestored : (s.pc w).restores = false)
    (notSaves : pc.saves = false) (notRestores : pc.restores = false)
    (activeDeque : s'.activeDeque = s.activeDeque) (live : s'.live = s.live) (fiber : s'.fiber = s.fiber)
    (isPc : s'.pc = setAt s.pc w pc) : SuspendedInv s' left := by
  have notAwaits : pc.awaits = false := by cases pc <;> simp_all
  have notJumps : pc.jumps = false := by cases pc <;> simp_all
  have free := inv.working w notSaved notRestored
  constructor
  · intro w'
    rw [activeDeque, isPc]
    have := inv.working w'
    grind -linarith [setAt]
  · intro w'
    rw [activeDeque, isPc]
    have := inv.saving w'
    grind -linarith [setAt]
  · intro w'
    rw [activeDeque, fiber, isPc]
    have := inv.awaiting w'
    grind -linarith [setAt]
  · intro w'
    rw [activeDeque, isPc]
    have := inv.jumping w'
    grind -linarith [setAt]
  · rw [activeDeque, live, fiber]
    exact inv.inactive
  · rw [live]
    exact inv.live

omit [DecidableEq φ] in
/-- A strand is saved in its deque. -/
theorem SuspendedInv.of_save (inv : SuspendedInv s left) (inPool : PoolInv s place waker) {w : ω}
    (pc : PoolPc ω δ) (record : α) (saves : pc.saves = true)
    (activeDeque : s'.activeDeque = s.activeDeque) (live : s'.live = s.live) (fiber : s'.fiber = s.fiber)
    (isPc : s'.pc = setAt s.pc w pc) : SuspendedInv s' (setAt left (s.activeDeque w) (some record)) := by
  have others : pc.restores = false ∧ pc.awaits = false ∧ pc.jumps = false := by cases pc <;> simp_all
  have isLive := inPool.live_activeDeque w
  have injective : ∀ w', s.activeDeque w' = s.activeDeque w → w' = w := fun w' same =>
    inPool.activeDeque_injective same
  constructor
  · intro w'
    rw [activeDeque, isPc]
    have := inv.working w'
    have := injective w'
    grind -linarith [setAt]
  · intro w'
    rw [activeDeque, isPc]
    have := inv.saving w'
    grind -linarith [setAt]
  · intro w'
    rw [activeDeque, fiber, isPc]
    have := inv.awaiting w'
    have := injective w'
    grind -linarith [setAt]
  · intro w'
    rw [activeDeque, isPc]
    have := inv.jumping w'
    grind -linarith [setAt]
  · intro d isLive' isInactive
    have other : d ≠ s.activeDeque w := by
      rw [activeDeque] at isInactive
      exact (isInactive w).symm
    rw [setAt_other other, fiber]
    rw [live] at isLive'
    rw [activeDeque] at isInactive
    exact inv.inactive d isLive' isInactive
  · intro d isLeft
    have := inv.live d
    grind -linarith [setAt]

/-- A worker that saved its strand switches to a deque that it took over. -/
theorem SuspendedInv.of_switchOver (inv : SuspendedInv s left) (inPool : PoolInv s place waker) {w : ω}
    {d : δ} (chosen : s.pc w = .chosen (some d)) :
    SuspendedInv ({ s with resumable := setAt s.resumable d false }.switchTo w d) left := by
  obtain ⟨isLive, notActive⟩ := inPool.held (w := w) (d := d) (.inl (by simp [chosen]))
  obtain ⟨fiber, isLeft⟩ := inv.inactive d isLive notActive
  have saving := inv.saving w (by simp [chosen])
  have injective : ∀ w', s.activeDeque w' = s.activeDeque w → w' = w := fun w' same =>
    inPool.activeDeque_injective same
  simp only [DequePoolState.switchTo, DequePoolState.dequeSwitch]
  constructor
  · intro w'
    have := inv.working w'
    grind -linarith [setAt]
  · intro w'
    have := inv.saving w'
    grind -linarith [setAt]
  · intro w'
    have := inv.awaiting w'
    have := injective w'
    have := notActive w'
    grind -linarith [setAt]
  · intro w'
    have := inv.jumping w'
    grind -linarith [setAt]
  · intro e isLive' inactive
    by_cases here : e = s.activeDeque w
    · subst here
      exact ⟨setAt_self .., saving⟩
    · simp only [setAt_other here]
      exact inv.inactive e isLive' (not_active_of_switch inactive here).2
  · exact inv.live

/-- It switches to a new deque. -/
theorem SuspendedInv.of_switchNew (inv : SuspendedInv s left) (inPool : PoolInv s place waker) {w : ω} {d : δ}
    (chosen : s.pc w = .chosen none) (free : s.live d = false) :
    SuspendedInv ((s.dequeInit w d).switchTo w d) left := by
  have notLeft : left d = none := by
    by_contra isLeft
    exact absurd (free.symm.trans (inv.live d isLeft)) (by decide)
  have saving := inv.saving w (by simp [chosen])
  have live_w := inPool.live_activeDeque
  have injective : ∀ w', s.activeDeque w' = s.activeDeque w → w' = w := fun w' same =>
    inPool.activeDeque_injective same
  simp only [DequePoolState.switchTo, DequePoolState.dequeSwitch, DequePoolState.dequeInit]
  constructor
  · intro w'
    have := inv.working w'
    grind -linarith [setAt]
  · intro w'
    have := inv.saving w'
    grind -linarith [setAt]
  · intro w'
    have := inv.awaiting w'
    have := injective w'
    have := live_w w'
    have := live_w w
    grind -linarith [setAt]
  · intro w'
    have := inv.jumping w'
    grind -linarith [setAt]
  · intro e isLive' inactive
    by_cases here : e = s.activeDeque w
    · subst here
      exact ⟨setAt_self .., saving⟩
    · obtain ⟨notNew, notActive⟩ := not_active_of_switch inactive here
      simp only [setAt_other here, setAt_other notNew] at isLive' ⊢
      exact inv.inactive e isLive' notActive
  · intro e isLeft
    have := inv.live e
    grind -linarith [setAt]

omit [DecidableEq φ] in
/-- It switches fibers, to that of the deque. -/
theorem SuspendedInv.of_switchFiber (inv : SuspendedInv s left) (inPool : PoolInv s place waker) {w : ω}
    {old : δ} (leaving : s.pc w = .leaving old) {pc : PoolPc ω δ} {fiberResumable : δ → Bool}
    (next : (∃ v, s.fiber (s.activeDeque w) = some (.scheduling v)) ∧ pc = .sched ∨
      s.fiber (s.activeDeque w) = some .strand ∧ pc = .resumed) :
    SuspendedInv { s.setPc w pc with
      fiber := setAt s.fiber (s.activeDeque w) none
      fiberResumable := fiberResumable } left := by
  have injective : ∀ w', s.activeDeque w' = s.activeDeque w → w' = w := fun w' same =>
    inPool.activeDeque_injective same
  have known : pc = .sched ∧ left (s.activeDeque w) = none ∨ pc = .resumed ∧ left (s.activeDeque w) ≠ none := by
    rcases inv.awaiting w (by simp [leaving]) with ⟨⟨v, isNew⟩, free⟩ | ⟨strand, isLeft⟩
    · refine .inl ⟨?_, free⟩
      rcases next with ⟨-, isSched⟩ | ⟨strand, -⟩
      · exact isSched
      · cases isNew.symm.trans strand
    · refine .inr ⟨?_, isLeft⟩
      rcases next with ⟨⟨v, isNew⟩, -⟩ | ⟨-, isResumed⟩
      · cases isNew.symm.trans strand
      · exact isResumed
  constructor
  · intro w'
    have := inv.working w'
    rcases known with ⟨rfl, free⟩ | ⟨rfl, isLeft⟩ <;> grind -linarith [setAt]
  · intro w'
    have := inv.saving w'
    rcases known with ⟨rfl, free⟩ | ⟨rfl, isLeft⟩ <;> grind -linarith [setAt]
  · intro w'
    have := inv.awaiting w'
    have := injective w'
    rcases known with ⟨rfl, free⟩ | ⟨rfl, isLeft⟩ <;> grind -linarith [setAt]
  · intro w'
    have := inv.jumping w'
    rcases known with ⟨rfl, free⟩ | ⟨rfl, isLeft⟩ <;> grind -linarith [setAt]
  · intro e isLive inactive
    simp only [setAt_other (inactive w).symm]
    exact inv.inactive e isLive inactive
  · exact inv.live

/-- A worker without a saved strand destroys its deque for one that it holds. -/
theorem SuspendedInv.of_switchAndDestroy (inv : SuspendedInv s left) (inPool : PoolInv s place waker) {w : ω}
    {d : δ} {fiber : δ → Option (DequeFiber ω)} (holds : (s.pc w).moves = some d ∨ (s.pc w).claims = some d)
    (notSaved : (s.pc w).saves = false) (notRestored : (s.pc w).restores = false)
    (sameFiber : ∀ e, e ≠ d → fiber e = s.fiber e) :
    SuspendedInv { s.switchAndDestroy w d with fiber := fiber } left := by
  obtain ⟨isLive, notActive⟩ := inPool.held holds
  obtain ⟨-, isLeft⟩ := inv.inactive d isLive notActive
  have free := inv.working w notSaved notRestored
  have injective : ∀ w', s.activeDeque w' = s.activeDeque w → w' = w := fun w' same =>
    inPool.activeDeque_injective same
  simp only [DequePoolState.switchAndDestroy, DequePoolState.dequeSwitch, DequePoolState.dequeDestroy]
  constructor
  · intro w'
    have := inv.working w'
    grind -linarith [setAt]
  · intro w'
    have := inv.saving w'
    grind -linarith [setAt]
  · intro w'
    have := inv.awaiting w'
    have := notActive w'
    have := sameFiber (s.activeDeque w')
    grind -linarith [setAt]
  · intro w'
    have := inv.jumping w'
    grind -linarith [setAt]
  · intro e isLive' inactive
    by_cases here : e = s.activeDeque w
    · subst here
      simp at isLive'
    · obtain ⟨notNew, notActive'⟩ := not_active_of_switch inactive here
      simp only [setAt_other here] at isLive'
      obtain ⟨onStrand, isLeft'⟩ := inv.inactive e isLive' notActive'
      exact ⟨(sameFiber e notNew).trans onStrand, isLeft'⟩
  · intro e isLeft'
    have := inv.live e isLeft'
    grind -linarith [setAt]

omit [DecidableEq φ] in
/-- A strand goes on. -/
theorem SuspendedInv.of_goOn (inv : SuspendedInv s left) (inPool : PoolInv s place waker) {w : ω}
    {suspension : δ → Option (Suspension φ ψ π)} :
    SuspendedInv { s.setPc w .running with suspension := suspension }
      (setAt left (s.activeDeque w) none) := by
  have injective : ∀ w', s.activeDeque w' = s.activeDeque w → w' = w := fun w' same =>
    inPool.activeDeque_injective same
  constructor
  · intro w'
    have := inv.working w'
    grind -linarith [setAt]
  · intro w'
    have := inv.saving w'
    have := injective w'
    grind -linarith [setAt]
  · intro w'
    have := inv.awaiting w'
    have := injective w'
    grind -linarith [setAt]
  · intro w'
    have := inv.jumping w'
    have := injective w'
    grind -linarith [setAt]
  · intro e isLive inactive
    simp only [setAt_other (inactive w).symm]
    exact inv.inactive e isLive inactive
  · intro e isLeft
    have := inv.live e
    grind -linarith [setAt]

end Suspended

/-! ### The maps -/

/-- No suspended strand left the map in its worker. -/
def ViewState.Free (s : ViewState ω δ φ ψ π ρ V) (r : ρ) : Prop :=
  ∀ d record, s.left d = some record → record.map ≠ some r

/-- Each map is in one place; a worker that does not run has a map only where a suspended strand left it, and
has it as that strand left it. -/
structure ViewInv (s : ViewState ω δ φ ψ π ρ V) : Prop where
  maps : ∀ w w' r, s.reducerMap w = some r → s.reducerMap w' = some r → w = w'
  slots : ∀ i j r, s.slot i = some r → s.slot j = some r → i = j
  apart : ∀ w i r, s.reducerMap w = some r → s.slot i ≠ some r
  usedMaps : ∀ w r, s.reducerMap w = some r → s.used r = true
  usedSlots : ∀ i r, s.slot i = some r → s.used r = true
  idle : ∀ w r, s.reducerMap w = some r → (s.deques.pc w).runs = false →
    ∃ d record, s.left d = some record ∧ record.worker = w ∧ record.map = some r
  left : ∀ d record r, s.left d = some record → record.map = some r →
    s.reducerMap record.worker = some r ∧ (s.deques.pc record.worker).runs = false
  views : ∀ d record, s.left d = some record → record.views = record.map.map s.views
  unique : ∀ d d' record record' r, s.left d = some record → s.left d' = some record' →
    record.map = some r → record'.map = some r → d = d'
  untouched : ∀ d, s.touched d = false
  own : ∀ w record, (s.deques.pc w).restores = true → s.left (s.deques.activeDeque w) = some record →
    s.reducerMap w = record.map

variable {s : ViewState ω δ φ ψ π ρ V} {deques : DequePoolState ω δ φ ψ π}

/-- The map of a strand that runs was left by no suspended one. -/
theorem ViewInv.free_of_map (inv : ViewInv s) {w : ω} {r : ρ} (runs : (s.deques.pc w).runs = true)
    (isMap : s.reducerMap w = some r) : s.Free r := by
  intro d record isLeft leftMap
  obtain ⟨stays, idle⟩ := inv.left d record r isLeft leftMap
  have same := inv.maps _ _ r stays isMap
  rw [same, runs] at idle
  cases idle

/-- So was one in a full frame. -/
theorem ViewInv.free_of_slot (inv : ViewInv s) {i : MapSlot ψ} {r : ρ} (isSlot : s.slot i = some r) :
    s.Free r := by
  intro d record isLeft leftMap
  exact inv.apart _ i r (inv.left d record r isLeft leftMap).1 isSlot

/-- A step of the deques in which no strand starts, ends, leaves or is taken up. -/
theorem ViewInv.moveDeques (inv : ViewInv s) (activeDeque : deques.activeDeque = s.deques.activeDeque)
    (runs : ∀ w, (deques.pc w).runs = (s.deques.pc w).runs)
    (restores : ∀ w, (deques.pc w).restores = true → (s.deques.pc w).restores = true) :
    ViewInv { s with deques := deques } where
  maps := inv.maps
  slots := inv.slots
  apart := inv.apart
  usedMaps := inv.usedMaps
  usedSlots := inv.usedSlots
  idle w r isMap notRuns := inv.idle w r isMap ((runs w).symm.trans notRuns)
  left d record r isLeft leftMap := by
    obtain ⟨stays, notRuns⟩ := inv.left d record r isLeft leftMap
    exact ⟨stays, (runs _).trans notRuns⟩
  views := inv.views
  unique := inv.unique
  untouched := inv.untouched
  own w record isRestored isLeft := by
    simp only [activeDeque] at isLeft
    exact inv.own w record (restores w isRestored) isLeft

section Maps

variable [DecidableEq δ] [DecidableEq ψ] [DecidableEq ρ]

omit [DecidableEq δ] [DecidableEq ψ] in
/-- A map that no suspended strand left is touched without harm. -/
theorem ViewState.touch_eq {r : ρ} (free : s.Free r) : s.touch r = s := by
  have same : (s.touch r).touched = s.touched := by
    funext d
    simp only [ViewState.touch]
    cases isLeft : s.left d with
    | none => rfl
    | some record => simp [free d record isLeft]
  exact congrArg (fun touched => ({ s with touched := touched } : ViewState ω δ φ ψ π ρ V)) same

omit [DecidableEq δ] [DecidableEq ψ] in
/-- A merge of maps that no suspended strand left. -/
theorem ViewState.mergeReducerMaps_eq (reducers : ReducerViews V) (one two : Option ρ)
    (freeOne : ∀ r, one = some r → s.Free r) (freeTwo : ∀ r, two = some r → s.Free r) :
    ∃ views map, s.mergeReducerMaps reducers one two = ({ s with views := views }, map) ∧
      (map = one ∨ map = two) ∧ ∀ r, ¬s.Free r → views r = s.views r := by
  cases one with
  | none => exact ⟨s.views, two, rfl, .inr rfl, fun _ _ => rfl⟩
  | some left =>
    cases two with
    | none => exact ⟨s.views, some left, rfl, .inl rfl, fun _ _ => rfl⟩
    | some right =>
      unfold ViewState.mergeReducerMaps
      simp only [ViewState.touch_eq (freeOne left rfl), ViewState.touch_eq (freeTwo right rfl)]
      refine ⟨_, _, rfl, ?_, fun r notFree => ?_⟩
      · split
        · exact .inl rfl
        · exact .inr rfl
      · refine setAt_other ?_ _ _
        rintro rfl
        split at notFree
        · exact notFree (freeOne _ rfl)
        · exact notFree (freeTwo _ rfl)

omit [DecidableEq δ] [DecidableEq ψ] [DecidableEq ρ] in
/-- The map of a strand that runs is taken out of its worker. -/
theorem ViewInv.takeMap [DecidableEq ω] (inv : ViewInv s) {w : ω} (runs : (s.deques.pc w).runs = true) :
    ViewInv { s with reducerMap := setAt s.reducerMap w none } := by
  have elsewhere : ∀ w' r, setAt s.reducerMap w none w' = some r → s.reducerMap w' = some r := by
    intro w' r isMap
    by_cases same : w' = w
    · rw [same, setAt_self] at isMap
      cases isMap
    · rwa [setAt_other same] at isMap
  exact
    { maps := fun w₁ w₂ r isMap isMap' => inv.maps _ _ r (elsewhere w₁ r isMap) (elsewhere w₂ r isMap')
      slots := inv.slots
      apart := fun w' i r isMap => inv.apart w' i r (elsewhere w' r isMap)
      usedMaps := fun w' r isMap => inv.usedMaps w' r (elsewhere w' r isMap)
      usedSlots := inv.usedSlots
      idle := fun w' r isMap notRuns => inv.idle w' r (elsewhere w' r isMap) notRuns
      left := by
        intro d record r isRecord leftMap
        obtain ⟨stays, notRuns⟩ := inv.left d record r isRecord leftMap
        have other : record.worker ≠ w := by
          rintro rfl
          cases runs.symm.trans notRuns
        exact ⟨(setAt_other other _ _).trans stays, notRuns⟩
      views := inv.views
      unique := inv.unique
      untouched := inv.untouched
      own := by
        intro w' record isRestored isRecord
        have other : w' ≠ w := by
          rintro rfl
          cases isPc : s.deques.pc w' <;> simp_all
        exact (setAt_other other _ _).trans (inv.own w' record isRestored isRecord) }

omit [DecidableEq δ] [DecidableEq ψ] [DecidableEq ρ] in
/-- The slots and the views of maps change that no worker has. -/
theorem ViewInv.setSlots (inv : ViewInv s) {slot : MapSlot ψ → Option ρ} {views : ρ → V}
    (sameViews : ∀ r, ¬s.Free r → views r = s.views r)
    (slots : ∀ i j r, slot i = some r → slot j = some r → i = j)
    (apart : ∀ w i r, s.reducerMap w = some r → slot i ≠ some r)
    (used : ∀ i r, slot i = some r → s.used r = true) :
    ViewInv { s with slot := slot, views := views } where
  maps := inv.maps
  slots := slots
  apart := apart
  usedMaps := inv.usedMaps
  usedSlots := used
  idle := inv.idle
  left := inv.left
  views d record isRecord := by
    rw [inv.views d record isRecord]
    cases leftMap : record.map with
    | none => rfl
    | some r =>
      have notFree : ¬s.Free r := fun free => free d record isRecord leftMap
      simp [sameViews r notFree]
  unique := inv.unique
  untouched := inv.untouched
  own := inv.own

omit [DecidableEq δ] [DecidableEq ψ] [DecidableEq ρ] in
/-- The maps are taken out of the worker and put into slots, when the worker's strand ends. -/
theorem ViewInv.deposit [DecidableEq ω] (inv : ViewInv s) {w : ω} (left : MapSlot ψ)
    {slot : MapSlot ψ → Option ρ} {views : ρ → V} (runs : (s.deques.pc w).runs = true)
    (sameViews : ∀ r, ¬s.Free r → views r = s.views r)
    (others : ∀ i r, i ≠ left → slot i = some r → s.slot i = some r)
    (isLeft : ∀ r, slot left = some r → s.reducerMap w = some r ∨ s.slot left = some r ∨
      ∃ j, j ≠ left ∧ s.slot j = some r ∧ slot j = none) :
    ViewInv { s with reducerMap := setAt s.reducerMap w none, slot := slot, views := views } := by
  have origin : ∀ i r, slot i = some r → s.reducerMap w = some r ∨ ∃ j, s.slot j = some r := by
    intro i r isSlot
    by_cases here : i = left
    · subst here
      rcases isLeft r isSlot with isMap | isSlot | ⟨j, -, isSlot, -⟩
      · exact .inl isMap
      · exact .inr ⟨_, isSlot⟩
      · exact .inr ⟨j, isSlot⟩
    · exact .inr ⟨i, others i r here isSlot⟩
  have leftOnly : ∀ j r, j ≠ left → slot left = some r → slot j ≠ some r := by
    intro j r apart isSlot isOther
    have old := others j r apart isOther
    rcases isLeft r isSlot with isMap | isSame | ⟨k, -, isSlot, gone⟩
    · exact inv.apart w j r isMap old
    · exact apart (inv.slots _ _ r old isSame)
    · rw [inv.slots _ _ r isSlot old, isOther] at gone
      cases gone
  refine (inv.takeMap runs).setSlots sameViews ?_ ?_ ?_
  · intro i j r isSlot isSlot'
    by_cases here : i = left
    · subst here
      by_contra apart
      exact leftOnly j r (Ne.symm apart) isSlot isSlot'
    · by_cases there : j = left
      · subst there
        exact absurd isSlot (leftOnly i r here isSlot')
      · exact inv.slots i j r (others i r here isSlot) (others j r there isSlot')
  · intro w' i r isMap isSlot
    have other : w' ≠ w := by
      rintro rfl
      simp at isMap
    replace isMap : s.reducerMap w' = some r := (setAt_other other _ _).symm.trans isMap
    rcases origin i r isSlot with isMap' | ⟨j, isSlot⟩
    · exact other (inv.maps _ _ r isMap isMap')
    · exact inv.apart w' j r isMap isSlot
  · intro i r isSlot
    rcases origin i r isSlot with isMap | ⟨j, isSlot⟩
    · exact inv.usedMaps w r isMap
    · exact inv.usedSlots j r isSlot

omit [DecidableEq δ] in
/-- `execute_reductions_for_sync`. -/
theorem ViewInv.reduceForSync [DecidableEq ω] (inv : ViewInv s) (reducers : ReducerViews V) {w : ω}
    (left : MapSlot ψ) (runs : (s.deques.pc w).runs = true) :
    ViewInv (s.reduceForSync reducers w left) ∧ (s.reduceForSync reducers w left).deques = s.deques ∧
      (s.reduceForSync reducers w left).left = s.left ∧
      (s.reduceForSync reducers w left).reducerMap w = none := by
  obtain ⟨views, map, merged, isMap, same⟩ := s.mergeReducerMaps_eq reducers _ _
    (fun r isSlot => inv.free_of_slot (i := left) isSlot) (fun r isMap => inv.free_of_map runs isMap)
  have eq : s.reduceForSync reducers w left = { s with
      views := views
      slot := setAt s.slot left map
      reducerMap := setAt s.reducerMap w none } := by
    unfold ViewState.reduceForSync
    rw [merged]
  rw [eq]
  refine ⟨inv.deposit left runs same (fun i r apart isSlot => ?_) fun r isSlot => ?_, rfl, rfl,
    setAt_self ..⟩
  · rwa [setAt_other apart] at isSlot
  · rw [setAt_self] at isSlot
    rcases isMap with rfl | rfl
    · exact .inr (.inl isSlot)
    · exact .inl isSlot

omit [DecidableEq δ] in
/-- `execute_reductions_for_spawn_return`. -/
theorem ViewInv.reduceForSpawnReturn [DecidableEq ω] (inv : ViewInv s) (reducers : ReducerViews V) {w : ω}
    {ff : ψ} {left : MapSlot ψ} (apart : left ≠ .right ff) (runs : (s.deques.pc w).runs = true) :
    ViewInv (s.reduceForSpawnReturn reducers w ff left) ∧
      (s.reduceForSpawnReturn reducers w ff left).deques = s.deques ∧
      (s.reduceForSpawnReturn reducers w ff left).left = s.left ∧
      (s.reduceForSpawnReturn reducers w ff left).reducerMap w = none := by
  obtain ⟨views, map, merged, isMap, same⟩ := s.mergeReducerMaps_eq reducers _ _
    (fun r isSlot => inv.free_of_slot (i := left) isSlot) (fun r isMap => inv.free_of_map runs isMap)
  have freeMap : ∀ r, map = some r → s.Free r := by
    rintro r rfl
    rcases isMap with isSlot | isMap
    · exact inv.free_of_slot isSlot.symm
    · exact inv.free_of_map runs isMap.symm
  obtain ⟨views', map', merged', isMap', same'⟩ :=
    ({ s with views := views } : ViewState ω δ φ ψ π ρ V).mergeReducerMaps_eq reducers _ (s.slot (.right ff))
      freeMap (fun r isSlot => inv.free_of_slot isSlot)
  have eq : s.reduceForSpawnReturn reducers w ff left = { s with
      views := views'
      slot := setAt (setAt s.slot (.right ff) none) left map'
      reducerMap := setAt s.reducerMap w none } := by
    unfold ViewState.reduceForSpawnReturn
    rw [merged]
    dsimp only
    rw [merged']
  rw [eq]
  refine ⟨inv.deposit left runs (fun r notFree => (same' r notFree).trans (same r notFree))
    (fun i r other isSlot => ?_) fun r isSlot => ?_, rfl, rfl, setAt_self ..⟩
  · rw [setAt_other other] at isSlot
    by_cases isRight : i = .right ff
    · rw [isRight, setAt_self] at isSlot
      cases isSlot
    · rwa [setAt_other isRight] at isSlot
  · rw [setAt_self] at isSlot
    rcases isMap' with rfl | rfl
    · rcases isMap with rfl | rfl
      · exact .inr (.inl isSlot)
      · exact .inl isSlot
    · refine .inr (.inr ⟨.right ff, apart.symm, isSlot, ?_⟩)
      rw [setAt_other apart.symm, setAt_self]

omit [DecidableEq δ] [DecidableEq ψ] in
/-- The map is destroyed. -/
theorem ViewInv.discardMap [DecidableEq ω] (inv : ViewInv s) {w : ω} (runs : (s.deques.pc w).runs = true) :
    ViewInv (s.discardMap w) ∧ (s.discardMap w).deques = s.deques ∧ (s.discardMap w).left = s.left ∧
      (s.discardMap w).reducerMap w = none := by
  have eq : s.discardMap w = { s with reducerMap := setAt s.reducerMap w none } := by
    unfold ViewState.discardMap
    cases isMap : s.reducerMap w with
    | none => rfl
    | some r =>
      dsimp only
      rw [ViewState.touch_eq (inv.free_of_map runs isMap)]
  rw [eq]
  exact ⟨inv.takeMap runs, rfl, rfl, setAt_self ..⟩

omit [DecidableEq δ] [DecidableEq ψ] [DecidableEq ρ] in
/-- A strand that runs without a map gets one that no worker has. -/
theorem ViewInv.giveMap [DecidableEq ω] (inv : ViewInv s) {w : ω} {r : ρ} {slot : MapSlot ψ → Option ρ}
    {views : ρ → V} {used : ρ → Bool} (runs : (s.deques.pc w).runs = true) (empty : s.reducerMap w = none)
    (nowhere : ∀ w', s.reducerMap w' ≠ some r) (others : ∀ i q, slot i = some q → s.slot i = some q ∧ q ≠ r)
    (sameViews : ∀ q, ¬s.Free q → views q = s.views q) (isUsed : used r = true)
    (stillUsed : ∀ q, s.used q = true → used q = true) :
    ViewInv { s with
      reducerMap := setAt s.reducerMap w (some r)
      slot := slot
      views := views
      used := used } := by
  have owner : ∀ w' q, setAt s.reducerMap w (some r) w' = some q →
      w' = w ∧ q = r ∨ w' ≠ w ∧ q ≠ r ∧ s.reducerMap w' = some q := by
    intro w' q isMap
    by_cases same : w' = w
    · rw [same, setAt_self] at isMap
      exact .inl ⟨same, (Option.some.inj isMap).symm⟩
    · rw [setAt_other same] at isMap
      refine .inr ⟨same, ?_, isMap⟩
      rintro rfl
      exact nowhere w' isMap
  exact
    { maps := by
        intro w₁ w₂ q isMap isMap'
        rcases owner w₁ q isMap with ⟨rfl, rfl⟩ | ⟨-, notNew, isMap⟩
        · rcases owner w₂ q isMap' with ⟨rfl, -⟩ | ⟨-, notNew, -⟩
          · rfl
          · exact absurd rfl notNew
        · rcases owner w₂ q isMap' with ⟨-, isNew⟩ | ⟨-, -, isMap'⟩
          · exact absurd isNew notNew
          · exact inv.maps _ _ q isMap isMap'
      slots := fun i j q isSlot isSlot' => inv.slots i j q (others i q isSlot).1 (others j q isSlot').1
      apart := by
        intro w' i q isMap isSlot
        obtain ⟨isSlot, notNew⟩ := others i q isSlot
        rcases owner w' q isMap with ⟨-, isNew⟩ | ⟨-, -, isMap⟩
        · exact notNew isNew
        · exact inv.apart w' i q isMap isSlot
      usedMaps := by
        intro w' q isMap
        rcases owner w' q isMap with ⟨-, rfl⟩ | ⟨-, -, isMap⟩
        · exact isUsed
        · exact stillUsed q (inv.usedMaps w' q isMap)
      usedSlots := fun i q isSlot => stillUsed q (inv.usedSlots i q (others i q isSlot).1)
      idle := by
        intro w' q isMap notRuns
        rcases owner w' q isMap with ⟨rfl, -⟩ | ⟨-, -, isMap⟩
        · cases runs.symm.trans notRuns
        · exact inv.idle w' q isMap notRuns
      left := by
        intro d record q isRecord leftMap
        obtain ⟨stays, notRuns⟩ := inv.left d record q isRecord leftMap
        have other : record.worker ≠ w := by
          rintro rfl
          cases runs.symm.trans notRuns
        exact ⟨(setAt_other other _ _).trans stays, notRuns⟩
      views := by
        intro d record isRecord
        rw [inv.views d record isRecord]
        cases leftMap : record.map with
        | none => rfl
        | some q =>
          have notFree : ¬s.Free q := fun free => free d record isRecord leftMap
          simp [sameViews q notFree]
      unique := inv.unique
      untouched := inv.untouched
      own := by
        intro w' record isRestored isRecord
        have other : w' ≠ w := by
          rintro rfl
          cases isPc : s.deques.pc w' <;> simp_all
        exact (setAt_other other _ _).trans (inv.own w' record isRestored isRecord) }

omit [DecidableEq δ] [DecidableEq ψ] in
/-- A strand looks up a hyperobject. -/
theorem ViewInv.hyperLookup [DecidableEq ω] {s' : ViewState ω δ φ ψ π ρ V} (inv : ViewInv s)
    (reducers : ReducerViews V) {w : ω} {fresh : ρ} {update : V → V} (runs : (s.deques.pc w).runs = true)
    (taken : s.hyperLookup reducers w fresh update = some s') :
    ViewInv s' ∧ s'.deques = s.deques ∧ s'.left = s.left := by
  unfold ViewState.hyperLookup at taken
  cases isMap : s.reducerMap w with
  | some r =>
    simp only [isMap, ViewState.touch_eq (inv.free_of_map runs isMap), Option.some.injEq] at taken
    subst taken
    refine ⟨inv.setSlots (fun q notFree => ?_) inv.slots inv.apart inv.usedSlots, rfl, rfl⟩
    refine setAt_other ?_ _ _
    rintro rfl
    exact notFree (inv.free_of_map runs isMap)
  | none =>
    simp only [isMap, Option.ite_none_left_eq_some, Option.some.injEq] at taken
    obtain ⟨isFresh, rfl⟩ := taken
    have nowhere : ∀ w', s.reducerMap w' ≠ some fresh := fun w' isMap => isFresh (inv.usedMaps w' fresh isMap)
    refine ⟨inv.giveMap runs isMap nowhere (fun i q isSlot => ⟨isSlot, ?_⟩) (fun q notFree => ?_)
      (setAt_self ..) (fun q isUsed => ?_), rfl, rfl⟩
    · rintro rfl
      exact isFresh (inv.usedSlots i q isSlot)
    · refine setAt_other ?_ _ _
      rintro rfl
      refine notFree fun d record isRecord leftMap => ?_
      exact nowhere _ (inv.left d record q isRecord leftMap).1
    · by_cases same : q = fresh
      · rw [same, setAt_self]
      · rwa [setAt_other same]

omit [DecidableEq δ] [DecidableEq ρ] in
/-- `setup_for_execution_reducers`. -/
theorem ViewInv.setupForExecutionReducers [DecidableEq ω] {s' : ViewState ω δ φ ψ π ρ V} (inv : ViewInv s)
    {w : ω} {ff : ψ} {synched : Bool} (runs : (s.deques.pc w).runs = true)
    (taken : s.setupForExecutionReducers w ff synched = some s') :
    ViewInv s' ∧ s'.deques = s.deques ∧ s'.left = s.left := by
  unfold ViewState.setupForExecutionReducers at taken
  split at taken
  · next r isSlot empty =>
    cases taken
    refine ⟨inv.giveMap runs empty (fun w' isMap => inv.apart w' _ r isMap isSlot) (fun i q isOther => ?_)
      (fun _ _ => rfl) (inv.usedSlots _ r isSlot) (fun _ isUsed => isUsed), rfl, rfl⟩
    have other : i ≠ .children ff := by
      rintro rfl
      rw [setAt_self] at isOther
      cases isOther
    rw [setAt_other other] at isOther
    refine ⟨isOther, ?_⟩
    rintro rfl
    exact other (inv.slots _ _ q isOther isSlot)
  · cases taken
  · cases taken
    exact ⟨inv, rfl, rfl⟩

omit [DecidableEq δ] [DecidableEq ψ] in
theorem ViewState.mergeReducerMaps_deques (reducers : ReducerViews V) (s : ViewState ω δ φ ψ π ρ V)
    (one two : Option ρ) : (s.mergeReducerMaps reducers one two).1.deques = s.deques := by
  cases one <;> cases two <;> rfl

omit [DecidableEq δ] [DecidableEq ψ] in
theorem ViewState.discardMap_deques [DecidableEq ω] (s : ViewState ω δ φ ψ π ρ V) (w : ω) :
    (s.discardMap w).deques = s.deques := by
  unfold ViewState.discardMap
  cases s.reducerMap w <;> rfl

end Maps

section Moves

variable [DecidableEq ω] [DecidableEq δ]

omit [DecidableEq δ] in
/-- A worker without a map starts or ends a strand. -/
theorem ViewInv.of_empty (inv : ViewInv s) {w : ω} (pc : PoolPc ω δ) (empty : s.reducerMap w = none)
    (notRestores : pc.restores = false) (activeDeque : deques.activeDeque = s.deques.activeDeque)
    (isPc : deques.pc = setAt s.deques.pc w pc) : ViewInv { s with deques := deques } where
  maps := inv.maps
  slots := inv.slots
  apart := inv.apart
  usedMaps := inv.usedMaps
  usedSlots := inv.usedSlots
  idle w' r isMap notRuns := by
    have other : w' ≠ w := by
      rintro rfl
      cases empty.symm.trans isMap
    simp only [isPc, setAt_other other] at notRuns
    exact inv.idle w' r isMap notRuns
  left d record r isRecord leftMap := by
    obtain ⟨stays, notRuns⟩ := inv.left d record r isRecord leftMap
    have other : record.worker ≠ w := by
      rintro rfl
      cases empty.symm.trans stays
    simp only [isPc, setAt_other other]
    exact ⟨stays, notRuns⟩
  views := inv.views
  unique := inv.unique
  untouched := inv.untouched
  own w' record isRestored isRecord := by
    have other : w' ≠ w := by
      rintro rfl
      simp only [isPc, setAt_self] at isRestored
      cases notRestores.symm.trans isRestored
    simp only [isPc, setAt_other other] at isRestored
    simp only [activeDeque] at isRecord
    exact inv.own w' record isRestored isRecord

/-- A strand that runs leaves its views in the worker. -/
theorem ViewInv.of_save (inv : ViewInv s) {w : ω} (pc : PoolPc ω δ) (runs : (s.deques.pc w).runs = true)
    (notRuns : pc.runs = false) (notRestores : pc.restores = false)
    (working : s.left (s.deques.activeDeque w) = none)
    (injective : ∀ w', s.deques.activeDeque w' = s.deques.activeDeque w → w' = w)
    (activeDeque : deques.activeDeque = s.deques.activeDeque)
    (isPc : deques.pc = setAt s.deques.pc w pc) :
    ViewInv { s with
      deques := deques
      left := setAt s.left (s.deques.activeDeque w)
        (some { worker := w, map := s.reducerMap w, views := (s.reducerMap w).map s.views })
      touched := setAt s.touched (s.deques.activeDeque w) false } := by
  have known : ∀ d record, setAt s.left (s.deques.activeDeque w)
      (some { worker := w, map := s.reducerMap w, views := (s.reducerMap w).map s.views }) d = some record →
      d = s.deques.activeDeque w ∧
        record = { worker := w, map := s.reducerMap w, views := (s.reducerMap w).map s.views } ∨
      d ≠ s.deques.activeDeque w ∧ s.left d = some record := by
    intro d record isRecord
    by_cases here : d = s.deques.activeDeque w
    · rw [here, setAt_self] at isRecord
      exact .inl ⟨here, (Option.some.inj isRecord).symm⟩
    · rw [setAt_other here] at isRecord
      exact .inr ⟨here, isRecord⟩
  have free := fun r isMap => inv.free_of_map (r := r) runs isMap
  have notSame : ∀ w', s.reducerMap w' ≠ none → (s.deques.pc w').runs = false → w' ≠ w := by
    rintro w' - idle rfl
    cases runs.symm.trans idle
  exact
    { maps := inv.maps
      slots := inv.slots
      apart := inv.apart
      usedMaps := inv.usedMaps
      usedSlots := inv.usedSlots
      idle := by
        intro w' r isMap idle
        by_cases same : w' = w
        · subst same
          exact ⟨s.deques.activeDeque w', _, setAt_self .., rfl, isMap⟩
        · simp only [isPc, setAt_other same] at idle
          obtain ⟨d, record, isRecord, isWorker, leftMap⟩ := inv.idle w' r isMap idle
          have other : d ≠ s.deques.activeDeque w := by
            rintro rfl
            cases working.symm.trans isRecord
          exact ⟨d, record, (setAt_other other _ _).trans isRecord, isWorker, leftMap⟩
      left := by
        intro d record r isRecord leftMap
        rcases known d record isRecord with ⟨-, rfl⟩ | ⟨-, isRecord⟩
        · simp only [isPc, setAt_self]
          exact ⟨leftMap, notRuns⟩
        · obtain ⟨stays, idle⟩ := inv.left d record r isRecord leftMap
          have other := notSame record.worker (by rw [stays]; exact Option.some_ne_none r) idle
          simp only [isPc, setAt_other other]
          exact ⟨stays, idle⟩
      views := by
        intro d record isRecord
        rcases known d record isRecord with ⟨-, rfl⟩ | ⟨-, isRecord⟩
        · rfl
        · exact inv.views d record isRecord
      unique := by
        intro d d' record record' r isRecord isRecord' leftMap leftMap'
        rcases known d record isRecord with ⟨here, rfl⟩ | ⟨-, isRecord⟩
        · rcases known d' record' isRecord' with ⟨there, -⟩ | ⟨-, isRecord'⟩
          · rw [here, there]
          · exact absurd leftMap' (free r leftMap d' record' isRecord')
        · rcases known d' record' isRecord' with ⟨-, rfl⟩ | ⟨-, isRecord'⟩
          · exact absurd leftMap (free r leftMap' d record isRecord)
          · exact inv.unique d d' record record' r isRecord isRecord' leftMap leftMap'
      untouched := by
        intro d
        by_cases here : d = s.deques.activeDeque w
        · rw [here]
          exact setAt_self ..
        · exact (setAt_other here _ _).trans (inv.untouched d)
      own := by
        intro w' record isRestored isRecord
        have other : w' ≠ w := by
          rintro rfl
          simp only [isPc, setAt_self] at isRestored
          cases notRestores.symm.trans isRestored
        simp only [isPc, setAt_other other] at isRestored
        simp only [activeDeque] at isRecord
        rcases known _ record isRecord with ⟨same, -⟩ | ⟨-, isRecord⟩
        · exact absurd (injective w' same) other
        · exact inv.own w' record isRestored isRecord }

omit [DecidableEq δ] in
/-- A worker takes up the strand of another deque, or makes a deque. -/
theorem ViewInv.of_switch (inv : ViewInv s) {w : ω} {d : δ} (pc : PoolPc ω δ) (notRuns : pc.runs = false)
    (idle : (s.deques.pc w).runs = true → s.reducerMap w = none)
    (own : ∀ record, s.left d = some record → s.reducerMap w = record.map)
    (activeDeque : deques.activeDeque = setAt s.deques.activeDeque w d)
    (isPc : deques.pc = setAt s.deques.pc w pc) : ViewInv { s with deques := deques } where
  maps := inv.maps
  slots := inv.slots
  apart := inv.apart
  usedMaps := inv.usedMaps
  usedSlots := inv.usedSlots
  idle w' r isMap idle' := by
    by_cases same : w' = w
    · subst same
      refine inv.idle w' r isMap ((Bool.not_eq_true _).mp fun runs => ?_)
      cases (idle runs).symm.trans isMap
    · simp only [isPc, setAt_other same] at idle'
      exact inv.idle w' r isMap idle'
  left e record r isRecord leftMap := by
    obtain ⟨stays, notRuns'⟩ := inv.left e record r isRecord leftMap
    refine ⟨stays, ?_⟩
    by_cases same : record.worker = w
    · simp only [isPc, same, setAt_self]
      exact notRuns
    · simp only [isPc, setAt_other same]
      exact notRuns'
  views := inv.views
  unique := inv.unique
  untouched := inv.untouched
  own w' record isRestored isRecord := by
    by_cases same : w' = w
    · subst same
      simp only [activeDeque, setAt_self] at isRecord
      exact own record isRecord
    · simp only [isPc, setAt_other same] at isRestored
      simp only [activeDeque, setAt_other same] at isRecord
      exact inv.own w' record isRestored isRecord

omit [DecidableEq δ] in
/-- A worker that switched deques switches fibers. -/
theorem ViewInv.of_fiber (inv : ViewInv s) {w : ω} (pc : PoolPc ω δ)
    (restored : (s.deques.pc w).restores = true) (idle : (s.deques.pc w).runs = false)
    (notRuns : pc.runs = false)
    (activeDeque : deques.activeDeque = s.deques.activeDeque) (isPc : deques.pc = setAt s.deques.pc w pc) :
    ViewInv { s with deques := deques } := by
  refine inv.moveDeques activeDeque (fun w' => ?_) fun w' isRestored => ?_
  · by_cases same : w' = w
    · rw [isPc, same, setAt_self, idle, notRuns]
    · rw [isPc, setAt_other same]
  · by_cases same : w' = w
    · rw [same, restored]
    · rwa [isPc, setAt_other same] at isRestored

/-- A resumed strand goes on. -/
theorem ViewInv.of_goOn (inv : ViewInv s) {w : ω} (isResumed : s.deques.pc w = .resumed)
    (isLeft : s.left (s.deques.activeDeque w) ≠ none)
    (injective : ∀ w', s.deques.activeDeque w' = s.deques.activeDeque w → w' = w)
    (activeDeque : deques.activeDeque = s.deques.activeDeque)
    (isPc : deques.pc = setAt s.deques.pc w .running) :
    ViewInv { s with deques := deques, left := setAt s.left (s.deques.activeDeque w) none } := by
  obtain ⟨mine, isMine⟩ := Option.ne_none_iff_exists'.mp isLeft
  have ownMap := inv.own w mine (by rw [isResumed]; rfl) isMine
  have known : ∀ d record, setAt s.left (s.deques.activeDeque w) none d = some record →
      d ≠ s.deques.activeDeque w ∧ s.left d = some record := by
    intro d record isRecord
    by_cases here : d = s.deques.activeDeque w
    · rw [here, setAt_self] at isRecord
      cases isRecord
    · exact ⟨here, by rwa [setAt_other here] at isRecord⟩
  exact
    { maps := inv.maps
      slots := inv.slots
      apart := inv.apart
      usedMaps := inv.usedMaps
      usedSlots := inv.usedSlots
      idle := by
        intro w' r isMap idle
        have other : w' ≠ w := by
          rintro rfl
          simp only [isPc, setAt_self] at idle
          cases idle
        simp only [isPc, setAt_other other] at idle
        obtain ⟨d, record, isRecord, isWorker, leftMap⟩ := inv.idle w' r isMap idle
        refine ⟨d, record, (setAt_other ?_ _ _).trans isRecord, isWorker, leftMap⟩
        rintro rfl
        obtain rfl : mine = record := Option.some.inj (isMine.symm.trans isRecord)
        exact other (inv.maps _ _ r isMap (ownMap.trans leftMap))
      left := by
        intro d record r isRecord leftMap
        obtain ⟨apart, isOld⟩ := known d record isRecord
        obtain ⟨stays, idle⟩ := inv.left d record r isOld leftMap
        have other : record.worker ≠ w := by
          rintro rfl
          exact apart (inv.unique d _ record mine r isOld isMine leftMap (ownMap.symm.trans stays))
        simp only [isPc, setAt_other other]
        exact ⟨stays, idle⟩
      views := fun d record isRecord => inv.views d record (known d record isRecord).2
      unique := fun d d' record record' r isRecord isRecord' =>
        inv.unique d d' record record' r (known d record isRecord).2 (known d' record' isRecord').2
      untouched := inv.untouched
      own := by
        intro w' record isRestored isRecord
        have other : w' ≠ w := by
          rintro rfl
          simp only [isPc, setAt_self] at isRestored
          cases isRestored
        simp only [isPc, setAt_other other] at isRestored
        simp only [activeDeque] at isRecord
        exact inv.own w' record isRestored (known _ record isRecord).2 }

end Moves

/-! ### Every step -/

/-- The maps and the deques. -/
structure ReducerInv (s : ViewState ω δ φ ψ π ρ V) : Prop where
  pool : ∃ (place : δ → Place ω) (waker : δ → Waker ω), PoolInv s.deques place waker
  suspended : SuspendedInv s.deques s.left
  views : ViewInv s

/-- The worker has the map that the strand on the deque left, where it left it. -/
def ViewState.Takes (s : ViewState ω δ φ ψ π ρ V) (w : ω) (d : δ) : Prop :=
  ∀ record, s.left d = some record →
    record.map = none ∧ s.reducerMap w = none ∨ record.map ≠ none ∧ record.worker = w

/-- A worker with views that a suspended strand left in it starts no other frame and takes up no other strand,
and a strand is taken up with views by the worker that it left, and without by one that has none. -/
def ViewsAllowed (s : ViewState ω δ φ ψ π ρ V) : ViewLabel ω δ φ ψ π ρ V → Prop
  | .schedule w _ _ _ => s.reducerMap w = none
  | .deque (.switchDeque w d _) => s.Takes w d
  | .deque (.jumpSwitch w) => ∀ d, s.deques.pc w = .spinning d → s.Takes w d
  | .deque (.resumeDestroy w) => ∀ d, s.deques.pc w = .marked d .destroy → s.Takes w d
  | _ => True

/-- The strand that is taken up left the map that the worker has. -/
theorem ViewInv.own_of_takes (inv : ViewInv s) {w : ω} {d : δ} (takes : s.Takes w d)
    {record : LeftViews ω ρ V} (isLeft : s.left d = some record) : s.reducerMap w = record.map := by
  rcases takes record isLeft with ⟨noMap, empty⟩ | ⟨isMap, rfl⟩
  · rw [empty, noMap]
  · obtain ⟨r, leftMap⟩ := Option.ne_none_iff_exists'.mp isMap
    rw [leftMap]
    exact (inv.left d record r isLeft leftMap).1

/-- And the other way round. -/
theorem ViewInv.takes_of_own (inv : ViewInv s) {w : ω} {d : δ}
    (own : ∀ record, s.left d = some record → s.reducerMap w = record.map) : s.Takes w d := by
  intro record isLeft
  have isMap := own record isLeft
  cases leftMap : record.map with
  | none => exact .inl ⟨rfl, isMap.trans leftMap⟩
  | some r =>
    refine .inr ⟨by simp, ?_⟩
    exact inv.maps _ _ r (inv.left d record r isLeft leftMap).1 (isMap.trans leftMap)

/-- A strand that runs has nothing that a suspended one left. -/
theorem ViewInv.empty_of_takes (inv : ViewInv s) {w : ω} {d : δ} (runs : (s.deques.pc w).runs = true)
    (takes : s.Takes w d) (isLeft : s.left d ≠ none) : s.reducerMap w = none := by
  obtain ⟨record, isRecord⟩ := Option.ne_none_iff_exists'.mp isLeft
  rcases takes record isRecord with ⟨-, empty⟩ | ⟨isMap, rfl⟩
  · exact empty
  · obtain ⟨r, leftMap⟩ := Option.ne_none_iff_exists'.mp isMap
    cases runs.symm.trans (inv.left d record r isRecord leftMap).2

section Step

variable [DecidableEq ω] [DecidableEq δ] [DecidableEq φ] [DecidableEq ψ] [DecidableEq ρ]

omit [DecidableEq ψ] [DecidableEq ρ] in
/-- The strand of a worker that has no map any more ends. -/
theorem ReducerInv.of_finish (inv : ReducerInv s) {w : ω} (empty : s.reducerMap w = none)
    (taken : poolStep s.deques (.finish w) = some deques) : ReducerInv { s with deques := deques } := by
  obtain ⟨place, waker, inPool⟩ := inv.pool
  obtain ⟨place', waker', inPool'⟩ := inPool.of_step taken
  simp only [poolStep] at taken
  split at taken <;> cases taken
  next sf detached isRunning isStack =>
    refine ⟨⟨place', waker', inPool'⟩, ?_, ?_⟩
    · exact inv.suspended.of_pc (w := w) .sched (by rw [isRunning]; rfl) (by rw [isRunning]; rfl) rfl rfl
        rfl rfl rfl rfl
    · exact inv.views.of_empty .sched empty rfl rfl rfl

omit [DecidableEq ψ] [DecidableEq ρ] in
/-- A worker without a map starts a frame. -/
theorem ReducerInv.of_schedule (inv : ReducerInv s) {w : ω} {sf : φ} {ff : ψ} (empty : s.reducerMap w = none)
    (taken : poolStep s.deques (.schedule w sf ff) = some deques) :
    ReducerInv { s with deques := deques } ∧ (deques.pc w).runs = true := by
  obtain ⟨place, waker, inPool⟩ := inv.pool
  obtain ⟨place', waker', inPool'⟩ := inPool.of_step taken
  simp only [poolStep, Option.ite_none_right_eq_some, Option.some.injEq] at taken
  obtain ⟨⟨isSched, -⟩, rfl⟩ := taken
  refine ⟨⟨⟨place', waker', inPool'⟩, ?_, ?_⟩, ?_⟩
  · exact inv.suspended.of_pc (w := w) .running (by rw [isSched]; rfl) (by rw [isSched]; rfl) rfl rfl
      rfl rfl rfl rfl
  · exact inv.views.of_empty .running empty rfl rfl rfl
  · simp [DequePoolState.enterFrame]

omit [DecidableEq ψ] [DecidableEq ρ] in
theorem ViewState.of_moveDeques {s' : ViewState ω δ φ ψ π ρ V} {label : PoolLabel ω δ φ ψ π}
    (taken : s.moveDeques label = some s') :
    ∃ deques, poolStep s.deques label = some deques ∧ s' = { s.record label with deques := deques } := by
  unfold ViewState.moveDeques at taken
  split at taken
  · next deques isStep =>
    cases taken
    exact ⟨deques, isStep, rfl⟩
  · cases taken

omit [DecidableEq φ] [DecidableEq ψ] [DecidableEq ρ] in
/-- A strand is saved in its deque. -/
theorem ReducerInv.of_save (inv : ReducerInv s) {w : ω} (pc : PoolPc ω δ)
    (pool : ∃ (place : δ → Place ω) (waker : δ → Waker ω), PoolInv deques place waker)
    (runs : (s.deques.pc w).runs = true) (saves : pc.saves = true)
    (activeDeque : deques.activeDeque = s.deques.activeDeque) (live : deques.live = s.deques.live)
    (fiber : deques.fiber = s.deques.fiber) (isPc : deques.pc = setAt s.deques.pc w pc) :
    ReducerInv { s with
      deques := deques
      left := setAt s.left (s.deques.activeDeque w)
        (some { worker := w, map := s.reducerMap w, views := (s.reducerMap w).map s.views })
      touched := setAt s.touched (s.deques.activeDeque w) false } := by
  obtain ⟨place, waker, inPool⟩ := inv.pool
  obtain ⟨notSaved, notRestored⟩ := PoolPc.phase_of_runs runs
  have working := inv.suspended.working w notSaved notRestored
  have phase := PoolPc.phase_of_saves saves
  exact
    { pool := pool
      suspended := inv.suspended.of_save inPool _ _ saves activeDeque live fiber isPc
      views := inv.views.of_save _ runs phase.1 phase.2 working
        (fun w' same => inPool.activeDeque_injective same) activeDeque isPc }

omit [DecidableEq ψ] [DecidableEq ρ] in
/-- A step of the deques. -/
theorem ReducerInv.of_moveDeques {s' : ViewState ω δ φ ψ π ρ V} {label : PoolLabel ω δ φ ψ π}
    (inv : ReducerInv s) (allowed : ViewsAllowed s (.deque label)) (notFinish : ∀ w, label ≠ .finish w)
    (notSchedule : ∀ w sf ff, label ≠ .schedule w sf ff) (taken : s.moveDeques label = some s') :
    ReducerInv s' := by
  obtain ⟨place, waker, inPool⟩ := inv.pool
  obtain ⟨deques, isStep, rfl⟩ := ViewState.of_moveDeques taken
  clear taken
  have pool := inPool.of_step isStep
  by_cases stays : label.moves = false
  · have same := StrandsStay.of_step stays isStep
    have unrecorded : s.record label = s := by
      cases label <;> first | rfl | cases stays
    rw [unrecorded]
    exact
      { pool := pool
        suspended := inv.suspended.congr same
        views := inv.views.moveDeques same.activeDeque (fun w => (same.phase w).runs)
          fun w isRestored => (same.phase w).restores.symm.trans isRestored }
  · cases label with
    | finish w => exact absurd rfl (notFinish w)
    | schedule w sf ff => exact absurd rfl (notSchedule w sf ff)
    | suspend w =>
        simp only [poolStep, Option.ite_none_right_eq_some, Option.some.injEq] at isStep
        obtain ⟨isPublished, rfl⟩ := isStep
        exact inv.of_save .choosing pool (by rw [isPublished]; rfl) rfl rfl rfl rfl rfl
    | resumeSuspend w =>
        simp only [poolStep] at isStep
        split at isStep <;> cases isStep
        · next d isMarked =>
          exact inv.of_save (.chosen (some d)) pool (by rw [isMarked]; rfl) rfl rfl rfl rfl rfl
        · next d isMarked =>
          exact inv.of_save (.chosen (some d)) pool (by rw [isMarked]; rfl) rfl rfl rfl rfl rfl
    | switchDeque w d stolen =>
        simp only [poolStep, Option.ite_none_right_eq_some] at isStep
        obtain ⟨-, isStep⟩ := isStep
        split at isStep
        · next e isChosen =>
          simp only [Option.ite_none_right_eq_some, Option.some.injEq] at isStep
          obtain ⟨⟨rfl, -⟩, rfl⟩ := isStep
          have isLive := (inPool.held (w := w) (d := d) (.inl (by rw [isChosen]; rfl))).1
          have unrecorded : s.record (.switchDeque w d stolen) = s := if_pos isLive
          rw [unrecorded]
          exact
            { pool := pool
              suspended := inv.suspended.of_switchOver inPool isChosen
              views := inv.views.of_switch (d := d) (.placing (s.deques.activeDeque w)) rfl
                (fun runs => by rw [isChosen] at runs; cases runs)
                (fun _ => inv.views.own_of_takes allowed) rfl rfl }
        · next isChosen =>
          simp only [Option.ite_none_right_eq_some] at isStep
          obtain ⟨isDead, isStep⟩ := isStep
          have notLeft : s.left d = none := by
            by_contra isLeft
            cases isDead.symm.trans (inv.suspended.live d isLeft)
          have unrecorded : s.record (.switchDeque w d stolen) = s := by
            unfold ViewState.record
            simp only [isDead, Bool.false_eq_true, if_false]
            rw [← notLeft, setAt_same]
          rw [unrecorded]
          have suspended := inv.suspended.of_switchNew inPool isChosen isDead
          have views : ViewInv { s with deques := (s.deques.dequeInit w d).switchTo w d } :=
            inv.views.of_switch (d := d) (.placing (s.deques.activeDeque w)) rfl
            (fun runs => by rw [isChosen] at runs; cases runs)
            (fun _ isLeft => by cases notLeft.symm.trans isLeft) rfl rfl
          split at isStep
          · next child =>
            have same := StrandsStay.of_detachForSteal isStep
            exact
              { pool := pool
                suspended := suspended.congr same
                views := views.moveDeques same.activeDeque (fun w => (same.phase w).runs)
                  fun w isRestored => (same.phase w).restores.symm.trans isRestored }
          · cases isStep
            exact { pool := pool, suspended := suspended, views := views }
        · cases isStep
    | switchFiber w =>
        simp only [poolStep] at isStep
        split at isStep
        case h_2 => cases isStep
        next old leaving =>
          have restored : (s.deques.pc w).restores = true := by
            rw [leaving]
            rfl
          have idle : (s.deques.pc w).runs = false := by
            rw [leaving]
            rfl
          split at isStep
          · next v isNew =>
            cases isStep
            exact
              { pool := pool
                suspended := inv.suspended.of_switchFiber inPool leaving (.inl ⟨⟨v, isNew⟩, rfl⟩)
                views := inv.views.of_fiber .sched restored idle rfl rfl rfl }
          · next onStrand =>
            simp only [Option.ite_none_right_eq_some, Option.some.injEq] at isStep
            obtain ⟨-, rfl⟩ := isStep
            exact
              { pool := pool
                suspended := inv.suspended.of_switchFiber inPool leaving (.inr ⟨onStrand, rfl⟩)
                views := inv.views.of_fiber .resumed restored idle rfl rfl rfl }
          · cases isStep
    | resumeDestroy w =>
        simp only [poolStep] at isStep
        split at isStep
        case h_2 => cases isStep
        next d isMarked =>
          simp only [Option.ite_none_right_eq_some, Option.some.injEq] at isStep
          obtain ⟨-, rfl⟩ := isStep
          have holds : (s.deques.pc w).claims = some d := by
            rw [isMarked]
            rfl
          have runs : (s.deques.pc w).runs = true := by
            rw [isMarked]
            rfl
          have takes := allowed d isMarked
          have held := inPool.held (.inr holds)
          have isLeft := (inv.suspended.inactive d held.1 held.2).2
          exact
            { pool := pool
              suspended := inv.suspended.of_switchAndDestroy inPool (.inr holds) (PoolPc.phase_of_runs runs).1
                (PoolPc.phase_of_runs runs).2 fun e other => setAt_other other _ _
              views := inv.views.of_switch (d := d) .jumping rfl
                (fun _ => inv.views.empty_of_takes runs takes isLeft)
                (fun _ => inv.views.own_of_takes takes) rfl rfl }
    | jumpSwitch w =>
        simp only [poolStep] at isStep
        split at isStep
        case h_2 => cases isStep
        next d isSpinning =>
          simp only [Option.ite_none_right_eq_some, Option.some.injEq] at isStep
          obtain ⟨-, rfl⟩ := isStep
          have holds : (s.deques.pc w).moves = some d := by
            rw [isSpinning]
            rfl
          exact
            { pool := pool
              suspended := inv.suspended.of_switchAndDestroy inPool (.inl holds) (by rw [isSpinning]; rfl)
                (by rw [isSpinning]; rfl) fun e other => setAt_other other _ _
              views := inv.views.of_switch (d := d) .jumping rfl
                (fun runs => by rw [isSpinning] at runs; cases runs)
                (fun _ => inv.views.own_of_takes (allowed d isSpinning)) rfl rfl }
    | goOn w =>
        simp only [poolStep, Option.ite_none_right_eq_some, Option.some.injEq] at isStep
        obtain ⟨isResumed, rfl⟩ := isStep
        have isLeft := inv.suspended.jumping w (by rw [isResumed]; rfl)
        exact
          { pool := pool
            suspended := inv.suspended.of_goOn inPool
            views := inv.views.of_goOn isResumed isLeft
              (fun w' same => inPool.activeDeque_injective same) rfl rfl }
    | _ => exact absurd rfl stays

omit [DecidableEq ψ] [DecidableEq ρ] in
/-- A finish is recorded of no suspended strand. -/
theorem ViewState.of_finish {s' : ViewState ω δ φ ψ π ρ V} {w : ω}
    (taken : s.moveDeques (.finish w) = some s') :
    (s.deques.pc w).runs = true ∧ ∃ deques, poolStep s.deques (.finish w) = some deques ∧
      s' = { s with deques := deques } := by
  obtain ⟨deques, isStep, rfl⟩ := ViewState.of_moveDeques taken
  refine ⟨?_, deques, isStep, rfl⟩
  simp only [poolStep] at isStep
  split at isStep
  · next isRunning isStack =>
    rw [isRunning]
    rfl
  · cases isStep

omit [DecidableEq ψ] [DecidableEq ρ] in
/-- A strand ends, and its maps have been put away. -/
theorem ReducerInv.of_deposit {s₁ s' : ViewState ω δ φ ψ π ρ V} {w : ω} (inv : ReducerInv s)
    (put : (s.deques.pc w).runs = true →
      ViewInv s₁ ∧ s₁.deques = s.deques ∧ s₁.left = s.left ∧ s₁.reducerMap w = none)
    (sameDeques : s₁.deques = s.deques) (taken : s₁.moveDeques (.finish w) = some s') : ReducerInv s' := by
  obtain ⟨runs, deques, isStep, rfl⟩ := ViewState.of_finish taken
  rw [sameDeques] at runs
  obtain ⟨views, -, sameLeft, empty⟩ := put runs
  have inv₁ : ReducerInv s₁ :=
    { pool := by rw [sameDeques]; exact inv.pool
      suspended := by rw [sameDeques, sameLeft]; exact inv.suspended
      views := views }
  exact inv₁.of_finish empty isStep

omit [DecidableEq δ] [DecidableEq φ] [DecidableEq ρ] in
/-- The reducers of a frame that is set up. -/
theorem ReducerInv.of_setup {s' : ViewState ω δ φ ψ π ρ V} (inv : ReducerInv s) {w : ω} {ff : ψ}
    {synched : Bool} (runs : (s.deques.pc w).runs = true)
    (taken : s.setupForExecutionReducers w ff synched = some s') :
    ReducerInv s' := by
  obtain ⟨views, sameDeques, sameLeft⟩ := inv.views.setupForExecutionReducers runs taken
  exact
    { pool := by rw [sameDeques]; exact inv.pool
      suspended := by rw [sameDeques, sameLeft]; exact inv.suspended
      views := views }

omit [DecidableEq ψ] [DecidableEq ρ] in
/-- A called frame returns, and its caller goes on in the same worker with the same map. -/
theorem ReducerInv.of_callReturn {finished scheduled : ViewState ω δ φ ψ π ρ V} (inv : ReducerInv s) {w : ω}
    {sf : φ} {ff : ψ} (returned : s.moveDeques (.finish w) = some finished)
    (resumed : finished.moveDeques (.schedule w sf ff) = some scheduled) :
    ReducerInv scheduled ∧ (scheduled.deques.pc w).runs = true := by
  obtain ⟨place, waker, inPool⟩ := inv.pool
  obtain ⟨runs, one, isFinish, rfl⟩ := ViewState.of_finish returned
  obtain ⟨two, isSchedule, rfl⟩ := ViewState.of_moveDeques resumed
  obtain ⟨place', waker', inPool'⟩ := inPool.of_step isFinish
  have pool := inPool'.of_step isSchedule
  dsimp only at isSchedule
  simp only [poolStep, Option.ite_none_right_eq_some, Option.some.injEq] at isSchedule
  obtain ⟨⟨isSched, -⟩, rfl⟩ := isSchedule
  simp only [poolStep] at isFinish
  split at isFinish <;> cases isFinish
  next bottom detached isRunning isStack =>
    have phase := PoolPc.phase_of_runs runs
    have ended : SuspendedInv
        { (s.deques.setCalls (s.deques.activeDeque w) []).setPc w .sched with
          stackOf := setAt s.deques.stackOf bottom none
          frameFf := setAt s.deques.frameFf (s.deques.activeDeque w) none } s.left :=
      inv.suspended.of_pc (w := w) .sched phase.1 phase.2 rfl rfl rfl rfl rfl rfl
    refine ⟨⟨pool, ?_, ?_⟩, ?_⟩
    · exact ended.of_pc (w := w) .running (by rw [isSched]; rfl) (by rw [isSched]; rfl) rfl rfl rfl rfl rfl
        rfl
    · refine inv.views.moveDeques rfl (fun w' => ?_) fun w' isRestored => ?_
      · by_cases same : w' = w
        · simp [same, DequePoolState.enterFrame, isRunning]
        · simp [DequePoolState.enterFrame, setAt_other same]
      · by_cases same : w' = w
        · simp [same, DequePoolState.enterFrame] at isRestored
        · simpa [DequePoolState.enterFrame, setAt_other same] using isRestored
    · simp [DequePoolState.enterFrame]

/-- Every allowed step keeps the maps where they should be. -/
theorem ReducerInv.of_step {reducers : ReducerViews V} {s' : ViewState ω δ φ ψ π ρ V}
    {label : ViewLabel ω δ φ ψ π ρ V} (inv : ReducerInv s) (allowed : ViewsAllowed s label)
    (taken : viewStep reducers s label = some s') : ReducerInv s' := by
  cases label with
  | deque label =>
      simp only [viewStep] at taken
      split at taken
      · cases taken
      · cases taken
      · next notFinish notSchedule => exact inv.of_moveDeques allowed notFinish notSchedule taken
  | lookup w fresh update =>
      simp only [viewStep, Option.ite_none_right_eq_some] at taken
      obtain ⟨isRunning, taken⟩ := taken
      obtain ⟨views, sameDeques, sameLeft⟩ := inv.views.hyperLookup reducers (by rw [isRunning]; rfl) taken
      exact
        { pool := by rw [sameDeques]; exact inv.pool
          suspended := by rw [sameDeques, sameLeft]; exact inv.suspended
          views := views }
  | sync w left =>
      exact inv.of_deposit (inv.views.reduceForSync reducers left) (s.mergeReducerMaps_deques ..) taken
  | spawnReturn w ff left =>
      simp only [viewStep, Option.ite_none_left_eq_some] at taken
      obtain ⟨apart, taken⟩ := taken
      refine inv.of_deposit (inv.views.reduceForSpawnReturn reducers apart) ?_ taken
      exact (ViewState.mergeReducerMaps_deques ..).trans (ViewState.mergeReducerMaps_deques ..)
  | discard w => exact inv.of_deposit inv.views.discardMap (s.discardMap_deques w) taken
  | callReturn w sf ff synched =>
      simp only [viewStep] at taken
      split at taken
      · next finished returned =>
        split at taken
        · next scheduled resumed =>
          obtain ⟨inv', runs⟩ := inv.of_callReturn returned resumed
          exact inv'.of_setup runs taken
        · cases taken
      · cases taken
  | schedule w sf ff synched =>
      simp only [viewStep] at taken
      split at taken
      · next scheduled isScheduled =>
        obtain ⟨deques, isStep, rfl⟩ := ViewState.of_moveDeques isScheduled
        obtain ⟨inv', runs⟩ := inv.of_schedule allowed isStep
        exact inv'.of_setup runs taken
      · cases taken

omit [DecidableEq ω] [DecidableEq δ] [DecidableEq φ] [DecidableEq ψ] [DecidableEq ρ] in
/-- At the start no strand is suspended. -/
theorem ReducerInv.of_start (initial : s.Initial) : ReducerInv s := by
  obtain ⟨deques, notLeft, untouched, noSlot, isMap, unique⟩ := initial
  have pool := PoolInv.of_start deques
  obtain ⟨workers, isDeque, -⟩ := deques
  exact
    { pool := pool
      suspended :=
        { working := fun w _ _ => notLeft _
          saving := by
            intro w saves
            rcases (workers w).2.2.2.2.2.2 with ⟨isSched, -⟩ | ⟨isRunning, -⟩
            · simp [isSched] at saves
            · simp [isRunning] at saves
          awaiting := by
            intro w awaits
            rcases (workers w).2.2.2.2.2.2 with ⟨isSched, -⟩ | ⟨isRunning, -⟩
            · simp [isSched] at awaits
            · simp [isRunning] at awaits
          jumping := by
            intro w jumps
            rcases (workers w).2.2.2.2.2.2 with ⟨isSched, -⟩ | ⟨isRunning, -⟩
            · simp [isSched] at jumps
            · simp [isRunning] at jumps
          inactive := by
            intro d isLive isInactive
            obtain ⟨w, active⟩ := (isDeque d).2.2.2.2.2.2.1 isLive
            exact absurd active (isInactive w)
          live := fun d isLeft => absurd (notLeft d) isLeft }
      views :=
        { maps := unique
          slots := fun i j r isSlot => by cases (noSlot i).symm.trans isSlot
          apart := fun w i r _ isSlot => by cases (noSlot i).symm.trans isSlot
          usedMaps := fun w r has => (isMap w r has).1
          usedSlots := fun i r isSlot => by cases (noSlot i).symm.trans isSlot
          idle := by
            intro w r has idle
            rw [(isMap w r has).2] at idle
            cases idle
          left := fun d record r isLeft => by cases (notLeft d).symm.trans isLeft
          views := fun d record isLeft => by cases (notLeft d).symm.trans isLeft
          unique := fun d d' record record' r isLeft => by cases (notLeft d).symm.trans isLeft
          untouched := untouched
          own := fun w record _ isLeft => by cases (notLeft _).symm.trans isLeft } }

end Step

/-! ### Suspended views -/

/-- What is to hold of the strands that are suspended: no other strand got at the views they had, and one that
is about to go on has them again. -/
def ViewState.ViewsKept (s : ViewState ω δ φ ψ π ρ V) : Prop :=
  ∀ d record, s.left d = some record → s.touched d = false ∧ record.views = record.map.map s.views ∧
    ∀ w, s.deques.activeDeque w = d → s.deques.pc w = .resumed → s.reducerMap w = record.map

/-- No strand that runs has the map of a suspended one, and a worker that takes up a strand has its map. -/
def ViewState.OwnViews (s : ViewState ω δ φ ψ π ρ V) : Prop :=
  (∀ w d record r, s.deques.pc w = .running → s.left d = some record → record.map = some r →
      s.reducerMap w ≠ some r) ∧
    ∀ w record, (s.deques.pc w).restores = true → s.left (s.deques.activeDeque w) = some record →
      s.reducerMap w = record.map

theorem ViewInv.viewsKept (inv : ViewInv s) : s.ViewsKept := by
  intro d record isLeft
  refine ⟨inv.untouched d, inv.views d record isLeft, ?_⟩
  rintro w rfl isResumed
  exact inv.own w record (by rw [isResumed]; rfl) isLeft

theorem ViewInv.ownViews (inv : ViewInv s) : s.OwnViews := by
  refine ⟨fun w d record r isRunning isLeft leftMap isMap => ?_, inv.own⟩
  exact inv.free_of_map (by rw [isRunning]; rfl) isMap d record isLeft leftMap

section Runs

variable [DecidableEq ω] [DecidableEq δ] [DecidableEq φ] [DecidableEq ψ] [DecidableEq ρ]

omit [DecidableEq δ] [DecidableEq φ] [DecidableEq ρ] in
/-- A frame with views of its own is not set up in a worker that had some. -/
theorem ViewState.setup_eq {s s' : ViewState ω δ φ ψ π ρ V} {w : ω} {ff : ψ} {synched : Bool} {r : ρ}
    (taken : s.setupForExecutionReducers w ff synched = some s') (isMap : s.reducerMap w = some r) :
    s' = s := by
  unfold ViewState.setupForExecutionReducers at taken
  split at taken
  · next empty => cases isMap.symm.trans empty
  · cases taken
  · cases taken
    rfl

/-- Where the strands have their own views, the step was allowed. -/
theorem ReducerInv.allowed_of_own {reducers : ReducerViews V} {s' : ViewState ω δ φ ψ π ρ V}
    {label : ViewLabel ω δ φ ψ π ρ V} (inv : ReducerInv s) (taken : viewStep reducers s label = some s')
    (own : s'.OwnViews) : ViewsAllowed s label := by
  obtain ⟨place, waker, inPool⟩ := inv.pool
  cases label with
  | lookup w fresh update => trivial
  | sync w left => trivial
  | spawnReturn w ff left => trivial
  | discard w => trivial
  | callReturn w sf ff synched => trivial
  | schedule w sf ff synched =>
      simp only [viewStep] at taken
      split at taken
      case h_2 => cases taken
      next scheduled isScheduled =>
        obtain ⟨deques, isStep, rfl⟩ := ViewState.of_moveDeques isScheduled
        simp only [poolStep, Option.ite_none_right_eq_some, Option.some.injEq] at isStep
        obtain ⟨⟨isSched, -⟩, rfl⟩ := isStep
        by_contra isMap
        obtain ⟨r, isMap⟩ := Option.ne_none_iff_exists'.mp isMap
        obtain ⟨d, record, isLeft, -, leftMap⟩ := inv.views.idle w r isMap (by rw [isSched]; rfl)
        have unchanged := ViewState.setup_eq taken isMap
        rw [unchanged] at own
        exact own.1 w d record r (by simp [DequePoolState.enterFrame]) isLeft leftMap isMap
  | deque label =>
      cases label with
      | switchDeque w d stolen =>
          simp only [viewStep] at taken
          obtain ⟨deques, isStep, rfl⟩ := ViewState.of_moveDeques taken
          simp only [poolStep, Option.ite_none_right_eq_some] at isStep
          obtain ⟨-, isStep⟩ := isStep
          split at isStep
          · next e isChosen =>
            simp only [Option.ite_none_right_eq_some, Option.some.injEq] at isStep
            obtain ⟨⟨rfl, -⟩, rfl⟩ := isStep
            have isLive := (inPool.held (w := w) (d := d) (.inl (by rw [isChosen]; rfl))).1
            have unrecorded : s.record (.switchDeque w d stolen) = s := if_pos isLive
            rw [unrecorded] at own
            refine inv.views.takes_of_own fun record isLeft => own.2 w record ?_ ?_
            · simp [DequePoolState.switchTo]
            · simpa [DequePoolState.switchTo, DequePoolState.dequeSwitch] using isLeft
          · simp only [Option.ite_none_right_eq_some] at isStep
            obtain ⟨isDead, -⟩ := isStep
            intro record isLeft
            have isLive := inv.suspended.live d (by rw [isLeft]; exact Option.some_ne_none record)
            cases isDead.symm.trans isLive
          · cases isStep
      | jumpSwitch w =>
          intro d isSpinning
          simp only [viewStep] at taken
          obtain ⟨deques, isStep, rfl⟩ := ViewState.of_moveDeques taken
          simp only [poolStep, isSpinning, Option.ite_none_right_eq_some, Option.some.injEq] at isStep
          obtain ⟨-, rfl⟩ := isStep
          refine inv.views.takes_of_own fun record isLeft => own.2 w record ?_ ?_
          · simp [DequePoolState.switchAndDestroy]
          · simpa [ViewState.record, DequePoolState.switchAndDestroy, DequePoolState.dequeSwitch,
              DequePoolState.dequeDestroy] using isLeft
      | resumeDestroy w =>
          intro d isMarked
          simp only [viewStep] at taken
          obtain ⟨deques, isStep, rfl⟩ := ViewState.of_moveDeques taken
          simp only [poolStep, isMarked, Option.ite_none_right_eq_some, Option.some.injEq] at isStep
          obtain ⟨-, rfl⟩ := isStep
          refine inv.views.takes_of_own fun record isLeft => own.2 w record ?_ ?_
          · simp [DequePoolState.switchAndDestroy]
          · simpa [ViewState.record, DequePoolState.switchAndDestroy, DequePoolState.dequeSwitch,
              DequePoolState.dequeDestroy] using isLeft
      | _ => trivial

theorem ReducerInv.of_run {reducers : ReducerViews V}
    (run : (viewMachine reducers).GuardedRun ViewsAllowed s) : ReducerInv s :=
  run.invariant (fun _ => .of_start) fun _ _ _ inv allowed taken => inv.of_step allowed taken

/-- In a run of allowed steps the views of suspended strands are kept, and the steps from there that leave every
strand with its own views are the allowed ones. -/
theorem reducer_views_kept {reducers : ReducerViews V} {s : ViewState ω δ φ ψ π ρ V}
    (run : (viewMachine reducers).GuardedRun ViewsAllowed s) :
    s.ViewsKept ∧ ∀ label s', viewStep reducers s label = some s' → (s'.OwnViews ↔ ViewsAllowed s label) := by
  have inv := ReducerInv.of_run run
  refine ⟨inv.views.viewsKept, fun label s' taken => ⟨inv.allowed_of_own taken, fun allowed => ?_⟩⟩
  exact (inv.of_step allowed taken).views.ownViews

end Runs

/-! ### One worker -/

/-- The views of an integer sum. -/
def sumViews : ReducerViews Nat where
  empty := 0
  merge := (· + ·)
  intoLeft _ _ := true

/-- A worker that runs a function in frame `false`, on deque `true`, and has no reducer map. -/
def oneWorkerViews : ViewState Unit Bool Bool Unit Unit Bool Nat where
  deques :=
    { activeDeque := fun _ => true
      pointers := fun _ => .to true
      pedigree := fun _ => ⟨0, none⟩
      currentStackFrame := fun _ => some false
      lock := fun _ => none
      pools := fun _ _ => []
      pc := fun _ => .running
      live := id
      self := fun _ => activeDequeIndex
      worker := fun _ => some ()
      resumable := fun _ => false
      fiber := fun _ => none
      savedPed := fun _ => ⟨0, none⟩
      callStack := fun _ => none
      frameFf := fun _ => none
      calls := fun d => if d then [⟨false, false⟩] else []
      fiberResumable := fun _ => false
      handedOut := fun _ => false
      stackOf := fun sf => if sf then none else some true
      frameWorker := fun _ => some ()
      suspension := fun _ => none }
  reducerMap _ := none
  slot _ := none
  views _ := 0
  used _ := false
  left _ := none
  touched _ := false

theorem oneWorkerViews_start : (viewMachine sumViews).start oneWorkerViews := by
  refine ⟨⟨fun _ => ?_, fun d => ?_, fun sf d => ?_⟩, fun _ => rfl, fun _ => rfl, fun _ => rfl,
    fun w r isMap => ?_, fun w w' r isMap => ?_⟩
  · exact ⟨rfl, rfl, fun _ => rfl, rfl, rfl, rfl, .inr ⟨rfl, false, rfl, rfl⟩⟩
  · refine ⟨rfl, rfl, rfl, rfl, rfl, rfl, fun isLive => ⟨(), isLive.symm⟩, fun dead => ?_⟩
    cases d with
    | false => rfl
    | true => cases dead
  · cases sf <;> cases d <;> simp [oneWorkerViews]
  · cases isMap
  · cases isMap

/-- The function spawns one in frame `true`, which adds 5 to the sum and suspends itself; the worker may steal
the continuation of the spawn from the deque that it leaves. -/
def addAndSuspend (stolen : Option Unit) : List (ViewLabel Unit Bool Bool Unit Unit Bool Nat) :=
  [.deque (.enterFrame () true), .deque (.detach ()), .lookup () true (· + 5), .deque (.publish ()),
    .deque (.suspend ()), .deque (.checkPool ()), .deque (.switchDeque () false stolen), .deque (.place () ()),
    .deque (.switchFiber ())]

/-- The worker wakes it from the scheduling loop, and takes it up again. -/
def wakeAndTakeUp : List (ViewLabel Unit Bool Bool Unit Unit Bool Nat) :=
  [.deque (.wake () true (.makeResumable true)), .deque (.readWorker ()), .deque (.lockWorker ()),
    .deque (.jumpMug () ()), .deque (.mugStore ()), .deque (.jumpSwitch ()), .deque (.jump ())]

instance (s : ViewState ω δ φ ψ π ρ V) (w : ω) (d : δ) [DecidableEq ω] [DecidableEq ρ] :
    Decidable (s.Takes w d) :=
  inferInstanceAs (Decidable (∀ record ∈ s.left d,
    record.map = none ∧ s.reducerMap w = none ∨ record.map ≠ none ∧ record.worker = w))

instance [DecidableEq ω] [DecidableEq δ] [Fintype δ] [DecidableEq ρ] (s : ViewState ω δ φ ψ π ρ V) :
    DecidablePred (ViewsAllowed s)
  | .schedule w _ _ _ => inferInstanceAs (Decidable (s.reducerMap w = none))
  | .deque (.switchDeque w d _) => inferInstanceAs (Decidable (s.Takes w d))
  | .deque (.jumpSwitch w) => inferInstanceAs (Decidable (∀ d, s.deques.pc w = .spinning d → s.Takes w d))
  | .deque (.resumeDestroy w) =>
      inferInstanceAs (Decidable (∀ d, s.deques.pc w = .marked d .destroy → s.Takes w d))
  | .lookup .. | .sync .. | .spawnReturn .. | .discard .. | .callReturn .. | .deque (.enterFrame ..)
  | .deque (.detach ..) | .deque (.leaveFrame ..) | .deque (.finish ..) | .deque (.schedule ..)
  | .deque (.setPedigree ..) | .deque (.publish ..) | .deque (.suspend ..) | .deque (.checkPool ..)
  | .deque (.mugStore ..) | .deque (.place ..) | .deque (.switchFiber ..) | .deque (.wake ..)
  | .deque (.readWorker ..) | .deque (.lockWorker ..) | .deque (.makeFree ..) | .deque (.addFree ..)
  | .deque (.mark ..) | .deque (.resumeSuspend ..) | .deque (.steal ..) | .deque (.mugEmpty ..)
  | .deque (.jumpMug ..) | .deque (.jump ..) | .deque (.goOn ..) => inferInstanceAs (Decidable True)

/-- After it, the strand goes on with the 5. -/
theorem reducer_views_kept_resumed :
    ((viewMachine sumViews).after oneWorkerViews (addAndSuspend none ++ wakeAndTakeUp)).ViewsKept ∧
      ((viewMachine sumViews).after oneWorkerViews (addAndSuspend none ++ wakeAndTakeUp)).left true =
        some ⟨(), some true, some 5⟩ := by
  have kept := reducer_views_kept
    (.after (.start oneWorkerViews_start) (addAndSuspend none ++ wakeAndTakeUp) (by decide))
  exact ⟨kept.1, rfl⟩

/-- The worker starts the continuation that it stole, which adds 1. -/
def stealAndAdd : List (ViewLabel Unit Bool Bool Unit Unit Bool Nat) :=
  addAndSuspend (some ()) ++ [.schedule () false () false, .lookup () true (· + 1)]

/-- It adds to the views of the suspended strand. -/
theorem reducer_views_shared :
    ¬∀ s : ViewState Unit Bool Bool Unit Unit Bool Nat, (viewMachine sumViews).Reachable s → s.ViewsKept := by
  intro kept
  have started : (viewMachine sumViews).Reachable oneWorkerViews := .start oneWorkerViews_start
  have untouched := (kept _ (started.after stealAndAdd) true ⟨(), some true, some 5⟩ rfl).1
  exact absurd untouched (by decide)

end CilkL
