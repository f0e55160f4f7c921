/-
Module: CilkL.Proofs.FiberSwitchStrands
Layer: Proofs
Purpose: The steps of the strands that move no worker to another stack, the claims on suspended deques, the loop
  that waits for the flag of a fiber, and the decrements after a switch keep the invariant of the switches.
Imports: CilkL.Proofs.FiberSwitchInv
Trusted boundary: none (fully proved)
Main exports: FiberSwitchInv.steal, FiberSwitchInv.childReturn, FiberSwitchInv.resume, FiberSwitchInv.handOff,
  FiberSwitchInv.wait
Open obligations: none
-/
import CilkL.Proofs.FiberSwitchInv

namespace CilkL

variable {ω δ β : Type}

open FiberSwitch

/-! ### Steps of the strands that leave the fibers alone -/

section Strands

variable {s s' : FiberSwitch ω δ β} {t : CactusState ω δ β} {u v w : ω} {d e c : δ} {f g : β}
  {p : FiberPosition ω δ}

/-- The strands change, and the worker of none that is in user code. -/
theorem SameFibers.cactus (s : FiberSwitch ω δ β) (t : CactusState ω δ β) :
    SameFibers s { s with cactus := t } :=
  ⟨rfl, rfl, rfl, rfl, rfl, fun _ => .refl _⟩

/-- A step of the strands after which each worker goes on where it was. -/
theorem FiberSwitchInv.of_cactus (inv : FiberSwitchInv s) (cactus : CactusInv t)
    (current : ∀ v, s.pc v ≠ .scheduling → t.current v = s.cactus.current v)
    (position : ∀ p f, t.At p f → s.cactus.At p f ∨ s.PositionOk p f)
    (persists : ∀ d, (s.cactus.strand d).Persists (t.strand d)) : FiberSwitchInv { s with cactus := t } := by
  have same := SameFibers.cactus s t
  apply inv.of_sameFibers same cactus
  · intro v
    by_cases inLoop : s.pc v = .scheduling
    · have ok := inv.pc v
      simp only [PcOk, inLoop] at ok ⊢
      exact ok
    · exact (inv.pc v).same rfl rfl (current v inLoop) id
  · intro p f now
    have ok : s.PositionOk p f := (position p f now).elim (inv.position p f) id
    exact (same.userKept f).position (fun _ _ waits _ => waits) (fun _ _ _ _ _ due => due) ok
  · exact inv.claims.fewer (fun w d isClaim => ⟨isClaim, rfl, rfl, persists d⟩)
      fun _ _ f _ _ _ => (same.fiberKept _).settled

variable [DecidableEq ω] [DecidableEq δ] [DecidableEq β]

theorem CactusInv.next {z : CactusState ω δ β} {label : CactusLabel ω δ β} (inv : CactusInv z)
    (taken : cactusStep z label = some t) (allowed : NoThrow z label) : CactusInv t :=
  (inv.of_step allowed taken).1

/-- A worker that runs a function stays on its fiber while the function calls, spawns and returns. -/
theorem current_of_call {label : CactusLabel ω δ β}
    (isCall : label = .call d ∨ label = .spawn d ∨ label = .leave d)
    (taken : cactusStep s.cactus label = some t) : t.current = s.cactus.current := by
  unfold cactusStep at taken
  split at taken
  · cases taken
  rcases isCall with rfl | rfl | rfl <;> simp only at taken
  · split at taken <;> cases taken
    rfl
  · split at taken <;> cases taken
    rfl
  · split at taken
    case h_2 => cases taken
    split at taken <;> cases taken
    rfl

theorem FiberSwitchInv.call (inv : FiberSwitchInv s) (taken : cactusStep s.cactus (.call d) = some t) :
    FiberSwitchInv { s with cactus := t } := by
  apply inv.of_cactus (inv.cactus.next taken trivial)
  · intro v _
    rw [current_of_call (.inl rfl) taken]
  · exact fun p f now => .inl (at_call taken now)
  · exact fun e => strand_of_step taken (by simp [TakesOver])

theorem FiberSwitchInv.spawn (inv : FiberSwitchInv s) (taken : cactusStep s.cactus (.spawn d) = some t) :
    FiberSwitchInv { s with cactus := t } := by
  apply inv.of_cactus (inv.cactus.next taken trivial)
  · intro v _
    rw [current_of_call (.inr (.inl rfl)) taken]
  · exact fun p f now => .inl (at_spawn taken now)
  · exact fun e => strand_of_step taken (by simp [TakesOver])

theorem FiberSwitchInv.leave (inv : FiberSwitchInv s) (taken : cactusStep s.cactus (.leave d) = some t) :
    FiberSwitchInv { s with cactus := t } := by
  apply inv.of_cactus (inv.cactus.next taken trivial)
  · intro v _
    rw [current_of_call (.inr (.inr rfl)) taken]
  · exact fun p f now => .inl (at_leave taken now)
  · exact fun e => strand_of_step taken (by simp [TakesOver])

omit [DecidableEq ω] [DecidableEq δ] [DecidableEq β] in
/-- A worker that is not about to leave a fiber, nor in the actions after a switch, removes none. -/
theorem FiberSwitchInv.not_removes (inv : FiberSwitchInv s) (notPost : inPostSwitch (s.pc w) = false)
    (stays : ∀ target, s.pc w ≠ .leaving target true) : ¬s.Removes w f := by
  intro removes
  rcases removes with ⟨⟨target, isLeaving⟩, -⟩ | isPending
  · exact stays target isLeaving
  · rw [(inv.worker w).noPending notPost] at isPending
    cases isPending

omit [DecidableEq ω] [DecidableEq δ] [DecidableEq β] in
/-- What a worker takes from a pool or the heap is idle. -/
theorem FiberSwitchInv.idle_of_spare (inv : FiberSwitchInv s) (notPost : inPostSwitch (s.pc w) = false)
    (stays : ∀ target, s.pc w ≠ .leaving target true) (isSpare : IsSpare s.cactus w f) : s.Idle (.user f) := by
  rcases isSpare with inPool | inGlobal | fresh
  · exact (inv.position _ f inPool).resolve_right (inv.not_removes notPost stays)
  · exact inv.position _ f inGlobal
  · exact inv.position _ f fresh

omit [DecidableEq ω] [DecidableEq δ] [DecidableEq β] in
/-- A worker that looks for work. -/
theorem notPost_of_thief (thief : s.pc u = .scheduling ∨ isSuspending (s.pc u)) :
    inPostSwitch (s.pc u) = false ∧ ∀ target remove, s.pc u ≠ .leaving target remove := by
  cases isPc : s.pc u <;> simp_all [isSuspending, inPostSwitch]

theorem FiberSwitchInv.allocate (inv : FiberSwitchInv s) {heap heapOfParent : Option β}
    (thief : s.pc u = .scheduling ∨ isSuspending (s.pc u))
    (taken : cactusStep s.cactus (.allocate u heap heapOfParent) = some t) :
    FiberSwitchInv { s with cactus := t } := by
  obtain ⟨sameCurrent, back⟩ := at_allocate taken
  obtain ⟨notPost, stays⟩ := notPost_of_thief thief
  apply inv.of_cactus (inv.cactus.next taken trivial)
  · intro v _
    rw [sameCurrent]
  · intro p f now
    rcases back p f now with was | ⟨rfl, isSpare⟩
    · exact .inl was
    · exact .inr (inv.idle_of_spare notPost (fun target => stays target true) isSpare)
  · exact fun e => strand_of_step taken (by simp [TakesOver])

theorem FiberSwitchInv.giveBack (inv : FiberSwitchInv s) (taken : cactusStep s.cactus (.giveBack u) = some t) :
    FiberSwitchInv { s with cactus := t } := by
  obtain ⟨sameCurrent, g, isSpare, back⟩ := at_giveBack inv.cactus taken
  apply inv.of_cactus (inv.cactus.next taken trivial)
  · intro v _
    rw [sameCurrent]
  · intro p f now
    rcases back p f now with was | ⟨rfl, rfl⟩
    · exact .inl was
    · exact .inr (.inl (inv.position (.spare u) f isSpare))
  · exact fun e => strand_of_step taken (by simp [TakesOver])

/-- A function that waited goes on: the worker that left its fiber did the decrement of the join counter that
was due after the switch. -/
theorem FiberSwitchInv.resumeStalled (inv : FiberSwitchInv s) (inLoop : s.pc u = .scheduling)
    (done : ∀ due ∈ s.decjoins, due.2 ≠ (d, (s.cactus.strand d).frames.length - 1))
    (taken : cactusStep s.cactus (.resumeStalled u d) = some t) : FiberSwitchInv { s with cactus := t } := by
  obtain ⟨g, isChild, -, others, back⟩ := at_resumeStalled inv.cactus taken
  apply inv.of_cactus (inv.cactus.next taken trivial)
  · intro v notInLoop
    exact others v fun same => notInLoop (same ▸ inLoop)
  · intro p f now
    rcases back p f now with was | ⟨rfl, rfl⟩
    · exact .inl was
    · rcases inv.position _ f isChild with settled | ⟨v, _, due⟩
      · exact .inr (.inr (.inl (.inr ⟨_, settled⟩)))
      · exact absurd rfl (done _ due)
  · exact fun e => strand_of_step taken (by simp [TakesOver])

/-! ### Steps that leave a strand -/

omit [DecidableEq ω] [DecidableEq δ] [DecidableEq β] in
/-- One worker goes on elsewhere. -/
theorem FiberSwitchInv.pcOk (inv : FiberSwitchInv s) (same : SameFibers s s') (own : s'.PcOk w)
    (pc : ∀ v, v ≠ w → s'.pc v = s.pc v) (current : ∀ v, v ≠ w → s'.cactus.current v = s.cactus.current v)
    (waits : ∀ v, v ≠ w → s.WaitsForCurrent v → s'.WaitsForCurrent v) (v : ω) : s'.PcOk v := by
  by_cases isW : v = w
  · rw [isW]
    exact own
  · exact (inv.pc v).same (pc v isW) (by rw [same.executing]) (current v isW) (waits v isW)

omit [DecidableEq ω] [DecidableEq δ] [DecidableEq β] in
/-- A worker in user code is on the fiber of its strand. -/
theorem FiberSwitchInv.on_current (inv : FiberSwitchInv s) (inUser : s.pc w = .user)
    (isCurrent : s.cactus.current w = some f) : s.executing w = .user f := by
  have ok := inv.pc w
  simp only [PcOk, inUser] at ok
  obtain ⟨g, isG, on⟩ := ok
  cases isCurrent.symm.trans isG
  exact on

omit [DecidableEq ω] [DecidableEq δ] [DecidableEq β] in
/-- The worker of a strand is in user code. -/
theorem inUser_of_ready (ready : s.InUser d) (on : (s.cactus.strand d).place = .on w) : s.pc w = .user := by
  rw [InUser, on] at ready
  exact ready

/-- A worker that leaves its strand keeps the claims. -/
theorem claims_of_stop {label : CactusLabel ω δ β} (ok : s.ClaimsOk) (same : SameFibers s s')
    (taken : cactusStep s.cactus label = some s'.cactus) (leaves : ∀ e, ¬TakesOver label e)
    (claim : s'.claim = s.claim) (claimed : s'.claimed = s.claimed)
      (awaits : s'.awaits = s.awaits) : s'.ClaimsOk := by
  apply ok.fewer
  · intro v e isClaim
    rw [claim] at isClaim
    exact ⟨isClaim, by rw [claimed], by rw [awaits], strand_of_step taken (leaves e)⟩
  · exact fun _ _ f _ _ _ => (same.fiberKept _).settled

theorem FiberSwitchInv.suspend (inv : FiberSwitchInv s) (ready : s.InUser d)
    (taken : cactusStep s.cactus (.suspend d) = some t) :
    FiberSwitchInv { s.along t (.suspend d) with cactus := t } := by
  obtain ⟨w, g, on, isCurrent, gone, others, back⟩ := at_suspend inv.cactus taken
  have inUser := inUser_of_ready ready on
  have onG := inv.on_current inUser isCurrent
  simp only [along, on]
  have same : SameFibers s { s with pc := setAt s.pc w (.suspending d), cactus := t } :=
    ⟨rfl, rfl, rfl, rfl, rfl, PcKept.set (inUser ▸ .of_user _)⟩
  apply inv.of_sameFibers same (inv.cactus.next taken trivial)
  · apply inv.pcOk same ?_ (fun v other => setAt_other other _ _) others fun _ _ => id
    simp only [PcOk, setAt_self]
    exact ⟨g, onG, fun isG => absurd (gone.symm.trans isG) (by simp)⟩
  · intro p f now
    rcases back p f now with was | ⟨rfl, rfl⟩
    · exact (same.userKept f).position (fun _ _ waits _ => waits)
        (fun _ _ _ _ _ due => due) (inv.position p f was)
    · exact .inr ⟨w, .inl ⟨.inl (by simp [isSuspending]), onG⟩⟩
  · exact claims_of_stop inv.claims same taken (by simp [TakesOver]) rfl rfl rfl

/-- A worker leaves its strand for its scheduling fiber. -/
theorem FiberSwitchInv.of_leave (inv : FiberSwitchInv s) {label : CactusLabel ω δ β} {remove : Bool}
    {decjoins : List (ω × δ × Nat)} (inUser : s.pc w = .user) (isCurrent : s.cactus.current w = some g)
    (gone : t.current w = none) (others : ∀ v, v ≠ w → t.current v = s.cactus.current v)
    (taken : cactusStep s.cactus label = some t) (allowed : NoThrow s.cactus label)
      (leaves : ∀ e, ¬TakesOver label e)
    (more : ∀ due ∈ s.decjoins, due ∈ decjoins)
    (position : ∀ p f, t.At p f → s.cactus.At p f ∨ f = g ∧ ((∃ d h, p = .child d h ∧ remove = false ∧
      (w, d, h) ∈ decjoins) ∨ p = .pool w ∧ remove = true)) :
    FiberSwitchInv { { s with decjoins := decjoins }.leave w .scheduling remove with cactus := t } := by
  have onG := inv.on_current inUser isCurrent
  have same : SameFibers s { { s with decjoins := decjoins }.leave w .scheduling remove with cactus := t } :=
    ⟨rfl, rfl, rfl, rfl, rfl, PcKept.set (inUser ▸ .of_user _)⟩
  apply inv.of_sameFibers same (inv.cactus.next taken allowed)
  · apply inv.pcOk same ?_ (fun v other => setAt_other other _ _) others fun _ _ => id
    simp only [PcOk, FiberSwitch.leave, setAt_self]
    exact ⟨g, onG, fun isG => absurd (gone.symm.trans isG) (by simp)⟩
  · intro p f now
    rcases position p f now with was | ⟨rfl, ⟨d, h, rfl, rfl, due⟩ | ⟨rfl, rfl⟩⟩
    · exact (same.userKept f).position (fun _ _ waits _ => waits) (fun _ _ _ _ _ due => more _ due)
        (inv.position p f was)
    · exact .inr ⟨w, .inl ⟨.inr ⟨.scheduling, setAt_self _ _ _⟩, onG⟩, due⟩
    · exact .inr (.inl ⟨⟨.scheduling, setAt_self _ _ _⟩, onG⟩)
  · exact claims_of_stop inv.claims same taken leaves rfl rfl rfl

theorem FiberSwitchInv.futureReturnStolen (inv : FiberSwitchInv s) (ready : s.InUser d)
    (taken : cactusStep s.cactus (.futureReturnStolen d) = some t) :
    FiberSwitchInv { s.along t (.futureReturnStolen d) with cactus := t } := by
  obtain ⟨w, g, on, isCurrent, gone, others, back⟩ := at_futureReturnStolen inv.cactus taken
  simp only [along, on]
  refine inv.of_leave (inUser_of_ready ready on) isCurrent gone others taken trivial (by simp [TakesOver])
    (fun _ => id) fun p f now => ?_
  exact (back p f now).imp_right fun atPool => ⟨atPool.2, .inr ⟨atPool.1, rfl⟩⟩

theorem FiberSwitchInv.stall (inv : FiberSwitchInv s) (ready : s.InUser d)
    (taken : cactusStep s.cactus (.stall d) = some t) :
    FiberSwitchInv { s.along t (.stall d) with cactus := t } := by
  obtain ⟨w, g, on, isCurrent, gone, others, back⟩ := at_stall inv.cactus taken
  simp only [along, on]
  refine inv.of_leave (inUser_of_ready ready on) isCurrent gone others taken trivial (by simp [TakesOver])
    (fun _ => List.mem_cons_of_mem _) fun p f now => ?_
  exact (back p f now).imp_right fun atPool => ⟨atPool.2, .inr ⟨atPool.1, rfl⟩⟩

/-- A spawned function returns to a parent that was stolen. If its fiber is passed up, the decrement of the join
    counter comes after the switch. -/
theorem FiberSwitchInv.childReturn (inv : FiberSwitchInv s) (ready : s.InUser d)
    (taken : cactusStep s.cactus (.childReturn d) = some t) :
    FiberSwitchInv { s.along t (.childReturn d) with cactus := t } := by
  obtain ⟨w, h, e, g, parent, frame, on, isFrames, isSpawned, isParent, isCurrent, gone, others, back⟩ :=
    at_childReturn inv.cactus taken
  have parentOf : s.parentOf d = some (e, h) := by
    rw [FiberSwitch.parentOf, isFrames]
    simp only [isSpawned]
  have passes : s.passesFiberUp d e h = true ↔ PassesFiberUp d parent := by
    rw [passesFiberUp, isParent]
    exact decide_eq_true_iff
  simp only [along, on, parentOf]
  refine inv.of_leave (inUser_of_ready ready on) isCurrent gone others taken trivial (by simp [TakesOver])
    (fun _ => List.mem_cons_of_mem _) fun p f now => ?_
  rcases back p f now with was | ⟨up, isChild, isG⟩ | ⟨notUp, isPool, isG⟩
  · exact .inl was
  · refine .inr ⟨isG, .inl ⟨e, h, isChild, ?_, List.mem_cons_self⟩⟩
    rw [passes.2 up]
    rfl
  · refine .inr ⟨isG, .inr ⟨isPool, ?_⟩⟩
    rw [Bool.eq_false_iff.2 (mt passes.1 notUp)]
    rfl

/-! ### Steps that go on with a claimed deque -/

/-- The deque that a worker claimed is its own now: the other claims stay. -/
theorem claims_of_unclaim {label : CactusLabel ω δ β} (ok : s.ClaimsOk) (same : SameFibers s s')
    (taken : cactusStep s.cactus label = some s'.cactus) (isClaim : s.claim w = some e)
    (only : ∀ x, TakesOver label x → x = e) (claim : s'.claim = setAt s.claim w none)
    (claimed : s'.claimed = setAt s.claimed e false) (awaits : s'.awaits = s.awaits) : s'.ClaimsOk := by
  apply ok.fewer
  · intro v x isClaimV
    rw [claim] at isClaimV
    by_cases isW : v = w
    · rw [isW, setAt_self] at isClaimV
      cases isClaimV
    · rw [setAt_other isW] at isClaimV
      have otherDeque : x ≠ e := fun sameDeque => isW (ok.once v w e (sameDeque ▸ isClaimV) isClaim)
      refine ⟨isClaimV, ?_, by rw [awaits], strand_of_step taken fun takes => otherDeque (only x takes)⟩
      rw [claimed, setAt_other otherDeque]
  · exact fun _ _ f _ _ _ => (same.fiberKept _).settled

/-- A worker that goes on with another strand after a future waits for nothing. -/
theorem FiberSwitchInv.handOff (inv : FiberSwitchInv s) (ready : s.InUser d ∧ s.HasWaited d e)
    (taken : cactusStep s.cactus (.handOff d e) = some t) :
    FiberSwitchInv { s.along t (.handOff d e) with cactus := t } := by
  obtain ⟨w, g, current, on, isCurrent, isSuspended, isG, others, back⟩ := at_handOff inv.cactus taken
  have inUser := inUser_of_ready ready.1 on
  have waited := ready.2
  rw [HasWaited, on] at waited
  obtain ⟨isClaim, seen⟩ := waited
  have onCurrent := inv.on_current inUser isCurrent
  simp only [along, on]
  have same : SameFibers s { (s.unclaim w e).leave w .current (!s.hasRoom w) with cactus := t } :=
    ⟨rfl, rfl, rfl, rfl, rfl, PcKept.set (inUser ▸ .of_user _)⟩
  have settled : s.Settled .switch (.user g) := by
    obtain ⟨-, f, isFiber, isSettled⟩ := inv.claims.waited w e isClaim seen
    cases isSuspended.symm.trans isFiber
    exact isSettled
  apply inv.of_sameFibers same (inv.cactus.next taken trivial)
  · apply inv.pcOk same ?_ (fun v other => setAt_other other _ _) others ?_
    · simp only [PcOk, FiberSwitch.leave, setAt_self]
      refine ⟨current, onCurrent, fun isSame => ?_⟩
      cases isG.symm.trans isSame
      exact absurd (.inl onCurrent) (settled.2.2 w)
    · rintro v other ⟨waiting, noClaim⟩
      exact ⟨waiting, (setAt_other other _ _).trans noClaim⟩
  · intro p f now
    rcases back p f now with was | ⟨rfl, rfl⟩ | ⟨rfl, rfl⟩
    · refine (same.userKept f).position ?_ (fun _ _ _ _ _ due => due) (inv.position p f was)
      rintro v _ ⟨waiting, noClaim⟩ _
      refine ⟨waiting, (setAt_other ?_ _ _).trans noClaim⟩
      intro isW
      rw [isW] at waiting
      exact absurd (seen.symm.trans waiting) (by simp)
    · exact .inr (.inl (.inr ⟨_, (same.fiberKept _).settled settled⟩))
    · rw [returnPosition]
      by_cases room : s.cactus.futureFiberPoolIdx w < maxFutureFibersInPool - 1
      · rw [if_pos room]
        refine .inr (.inl ⟨.inr ⟨.current, ?_⟩, onCurrent⟩)
        simp [FiberSwitch.leave, hasRoom, room]
      · rw [if_neg room]
        refine .inr (.inl ⟨⟨.current, ?_⟩, onCurrent⟩)
        simp [FiberSwitch.leave, hasRoom, room]
  · exact claims_of_unclaim inv.claims same taken isClaim (by simp [TakesOver]) rfl rfl rfl

omit [DecidableEq ω] [DecidableEq δ] [DecidableEq β] in
/-- A worker that has claimed a suspended deque can go on with its fiber, or waits for the flag. -/
theorem FiberSwitchInv.claimed_fiber (inv : FiberSwitchInv s) (isClaim : s.claim w = some d)
    (isSuspended : s.cactus.At (.suspended d) g) :
    s.Settled .switch (.user g) ∨ s.awaits w = true ∧ ∃ v, s.Lags v g := by
  cases waiting : s.awaits w with
  | false =>
    obtain ⟨-, f, isFiber, settled⟩ := inv.claims.waited w d isClaim waiting
    cases isSuspended.symm.trans isFiber
    exact .inl settled
  | true => exact (inv.position _ g isSuspended).imp_right fun lagging => ⟨rfl, lagging⟩

/-- A worker goes on with a suspended deque, wherever it is. -/
theorem FiberSwitchInv.of_resume (inv : FiberSwitchInv s) (same : SameFibers s s')
    (isClaim : s.claim u = some d)
    (taken : cactusStep s.cactus (.resume u d) = some s'.cactus) (claim : s'.claim = setAt s.claim u none)
    (claimed : s'.claimed = setAt s.claimed d false) (awaits : s'.awaits = s.awaits)
    (decjoins : s'.decjoins = s.decjoins) (pc : ∀ v, v ≠ u → s'.pc v = s.pc v) (own : s'.PcOk u) :
    FiberSwitchInv s' := by
  obtain ⟨g, isSuspended, isG, others, back⟩ := at_resume taken
  have waits : ∀ v, s.WaitsForCurrent v → s'.WaitsForCurrent v := by
    rintro v ⟨waiting, noClaim⟩
    refine ⟨by rw [awaits, waiting], ?_⟩
    rw [claim, setAt_other, noClaim]
    intro isU
    rw [isU, isClaim] at noClaim
    cases noClaim
  apply inv.of_sameFibers same (inv.cactus.next taken trivial)
  · exact inv.pcOk same own pc others fun v _ => waits v
  · intro p f now
    rcases back p f now with was | ⟨rfl, rfl⟩
    · exact (same.userKept f).position (fun v _ waiting _ => waits v waiting)
        (fun _ _ _ _ _ due => decjoins ▸ due) (inv.position p f was)
    · rcases inv.claimed_fiber isClaim isSuspended with settled | ⟨waiting, v, lags⟩
      · exact .inr (.inl (.inr ⟨_, (same.fiberKept _).settled settled⟩))
      · refine .inr (.inr ⟨⟨by rw [awaits, waiting], ?_⟩, v, (same.userKept f).lags v lags⟩)
        rw [claim, setAt_self]
  · exact claims_of_unclaim inv.claims same taken isClaim (by simp [TakesOver]) claim claimed awaits

omit [DecidableEq ω] [DecidableEq δ] [DecidableEq β] in
/-- A worker in `deque_suspend` is on a user fiber. -/
theorem FiberSwitchInv.on_user_of_suspending (inv : FiberSwitchInv s) (suspending : isSuspending (s.pc w)) :
    ∃ f, s.executing w = .user f := by
  have ok := inv.pc w
  cases isPc : s.pc w <;> rw [isPc] at suspending <;> cases suspending
  simp only [PcOk, isPc] at ok
  obtain ⟨f, on, -⟩ := ok
  exact ⟨f, on⟩

/-- A worker goes on with a suspended deque. Where it has just suspended this deque itself, it waits for the
flag of the fiber that it is on. -/
theorem FiberSwitchInv.resume (inv : FiberSwitchInv s)
    (ready : s.claim u = some d ∧ (s.pc u = .scheduling ∨ isSuspending (s.pc u)))
    (taken : cactusStep s.cactus (.resume u d) = some t) :
    FiberSwitchInv { s.along t (.resume u d) with cactus := t } := by
  obtain ⟨isClaim, thief⟩ := ready
  simp only [along]
  rcases thief with inLoop | suspending
  · have notSuspending : ¬isSuspending ((s.unclaim u d).pc u) = true := by
      simp only [unclaim, inLoop, isSuspending, Bool.false_eq_true, not_false_eq_true]
    rw [if_neg notSuspending]
    have ok := inv.pc u
    simp only [PcOk, inLoop] at ok
    have same : SameFibers s { s.unclaim u d with cactus := t } := ⟨rfl, rfl, rfl, rfl, rfl, fun _ => .refl _⟩
    refine inv.of_resume same isClaim taken rfl rfl rfl rfl (fun _ _ => rfl) ?_
    simp only [PcOk, unclaim, inLoop]
    exact ok
  · have stillSuspending : isSuspending ((s.unclaim u d).pc u) = true := suspending
    rw [if_pos stillSuspending]
    have kept : PcKept (s.pc u) (.leaving .current false) := by
      cases isPc : s.pc u <;> rw [isPc] at suspending <;> cases suspending
      constructor <;> simp [FiberSwitch.inPostSwitch]
    have same : SameFibers s { (s.unclaim u d).leave u .current false with cactus := t } :=
      ⟨rfl, rfl, rfl, rfl, rfl, kept.set⟩
    refine inv.of_resume same isClaim taken rfl rfl rfl rfl (fun v other => setAt_other other _ _) ?_
    obtain ⟨f, onF⟩ := inv.on_user_of_suspending suspending
    simp only [PcOk, FiberSwitch.leave, setAt_self]
    refine ⟨f, onF, fun isF => ⟨trivial, ?_⟩⟩
    obtain ⟨g, isSuspended, isG, -, -⟩ := at_resume taken
    cases isG.symm.trans isF
    rcases inv.claimed_fiber isClaim isSuspended with settled | ⟨waiting, -⟩
    · exact absurd (.inl onF) (settled.2.2 u)
    · exact ⟨waiting, setAt_self _ _ _⟩

/-! ### A steal -/

omit [DecidableEq ω] [DecidableEq β] in
/-- Where a worker is after a deque got another name. -/
theorem rename_pc (s : FiberSwitch ω δ β) (d c : δ) (v : ω) :
    (s.rename d c).pc v = s.pc v ∨ s.pc v = .suspending d ∧ (s.rename d c).pc v = .suspending c := by
  by_cases isD : s.pc v = .suspending d
  · exact .inr ⟨isD, if_pos isD⟩
  · exact .inl (if_neg isD)

omit [DecidableEq ω] [DecidableEq β] in
/-- Who claims a deque after another one got its name. -/
theorem rename_claim (s : FiberSwitch ω δ β) (d c : δ) (isClaim : (s.rename d c).claim v = some e) :
    s.claim v = some d ∧ e = c ∨ s.claim v = some e ∧ e ≠ d := by
  by_cases isD : s.claim v = some d
  · have renamed : (s.rename d c).claim v = some c := if_pos isD
    exact .inl ⟨isD, (Option.some.inj (renamed.symm.trans isClaim)).symm⟩
  · have kept : (s.rename d c).claim v = s.claim v := if_neg isD
    rw [kept] at isClaim
    exact .inr ⟨isClaim, fun same => isD (same ▸ isClaim)⟩

omit [DecidableEq ω] [DecidableEq β] in
theorem SameFibers.rename (s : FiberSwitch ω δ β) (t : CactusState ω δ β) (d c : δ) :
    SameFibers s { s.rename d c with cactus := t } := by
  refine ⟨rfl, rfl, rfl, rfl, rfl, fun v => ?_⟩
  rcases rename_pc s d c v with same | ⟨was, now⟩
  · change PcKept (s.pc v) ((s.rename d c).pc v)
    rw [same]
    exact .refl _
  · change PcKept (s.pc v) ((s.rename d c).pc v)
    rw [was, now]
    constructor <;> simp [isSuspending, FiberSwitch.inPostSwitch]

/-- The claims on a deque pass to its new name. -/
theorem claims_of_steal (ok : s.ClaimsOk) (isNew : (s.cactus.strand c).place = .unused)
    (taken : cactusStep s.cactus (.steal u d c) = some t) : { s.rename d c with cactus := t }.ClaimsOk := by
  obtain ⟨used, suspends⟩ := strand_of_steal taken
  have kept := fun f => (SameFibers.rename s t d c).fiberKept (.user f)
  have notNew : ∀ v e, s.claim v = some e → e ≠ c := by
    intro v e isClaim isC
    exact (ok.claimed v e isClaim).2 (isC ▸ isNew)
  have persists : ∀ e, e ≠ d → (s.cactus.strand e).Persists (t.strand e) := by
    intro e other
    refine strand_of_step taken fun takes => ?_
    rcases takes with ⟨u, isLabel⟩ | ⟨d', isLabel⟩ | ⟨u, c', isLabel⟩ <;> cases isLabel
    exact other rfl
  constructor
  · intro v e isClaim
    rcases rename_claim s d c isClaim with ⟨was, rfl⟩ | ⟨was, other⟩
    · refine ⟨?_, used⟩
      change setAt (setAt s.claimed e (s.claimed d)) d false e = true
      rw [setAt_other (Ne.symm (notNew v d was)), setAt_self]
      exact (ok.claimed v d was).1
    · refine ⟨?_, (persists e other).used (ok.claimed v e was).2⟩
      change setAt (setAt s.claimed c (s.claimed d)) d false e = true
      rw [setAt_other other, setAt_other (notNew v e was)]
      exact (ok.claimed v e was).1
  · intro v w e isClaimV isClaimW
    rcases rename_claim s d c isClaimV with ⟨wasV, isC⟩ | ⟨wasV, -⟩
    · rcases rename_claim s d c isClaimW with ⟨wasW, -⟩ | ⟨wasW, -⟩
      · exact ok.once v w d wasV wasW
      · exact absurd isC (notNew w e wasW)
    · rcases rename_claim s d c isClaimW with ⟨-, isC⟩ | ⟨wasW, -⟩
      · exact absurd isC (notNew v e wasV)
      · exact ok.once v w e wasV wasW
  · intro v e isClaim seen
    rcases rename_claim s d c isClaim with ⟨was, rfl⟩ | ⟨was, other⟩
    · obtain ⟨suspended, f, isFiber, settled⟩ := ok.waited v d was seen
      obtain ⟨still, sameFiber⟩ := suspends suspended
      exact ⟨still, f, sameFiber.trans isFiber, (kept f).settled settled⟩
    · obtain ⟨suspended, f, isFiber, settled⟩ := ok.waited v e was seen
      obtain ⟨still, sameFiber⟩ := (persists e other).suspended suspended
      exact ⟨still, f, sameFiber.trans isFiber, (kept f).settled settled⟩

/-- A thief, which may still be on the fiber of the deque that it has suspended and now steals from. -/
theorem FiberSwitchInv.steal (inv : FiberSwitchInv s) (ready : s.pc u = .scheduling ∨ s.pc u = .suspending d)
    (taken : cactusStep s.cactus (.steal u d c) = some t) :
    FiberSwitchInv { s.along t (.steal u d c) with cactus := t } := by
  obtain ⟨isNew, g, -, isG, source, others, back⟩ := at_steal inv.cactus taken
  simp only [along]
  have same := SameFibers.rename s t d c
  have startable : s.Startable (.user g) := by
    rcases source with isSpare | isInner
    · exact .inl (inv.position _ g isSpare)
    · exact .inr ⟨_, inv.position _ g isInner⟩
  have waits : ∀ v, s.WaitsForCurrent v → { s.rename d c with cactus := t }.WaitsForCurrent v := by
    rintro v ⟨waiting, noClaim⟩
    refine ⟨waiting, ?_⟩
    change (s.rename d c).claim v = none
    simp [FiberSwitch.rename, noClaim]
  apply inv.of_sameFibers same (inv.cactus.next taken trivial)
  · intro v
    rcases rename_pc s d c v with pc | ⟨was, now⟩
    · by_cases isU : v = u
      · rw [isU] at pc ⊢
        rcases ready with inLoop | suspending
        · have ok := inv.pc u
          simp only [PcOk, inLoop] at ok
          simp only [PcOk, pc, inLoop]
          exact ok
        · obtain ⟨f, onF⟩ := inv.on_user_of_suspending (by rw [suspending]; rfl)
          simp only [PcOk, pc, suspending]
          refine ⟨f, onF, fun isF => ?_⟩
          cases isG.symm.trans isF
          exact absurd (.inl onF) (startable.rests u)
      · exact (inv.pc v).same pc rfl (others v isU) (waits v)
    · have ok := inv.pc v
      simp only [PcOk, was] at ok
      obtain ⟨f, onF, notCurrent⟩ := ok
      simp only [PcOk, now]
      refine ⟨f, onF, fun isF => ?_⟩
      by_cases isU : v = u
      · rw [isU] at isF onF
        cases isG.symm.trans isF
        exact absurd (.inl onF) (startable.rests u)
      · exact waits v (notCurrent ((others v isU).symm.trans isF))
  · intro p f now
    have kept := same.userKept f
    have ofWas : ∀ q, s.PositionOk q f → { s.rename d c with cactus := t }.PositionOk q f :=
      fun q => kept.position (fun v _ waiting _ => waits v waiting) (fun _ _ _ _ _ due => due)
    rcases back p f now with ⟨was, -⟩ | ⟨rfl, rfl⟩ | ⟨rfl, was⟩ | ⟨rfl, was⟩
    · exact ofWas p (inv.position p f was)
    · exact .inr (.inl (kept.startable startable))
    · exact ofWas (.inner d) (inv.position _ f was)
    · exact ofWas (.suspended d) (inv.position _ f was)
  · exact claims_of_steal inv.claims isNew taken

end Strands

/-! ### Claims, the loop that waits for the flag, and the post-switch procedure -/

section Waits

variable {s s' : FiberSwitch ω δ β} {u v w : ω} {d e : δ} {f g : β} {x : Fiber ω β} [DecidableEq ω]

theorem FiberSwitchInv.claim [DecidableEq δ] (inv : FiberSwitchInv s) (live : (s.cactus.strand d).place.live)
    (free : s.claimed d = false) (noClaim : s.claim w = none) (notWaiting : s.awaits w = false) :
    FiberSwitchInv { s with
      claim := setAt s.claim w (some d), claimed := setAt s.claimed d true,
      awaits := setAt s.awaits w true } := by
  have same : SameFibers s { s with
      claim := setAt s.claim w (some d), claimed := setAt s.claimed d true, awaits := setAt s.awaits w true } :=
    ⟨rfl, rfl, rfl, rfl, rfl, fun _ => .refl _⟩
  have unclaimed : ∀ v e, s.claim v = some e → v ≠ w ∧ e ≠ d := by
    intro v e isClaim
    constructor
    · intro isW
      rw [isW, noClaim] at isClaim
      cases isClaim
    · intro isD
      have claimed := (inv.claims.claimed v e isClaim).1
      rw [isD, free] at claimed
      cases claimed
  have before : ∀ v e, setAt s.claim w (some d) v = some e → v = w ∧ e = d ∨ s.claim v = some e := by
    intro v e isClaim
    by_cases isW : v = w
    · rw [isW, setAt_self] at isClaim
      cases isClaim
      exact .inl ⟨isW, rfl⟩
    · rw [setAt_other isW] at isClaim
      exact .inr isClaim
  have waits : ∀ v, s.WaitsForCurrent v → setAt s.awaits w true v = true ∧
    setAt s.claim w (some d) v = none := by
    rintro v ⟨waiting, none_claim⟩
    have other : v ≠ w := by
      intro isW
      rw [isW, notWaiting] at waiting
      cases waiting
    rw [setAt_other other, setAt_other other]
    exact ⟨waiting, none_claim⟩
  apply inv.of_sameFibers same inv.cactus
  · exact fun v => (inv.pc v).same rfl rfl rfl (waits v)
  · intro p f now
    exact (same.userKept f).position (fun v _ waiting _ => waits v waiting) (fun _ _ _ _ _ due => due)
      (inv.position p f now)
  · constructor
    · intro v e isClaim
      rcases before v e isClaim with ⟨-, rfl⟩ | was
      · refine ⟨setAt_self _ _ _, fun isUnused => ?_⟩
        rw [isUnused] at live
        cases live
      · obtain ⟨claimed, used⟩ := inv.claims.claimed v e was
        exact ⟨(setAt_other (unclaimed v e was).2 _ _).trans claimed, used⟩
    · intro v v' e isClaim isClaim'
      rcases before v e isClaim with ⟨isV, isE⟩ | was
      · rcases before v' e isClaim' with ⟨isV', -⟩ | was'
        · exact isV.trans isV'.symm
        · exact absurd isE (unclaimed v' e was').2
      · rcases before v' e isClaim' with ⟨-, isE⟩ | was'
        · exact absurd isE (unclaimed v e was).2
        · exact inv.claims.once v v' e was was'
    · intro v e isClaim seen
      rcases before v e isClaim with ⟨rfl, -⟩ | was
      · exact absurd ((setAt_self _ _ _).symm.trans seen) (by simp)
      · exact inv.claims.waited v e was ((setAt_other (unclaimed v e was).1 _ _).symm.trans seen)

/-- A worker has seen the flag: the fiber can be switched to. -/
theorem FiberSwitchInv.wait (inv : FiberSwitchInv s) (isAwaited : s.awaited w = some g)
    (flag : s.resumable (.user g) = true) : FiberSwitchInv { s with awaits := setAt s.awaits w false } := by
  have same : SameFibers s { s with awaits := setAt s.awaits w false } :=
    ⟨rfl, rfl, rfl, rfl, rfl, fun _ => .refl _⟩
  have notLagging : ¬∃ v, s.Lags v g := by
    rintro ⟨v, lags⟩
    rw [inv.not_resumable_of_lags lags] at flag
    cases flag
  have notOn : ∀ v, s.executing v ≠ .user g := by
    intro v on
    have live := (inv.worker v).live.2
    rw [on, flag] at live
    cases live
  have other : ∀ {v}, v ≠ w → s.WaitsForCurrent v →
    { s with awaits := setAt s.awaits w false }.WaitsForCurrent v :=
    fun isOther waiting => ⟨(setAt_other isOther _ _).trans waiting.1, waiting.2⟩
  -- a worker that waits for the fiber that it has taken waits for this one
  have isCurrent : ∀ f, s.WaitsForCurrent w → s.cactus.current w = some f → f = g := by
    rintro f ⟨_, noClaim⟩ isF
    rw [awaited, noClaim] at isAwaited
    exact Option.some.inj (isF.symm.trans isAwaited)
  apply inv.of_sameFibers same inv.cactus
  · intro v
    by_cases isW : v = w
    · subst isW
      have ok := inv.pc v
      have notWaiting : ∀ f, s.executing v = .user f → s.cactus.current v = some f → ¬s.WaitsForCurrent v := by
        intro f on isF waiting
        exact notOn v (isCurrent f waiting isF ▸ on)
      unfold PcOk at ok ⊢
      cases isPc : s.pc v with
      | suspending d =>
        simp only [isPc] at ok ⊢
        obtain ⟨f, on, notCurrent⟩ := ok
        exact ⟨f, on, fun isF => absurd (notCurrent isF) (notWaiting f on isF)⟩
      | leaving target remove =>
        simp only [isPc] at ok ⊢
        obtain ⟨f, on, notCurrent⟩ := ok
        exact ⟨f, on, fun isF => absurd (notCurrent isF).2 (notWaiting f on isF)⟩
      | user | scheduling | arrived | postSwitchProc | pendingRemoveRef =>
        simp only [isPc] at ok ⊢
        exact ok
    · exact (inv.pc v).same rfl rfl rfl (other isW)
  · intro p f now
    refine (same.userKept f).position ?_ (fun _ _ _ _ _ due => due) (inv.position p f now)
    intro v isP waiting lagging
    apply other _ waiting
    intro isW
    rw [isP] at now
    rw [isW] at waiting now
    exact notLagging (isCurrent f waiting now ▸ lagging)
  · constructor
    · exact inv.claims.claimed
    · exact inv.claims.once
    · intro v d isClaim seen
      by_cases isW : v = w
      · subst isW
        rw [awaited, isClaim] at isAwaited
        have isFiber : (s.cactus.strand d).fiber = some g := isAwaited
        refine ⟨?_, g, isFiber, ?_⟩
        · by_contra running
          rw [(inv.cactus.kept d).running running] at isFiber
          cases isFiber
        · exact (inv.position (.suspended d) g isFiber).resolve_right notLagging
      · exact inv.claims.waited v d isClaim ((setAt_other isW _ _).symm.trans seen)

theorem FiberSwitchInv.makeResumable [DecidableEq δ] (inv : FiberSwitchInv s) (isClaim : s.claim w = some d) :
    FiberSwitchInv (s.unclaim w d) := by
  have same : SameFibers s (s.unclaim w d) := ⟨rfl, rfl, rfl, rfl, rfl, fun _ => .refl _⟩
  have waits : ∀ v, s.WaitsForCurrent v → (s.unclaim w d).WaitsForCurrent v := by
    rintro v ⟨waiting, noClaim⟩
    refine ⟨waiting, (setAt_other ?_ _ _).trans noClaim⟩
    intro isW
    rw [isW, isClaim] at noClaim
    cases noClaim
  apply inv.of_sameFibers same inv.cactus
  · exact fun v => (inv.pc v).same rfl rfl rfl (waits v)
  · intro p f now
    exact (same.userKept f).position (fun v _ waiting _ => waits v waiting) (fun _ _ _ _ _ due => due)
      (inv.position p f now)
  · apply inv.claims.fewer
    · intro v e isClaimV
      by_cases isW : v = w
      · rw [isW] at isClaimV
        exact absurd ((setAt_self _ _ _).symm.trans isClaimV) (by simp)
      · have was : s.claim v = some e := (setAt_other isW _ _).symm.trans isClaimV
        have otherDeque : e ≠ d := fun sameDeque => isW (inv.claims.once v w d (sameDeque ▸ was) isClaim)
        exact ⟨was, setAt_other otherDeque _ _, rfl, .refl _⟩
    · exact fun _ _ f _ _ _ => (same.fiberKept _).settled

/-- The decrements of a worker come after the fibers that it left have their flags. -/
theorem FiberSwitchInv.runPostSwitchProc (inv : FiberSwitchInv s) (isPc : s.pc w = .postSwitchProc) :
    FiberSwitchInv (s.runPostSwitchProc w) := by
  have kept : PcKept (s.pc w) .pendingRemoveRef := by
    rw [isPc]
    constructor <;> simp [isSuspending, FiberSwitch.inPostSwitch]
  have same : SameFibers s (s.runPostSwitchProc w) := ⟨rfl, rfl, rfl, rfl, rfl, kept.set⟩
  have notLagging : ∀ f, ¬s.Lags w f := by
    intro f lags
    rcases lags with ⟨publishes, -⟩ | isFrom
    · simp [isPc, isSuspending] at publishes
    · rw [(inv.worker w).noFrom (by simp [isPc])] at isFrom
      cases isFrom
  apply inv.of_sameFibers same inv.cactus
  · apply inv.pcOk same ?_ (fun v other => setAt_other other _ _) (fun _ _ => rfl) fun _ _ => id
    have ok := inv.pc w
    simp only [PcOk, isPc] at ok
    simp only [PcOk, FiberSwitch.runPostSwitchProc, setAt_self]
    exact ok
  · intro p f now
    refine (same.userKept f).position (fun _ _ waits _ => waits) ?_ (inv.position p f now)
    intro v d h _ lags due
    refine List.mem_filter.2 ⟨due, decide_eq_true ?_⟩
    intro isW
    exact notLagging f (isW ▸ lags)
  · exact inv.claims.fewer (fun v e isClaim => ⟨isClaim, rfl, rfl, .refl _⟩)
      fun _ _ f _ _ _ => (same.fiberKept _).settled

end Waits

end CilkL
