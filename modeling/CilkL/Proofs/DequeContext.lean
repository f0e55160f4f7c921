/-
Module: CilkL.Proofs.DequeContext
Layer: Proofs
Purpose: What a suspended deque keeps of its strand, through muggings, steals, wake-ups and resumptions by
  any sequence of workers, and that the worker that runs its fiber again has all of it: the pointers, the
  pedigree, the current frame and its worker, and the frames that were not stolen. The thief that mugs an
  empty deque stores into the worker of its frame after the deque left the pool; the result is about the
  runs in which no such store comes after the one of the worker that resumes the deque.
Imports: CilkL.Proofs.DequePlace
Trusted boundary: none (fully proved)
Main exports: CallStackInv, DequeContext, WorkerContext, ContextInv, strand_keeps_context
Open obligations: none
-/
import CilkL.Proofs.DequePlace

namespace CilkL

variable {ω δ φ ψ π : Type}

/-! ### Stacks of frames -/

/-- A stack without a head has no frame whose continuation can be stolen. -/
theorem ltqOf_eq_nil {calls : List (StackCall φ)} (none : headOf calls = none) : ltqOf calls = [] := by
  induction calls with
  | nil => rfl
  | cons call calls ih =>
      simp only [headOf] at none
      split at none
      · cases none
      · rename_i deeper
        split at none
        · cases none
        · rename_i attached
          simpa [ltqOf, List.filter_cons, attached] using ih deeper

/-- The frame at the head is the first one between `head` and `tail`. -/
theorem ltqOf_of_headOf {calls younger older : List (StackCall φ)} {head : φ}
    (found : headOf calls = some (younger, head, older)) : ltqOf calls = head :: ltqOf younger := by
  induction calls generalizing younger with
  | nil => cases found
  | cons call calls ih =>
      simp only [headOf] at found
      split at found
      · rename_i younger' head' older' deeper
        cases found
        have tail := ih deeper
        simp only [ltqOf, List.filter_cons] at tail ⊢
        split <;> simp_all
      · rename_i none
        have empty := ltqOf_eq_nil none
        split at found
        · rename_i detached
          cases found
          simp only [ltqOf, List.filter_cons, detached, if_true, List.map_cons, List.reverse_cons,
            List.filter_nil, List.map_nil, List.reverse_nil] at empty ⊢
          rw [empty]
          rfl
        · cases found

/-- A steal takes the frame at the head and those below it. -/
theorem calls_of_headOf {calls younger older : List (StackCall φ)} {head : φ}
    (found : headOf calls = some (younger, head, older)) :
    ∃ call, call.frame = head ∧ call.detached = true ∧ calls = younger ++ call :: older := by
  induction calls generalizing younger with
  | nil => cases found
  | cons call calls ih =>
      simp only [headOf] at found
      split at found
      · rename_i younger' head' older' deeper
        cases found
        obtain ⟨stolen, isHead, detached, eq⟩ := ih deeper
        exact ⟨stolen, isHead, detached, by rw [eq]; rfl⟩
      · rename_i none
        split at found <;> cases found
        rename_i detached
        exact ⟨call, rfl, detached, rfl⟩

/-- The current frame of a stack. -/
def topFrame (calls : List (StackCall φ)) : Option φ :=
  calls.head?.map (·.frame)

/-- The frames of all stacks: each is on one stack, once, and no continuation of a current frame can be
    stolen. -/
structure CallStackInv (calls : δ → List (StackCall φ)) (stackOf : φ → Option δ) : Prop where
  frames : ∀ sf d, sf ∈ (calls d).map (·.frame) ↔ stackOf sf = some d
  nodup : ∀ d, ((calls d).map (·.frame)).Nodup
  top : ∀ d call, (calls d).head? = some call → call.detached = false

variable {calls : δ → List (StackCall φ)} {stackOf : φ → Option δ} [DecidableEq δ] [DecidableEq φ]

omit [DecidableEq φ] in
/-- A change of one stack that keeps its frames. -/
theorem CallStackInv.replace (inv : CallStackInv calls stackOf) {d : δ} {stack : List (StackCall φ)}
    (frames : stack.map (·.frame) = (calls d).map (·.frame))
    (top : ∀ call, stack.head? = some call → call.detached = false) :
    CallStackInv (setAt calls d stack) stackOf where
  frames sf e := by
    have := inv.frames sf e
    grind -linarith [setAt]
  nodup e := by
    have := inv.nodup e
    grind -linarith [setAt]
  top e := by
    have := inv.top e
    grind -linarith [setAt]

/-- A new frame is pushed. -/
theorem CallStackInv.push (inv : CallStackInv calls stackOf) {d : δ} {sf : φ} (fresh : stackOf sf = none) :
    CallStackInv (setAt calls d (⟨sf, false⟩ :: calls d)) (setAt stackOf sf (some d)) where
  frames sf' e := by
    have := inv.frames sf' e
    grind -linarith [setAt]
  nodup e := by
    have := inv.nodup e
    have := inv.frames sf e
    by_cases here : e = d
    · subst here
      simp only [setAt_self, List.map_cons, List.nodup_cons]
      grind -linarith
    · rwa [setAt_other here]
  top e := by
    have := inv.top e
    grind -linarith [setAt]

/-- The current frame is popped. -/
theorem CallStackInv.pop (inv : CallStackInv calls stackOf) {d : δ} {call : StackCall φ}
    {stack : List (StackCall φ)} (stack' : List (StackCall φ)) (isStack : calls d = call :: stack)
    (frames : stack'.map (·.frame) = stack.map (·.frame))
    (top : ∀ call, stack'.head? = some call → call.detached = false) :
    CallStackInv (setAt calls d stack') (setAt stackOf call.frame none) where
  frames sf' e := by
    have := inv.frames sf' e
    have := inv.frames sf' d
    have := inv.frames call.frame e
    have := inv.nodup d
    grind -linarith [setAt]
  nodup e := by
    have := inv.nodup e
    grind -linarith [setAt]
  top e := by
    have := inv.top e
    grind -linarith [setAt]

/-- The older frames of a stack leave it. -/
theorem CallStackInv.drop (inv : CallStackInv calls stackOf) {d : δ} (younger : List (StackCall φ))
    {older : List (StackCall φ)} (isStack : calls d = younger ++ older) :
    CallStackInv (setAt calls d younger) (clearFrames stackOf (older.map (·.frame))) where
  frames sf' e := by
    have := inv.frames sf' e
    have := inv.frames sf' d
    have := inv.nodup d
    rw [isStack, List.map_append, List.nodup_append] at this
    grind -linarith [setAt, clearFrames]
  nodup e := by
    have := inv.nodup e
    grind -linarith [setAt]
  top e := by
    have := inv.top e
    grind -linarith [setAt]

/-! ### Suspended strands -/

namespace PoolPc

/-- The worker saved its strand in the active deque, and has not left it. -/
@[simp, grind] def saves {ω δ : Type} : PoolPc ω δ → Bool
  | .choosing | .chosen _ | .mugging _ _ .suspend => true
  | .sched | .running | .published | .placing _ | .leaving _ | .spinning _ | .mugging _ _ (.resume _)
  | .mugging _ _ .jump | .mugging _ _ .empty | .waking _ _ | .sawWorker _ _ _ | .adding _ _ _
  | .marked _ _ | .jumping | .resumed => false

/-- The worker restored a strand or made a deque, and has not gone on with it. -/
@[simp, grind] def restores {ω δ : Type} : PoolPc ω δ → Bool
  | .placing _ | .leaving _ | .jumping | .resumed => true
  | .sched | .running | .published | .choosing | .chosen _ | .spinning _ | .mugging _ _ _ | .waking _ _
  | .sawWorker _ _ _ | .adding _ _ _ | .marked _ _ => false

/-- The worker has the fiber of its active deque, which it took from the deque. -/
@[simp, grind] def jumps {ω δ : Type} : PoolPc ω δ → Bool
  | .jumping | .resumed => true
  | .sched | .running | .published | .choosing | .chosen _ | .placing _ | .leaving _ | .spinning _
  | .mugging _ _ _ | .waking _ _ | .sawWorker _ _ _ | .adding _ _ _ | .marked _ _ => false

/-- The deque in whose frame the worker stored itself, before it is active. -/
@[simp, grind] def stored {ω δ : Type} : PoolPc ω δ → Option δ
  | .chosen (some d) | .spinning d | .marked d _ => some d
  | .sched | .running | .published | .choosing | .chosen none | .placing _ | .leaving _ | .mugging _ _ _
  | .waking _ _ | .sawWorker _ _ _ | .adding _ _ _ | .jumping | .resumed => none

end PoolPc

/-- What a deque keeps of the strand that was suspended on it. -/
structure Saved (s : DequePoolState ω δ φ ψ π) (d : δ) (record : Suspension φ ψ π) : Prop where
  live : s.live d = true
  callStack : s.callStack d = record.currentStackFrame
  top : topFrame (s.calls d) = record.currentStackFrame
  current : record.currentStackFrame ≠ none
  ltq : record.ltq = record.stolen.map Prod.fst ++ ltqOf (s.calls d)
  frameFf : s.frameFf d = (record.stolen.getLast?.map Prod.snd).or record.frameFf
  savedPed : (∀ w, s.activeDeque w = d → (s.pc w).restores = false) → s.savedPed d = record.pedigree

omit [DecidableEq δ] [DecidableEq φ] in
/-- A step that does not touch the deque. -/
theorem Saved.congr {s s' : DequePoolState ω δ φ ψ π} {d : δ} {record : Suspension φ ψ π}
    (saved : Saved s d record) (live : s'.live d = s.live d) (callStack : s'.callStack d = s.callStack d)
    (calls : s'.calls d = s.calls d) (frameFf : s'.frameFf d = s.frameFf d)
    (savedPed : s'.savedPed d = s.savedPed d)
    (restores : ∀ w, s.activeDeque w = d → s'.activeDeque w = d ∧ (s'.pc w).restores = (s.pc w).restores) :
    Saved s' d record where
  live := live ▸ saved.live
  callStack := callStack ▸ saved.callStack
  top := calls ▸ saved.top
  current := saved.current
  ltq := calls ▸ saved.ltq
  frameFf := frameFf ▸ saved.frameFf
  savedPed inactive := savedPed ▸ saved.savedPed fun w active => by
    obtain ⟨active', same⟩ := restores w active
    exact same ▸ inactive w active'

/-- What holds of a worker and its strand. -/
structure WorkerContext (s : DequePoolState ω δ φ ψ π) (w : ω) : Prop where
  pointers : s.pointers w = .to (s.activeDeque w)
  working : (s.pc w).saves = false → (s.pc w).restores = false → s.suspension (s.activeDeque w) = none
  saving : (s.pc w).saves = true → s.suspension (s.activeDeque w) ≠ none
  current : (s.pc w).onFiber = true →
    s.currentStackFrame w ≠ none ∧ s.currentStackFrame w = topFrame (s.calls (s.activeDeque w))
  idle : (s.pc w).onFiber = false → (s.pc w).restores = false → s.calls (s.activeDeque w) = []
  awaiting : (s.pc w).awaits = true →
    (∃ v, s.fiber (s.activeDeque w) = some (.scheduling v)) ∧ s.suspension (s.activeDeque w) = none ∧
        s.calls (s.activeDeque w) = [] ∨
      s.fiber (s.activeDeque w) = some .strand ∧ s.suspension (s.activeDeque w) ≠ none
  jumping : (s.pc w).jumps = true →
    s.fiber (s.activeDeque w) = none ∧ s.suspension (s.activeDeque w) ≠ none
  restored : (s.pc w).restores = true → s.savedPed (s.activeDeque w) = ⟨0, none⟩ ∧
    ∀ record, s.suspension (s.activeDeque w) = some record → s.pedigree w = record.pedigree ∧
      s.currentStackFrame w = record.currentStackFrame ∧
      ∀ sf, record.currentStackFrame = some sf → s.frameWorker sf = some w
  stored : ∀ d sf, (s.pc w).stored = some d → s.callStack d = some sf → s.frameWorker sf = some w

/-- The stacks, the strands of the workers and those that are suspended. -/
structure ContextInv (s : DequePoolState ω δ φ ψ π) : Prop where
  stack : CallStackInv s.calls s.stackOf
  dead : ∀ d, s.live d = false → s.calls d = []
  worker : ∀ w, WorkerContext s w
  saved : ∀ d record, s.suspension d = some record → Saved s d record
  inactive : ∀ d, s.live d = true → (∀ w, s.activeDeque w ≠ d) →
    s.fiber d = some .strand ∧ s.suspension d ≠ none

/-- A worker that stored itself in a deque's frame holds the deque. -/
theorem PoolPc.held_of_stored {ω δ : Type} {pc : PoolPc ω δ} {d : δ} (stored : pc.stored = some d) :
    pc.moves = some d ∨ pc.claims = some d := by
  cases pc with
  | chosen newDeque =>
      cases newDeque with
      | none => cases stored
      | some => exact .inl stored
  | spinning => exact .inl stored
  | marked => exact .inr stored
  | _ => cases stored

section Held

variable {s : DequePoolState ω δ φ ψ π} {place : δ → Place ω} {waker : δ → Waker ω}

omit [DecidableEq δ] [DecidableEq φ] in
/-- A deque that a worker moves or claims is active nowhere. -/
theorem PoolInv.held (inv : PoolInv s place waker) {w : ω} {d : δ}
    (holds : (s.pc w).moves = some d ∨ (s.pc w).claims = some d) :
    s.live d = true ∧ ∀ w', s.activeDeque w' ≠ d := by
  have fits := inv.deque d
  rcases holds with moves | claims
  · have moving := (inv.worker w).moves d moves
    rw [moving] at fits
    exact ⟨fits.1, inv.not_active (by simp [moving])⟩
  · have waiting := (inv.worker w).claims d claims
    rw [waiting] at fits
    exact ⟨fits.1, inv.not_active (by simp [waiting])⟩

omit [DecidableEq δ] [DecidableEq φ] in
/-- One worker at most moves or claims a deque. -/
theorem PoolInv.held_unique (inv : PoolInv s place waker) {w w' : ω} {d : δ}
    (holds : (s.pc w).moves = some d ∨ (s.pc w).claims = some d)
    (holds' : (s.pc w').moves = some d ∨ (s.pc w').claims = some d) : w' = w := by
  have moves := (inv.worker w).moves d
  have moves' := (inv.worker w').moves d
  have claims := (inv.worker w).claims d
  have claims' := (inv.worker w').claims d
  have wakes := inv.wakes d w
  have wakes' := inv.wakes d w'
  grind -linarith

omit [DecidableEq δ] [DecidableEq φ] in
/-- No two workers have the same active deque. -/
theorem PoolInv.activeDeque_injective (inv : PoolInv s place waker) {w w' : ω}
    (same : s.activeDeque w' = s.activeDeque w) : w' = w := by
  have active := (inv.worker w).active
  have active' := (inv.worker w').active
  rw [same, active] at active'
  grind -linarith

omit [DecidableEq δ] [DecidableEq φ] in
theorem PoolInv.live_activeDeque (inv : PoolInv s place waker) (w : ω) : s.live (s.activeDeque w) = true := by
  have fits := inv.deque (s.activeDeque w)
  rw [(inv.worker w).active] at fits
  exact fits.1

end Held

/-! ### The operations -/

variable [DecidableEq ω] {s : DequePoolState ω δ φ ψ π} {place : δ → Place ω} {waker : δ → Waker ω}

omit [DecidableEq δ] [DecidableEq φ] in
/-- A step that moves one worker on, and touches no strand. -/
theorem ContextInv.of_pc (inv : ContextInv s) {w : ω} {pc : PoolPc ω δ} {lock : ω → Option ω}
    {pools : ω → PoolKind → List δ} {self : δ → Int} {worker : δ → Option ω}
    {resumable fiberResumable handedOut : δ → Bool} (saves : pc.saves = (s.pc w).saves)
    (restores : pc.restores = (s.pc w).restores) (onFiber : pc.onFiber = (s.pc w).onFiber)
    (awaits : pc.awaits = (s.pc w).awaits) (jumps : pc.jumps = (s.pc w).jumps) (stored : pc.stored = none) :
    ContextInv { s with
      pc := setAt s.pc w pc
      lock := lock
      pools := pools
      self := self
      worker := worker
      resumable := resumable
      fiberResumable := fiberResumable
      handedOut := handedOut } where
  stack := inv.stack
  dead := inv.dead
  worker w' := by
    obtain ⟨pointers, working, saving, current, idle, awaiting, jumping, restored, isStored⟩ := inv.worker w'
    by_cases same : w' = w
    · subst same
      constructor <;> simp only [setAt_self, saves, restores, onFiber, awaits, jumps, stored]
      · exact pointers
      · exact working
      · exact saving
      · exact current
      · exact idle
      · exact awaiting
      · exact jumping
      · exact restored
      · rintro _ _ ⟨⟩
    · constructor <;> simp only [setAt_other same] <;> assumption
  saved d record suspended := by
    refine (inv.saved d record suspended).congr rfl rfl rfl rfl rfl fun w' active => ⟨active, ?_⟩
    grind -linarith [setAt]
  inactive := inv.inactive

omit [DecidableEq δ] [DecidableEq φ] [DecidableEq ω] in
/-- The current frame of a suspended strand is on its stack. -/
theorem ContextInv.stackOf_saved (inv : ContextInv s) {d : δ} (record : Suspension φ ψ π)
    (suspended : s.suspension d = some record) {sf : φ} (current : record.currentStackFrame = some sf) :
    s.stackOf sf = some d := by
  apply (inv.stack.frames sf d).1
  have top := (inv.saved d record suspended).top
  rw [current] at top
  obtain ⟨call, isTop, rfl⟩ := Option.map_eq_some_iff.1 top
  exact List.mem_map_of_mem (List.mem_of_head? isTop)

omit [DecidableEq δ] [DecidableEq φ] [DecidableEq ω] in
/-- The frame that a worker stored itself in is on the stack of the deque. -/
theorem ContextInv.stackOf_stored (inv : ContextInv s) (inPool : PoolInv s place waker) {w : ω} {d : δ} (sf : φ)
    (stored : (s.pc w).stored = some d) (callStack : s.callStack d = some sf) : s.stackOf sf = some d := by
  obtain ⟨isLive, notActive⟩ := inPool.held (PoolPc.held_of_stored stored)
  obtain ⟨record, suspended⟩ := Option.ne_none_iff_exists'.1 (inv.inactive d isLive notActive).2
  exact inv.stackOf_saved record suspended ((inv.saved d record suspended).callStack.symm.trans callStack)

/-- `__cilkrts_enter_frame`. -/
theorem ContextInv.of_enterFrame (inv : ContextInv s) (inPool : PoolInv s place waker) {w : ω} {sf : φ}
    (running : s.pc w = .running) (fresh : s.stackOf sf = none) :
    ContextInv (s.enterFrame w sf (s.calls (s.activeDeque w))) := by
  have onStack := inv.stack.frames sf
  have isLive := inPool.live_activeDeque
  have working := (inv.worker w).working (by simp [running]) (by simp [running])
  exact
    { stack := inv.stack.push fresh
      dead := by
        intro d isDead
        have := inv.dead d isDead
        have := isLive w
        simp only [DequePoolState.enterFrame] at isDead ⊢
        grind -linarith [setAt]
      worker := by
        intro w'
        have injective : s.activeDeque w' = s.activeDeque w → w' = w := inPool.activeDeque_injective
        have := inv.stackOf_saved (d := s.activeDeque w')
        have := fun d sf' => inv.stackOf_stored inPool (w := w') (d := d) sf'
        obtain ⟨pointers, works, saving, current, idle, awaiting, jumping, restored, stored⟩ := inv.worker w'
        simp only [DequePoolState.enterFrame]
        constructor <;> grind -linarith [setAt, topFrame]
      saved := by
        intro d record suspended
        have other : d ≠ s.activeDeque w := by
          rintro rfl
          cases working.symm.trans suspended
        exact (inv.saved d record suspended).congr rfl rfl (setAt_other other _ _) rfl rfl
          fun w' active => ⟨active, rfl⟩
      inactive := inv.inactive }

/-- A step of a running strand that replaces its stack, and keeps the frames of all others. -/
theorem ContextInv.of_frames (inv : ContextInv s) (inPool : PoolInv s place waker) {w : ω} {pc : PoolPc ω δ}
    {stack : List (StackCall φ)} {sf : φ} (current : Option φ) (ff : δ → Option ψ)
    (running : s.pc w = .running)
    (next : pc = .running ∧ current ≠ none ∧ current = topFrame stack ∨ pc = .sched ∧ stack = [])
    (isStack : CallStackInv (setAt s.calls (s.activeDeque w) stack) (setAt s.stackOf sf none))
    (frameFf : ∀ d, d ≠ s.activeDeque w → ff d = s.frameFf d) :
    ContextInv { s with
      pc := setAt s.pc w pc
      calls := setAt s.calls (s.activeDeque w) stack
      stackOf := setAt s.stackOf sf none
      currentStackFrame := setAt s.currentStackFrame w current
      frameFf := ff } := by
  have working := (inv.worker w).working (by simp [running]) (by simp [running])
  have isLive := inPool.live_activeDeque w
  exact
    { stack := isStack
      dead := by
        intro d isDead
        have := inv.dead d isDead
        grind -linarith [setAt]
      worker := by
        intro w'
        have injective : s.activeDeque w' = s.activeDeque w → w' = w := inPool.activeDeque_injective
        obtain ⟨pointers, works, saving, current, idle, awaiting, jumping, restored, stored⟩ := inv.worker w'
        rcases next with ⟨rfl, next⟩ | ⟨rfl, rfl⟩ <;> constructor <;> grind -linarith [setAt]
      saved := by
        intro d record suspended
        have other : d ≠ s.activeDeque w := by
          rintro rfl
          cases working.symm.trans suspended
        refine (inv.saved d record suspended).congr rfl rfl (setAt_other other _ _) (frameFf d other) rfl
          fun w' active => ⟨active, ?_⟩
        rcases next with ⟨rfl, -⟩ | ⟨rfl, rfl⟩ <;> grind -linarith [setAt]
      inactive := inv.inactive }

omit [DecidableEq φ] [DecidableEq ω] in
/-- The strand leaves the deque's calls alone, or detaches the function that called a helper. -/
theorem ContextInv.of_detach (inv : ContextInv s) (inPool : PoolInv s place waker) {w : ω}
    {stack : List (StackCall φ)} (running : s.pc w = .running)
    (frames : stack.map (·.frame) = (s.calls (s.activeDeque w)).map (·.frame))
    (top : ∀ call, stack.head? = some call → call.detached = false) :
    ContextInv (s.setCalls (s.activeDeque w) stack) := by
  have working := (inv.worker w).working (by simp [running]) (by simp [running])
  have isLive := inPool.live_activeDeque w
  have sameTop : topFrame stack = topFrame (s.calls (s.activeDeque w)) := by
    simp only [topFrame, ← List.head?_map, frames]
  exact
    { stack := inv.stack.replace frames top
      dead := by
        intro d isDead
        have := inv.dead d isDead
        grind -linarith [setAt]
      worker := by
        intro w'
        have injective : s.activeDeque w' = s.activeDeque w → w' = w := inPool.activeDeque_injective
        obtain ⟨pointers, works, saving, current, idle, awaiting, jumping, restored, stored⟩ := inv.worker w'
        constructor <;> grind -linarith [setAt]
      saved := by
        intro d record suspended
        have other : d ≠ s.activeDeque w := by
          rintro rfl
          cases working.symm.trans suspended
        exact (inv.saved d record suspended).congr rfl rfl (setAt_other other _ _) rfl rfl
          fun w' active => ⟨active, rfl⟩
      inactive := inv.inactive }

/-- `setup_for_execution` of a frame on the worker's empty deque. -/
theorem ContextInv.of_schedule (inv : ContextInv s) (inPool : PoolInv s place waker) {w : ω} {sf : φ} {ff : ψ}
    (isSched : s.pc w = .sched) (fresh : s.stackOf sf = none) :
    ContextInv { (s.enterFrame w sf []).setPc w .running with
      frameFf := setAt s.frameFf (s.activeDeque w) (some ff)
      fiberResumable := setAt s.fiberResumable (s.activeDeque w) false } := by
  have onStack := inv.stack.frames sf
  have isLive := inPool.live_activeDeque
  have working := (inv.worker w).working (by simp [isSched]) (by simp [isSched])
  have empty := (inv.worker w).idle (by simp [isSched]) (by simp [isSched])
  have pushed := inv.stack.push (d := s.activeDeque w) fresh
  rw [empty] at pushed
  exact
    { stack := pushed
      dead := by
        intro d isDead
        have := inv.dead d isDead
        have := isLive w
        simp only [DequePoolState.enterFrame] at isDead ⊢
        grind -linarith [setAt]
      worker := by
        intro w'
        have injective : s.activeDeque w' = s.activeDeque w → w' = w := inPool.activeDeque_injective
        have := inv.stackOf_saved (d := s.activeDeque w')
        have := fun d sf' => inv.stackOf_stored inPool (w := w') (d := d) sf'
        obtain ⟨pointers, works, saving, current, idle, awaiting, jumping, restored, stored⟩ := inv.worker w'
        simp only [DequePoolState.enterFrame]
        constructor <;> grind -linarith [setAt, topFrame]
      saved := by
        intro d record suspended
        have other : d ≠ s.activeDeque w := by
          rintro rfl
          cases working.symm.trans suspended
        refine (inv.saved d record suspended).congr rfl rfl (setAt_other other _ _) (setAt_other other _ _) rfl
          fun w' active => ⟨active, ?_⟩
        simp only [DequePoolState.enterFrame]
        grind -linarith [setAt]
      inactive := inv.inactive }

omit [DecidableEq δ] [DecidableEq φ] in
/-- The pedigree of a running strand changes. -/
theorem ContextInv.of_setPedigree (inv : ContextInv s) {w : ω} (running : s.pc w = .running)
    (pedigree : Pedigree π) : ContextInv { s with pedigree := setAt s.pedigree w pedigree } where
  stack := inv.stack
  dead := inv.dead
  worker w' := by
    obtain ⟨pointers, works, saving, current, idle, awaiting, jumping, restored, stored⟩ := inv.worker w'
    constructor <;> grind -linarith [setAt]
  saved d record suspended :=
    (inv.saved d record suspended).congr rfl rfl rfl rfl rfl fun w' active => ⟨active, rfl⟩
  inactive := inv.inactive

omit [DecidableEq φ] in
/-- The beginning of `deque_suspend`, with the strand still on the fiber of the active deque. -/
theorem ContextInv.of_saveStrand (inv : ContextInv s) (inPool : PoolInv s place waker) {w : ω}
    {pc : PoolPc ω δ} (resumable : δ → Bool) (onFiber : (s.pc w).onFiber = true)
    (working : (s.pc w).saves = false) (quiet : (s.pc w).restores = false)
    (next : pc = .choosing ∨ ∃ d, pc = .chosen (some d) ∧ (s.pc w).stored = some d) :
    ContextInv (({ s with resumable := resumable }.saveStrand w).setPc w pc) := by
  have classes : pc.saves = true ∧ pc.restores = false ∧ pc.onFiber = true ∧ pc.awaits = false ∧
      pc.jumps = false := by
    rcases next with rfl | ⟨d, rfl, -⟩ <;> exact ⟨rfl, rfl, rfl, rfl, rfl⟩
  have stored_pc : ∀ d, pc.stored = some d → (s.pc w).stored = some d := by
    rcases next with rfl | ⟨d, rfl, stored⟩
    · exact nofun
    · rintro e ⟨⟩
      exact stored
  clear next
  have isNew := (inv.worker w).working working quiet
  have isLive := inPool.live_activeDeque w
  have current_w := (inv.worker w).current onFiber
  simp only [DequePoolState.saveStrand]
  exact
    { stack := inv.stack
      dead := inv.dead
      worker := by
        intro w'
        have injective : s.activeDeque w' = s.activeDeque w → w' = w := inPool.activeDeque_injective
        have notActive := fun d (isStored : (s.pc w').stored = some d) =>
          (inPool.held (PoolPc.held_of_stored isStored)).2 w
        obtain ⟨pointers, works, saving, current, idle, awaiting, jumping, restored, stored⟩ := inv.worker w'
        constructor <;> grind -linarith [setAt]
      saved := by
        intro d record suspended
        by_cases here : d = s.activeDeque w
        · subst here
          simp only [setAt_self, Option.some.injEq] at suspended
          subst suspended
          refine ⟨isLive, setAt_self .., current_w.2.symm, current_w.1, rfl, rfl, fun _ => setAt_self ..⟩
        · simp only [setAt_other here] at suspended
          refine (inv.saved d record suspended).congr rfl (setAt_other here _ _) rfl rfl
            (setAt_other here _ _) fun w' active => ⟨active, ?_⟩
          have := fun same : w' = w => here (same ▸ active.symm)
          grind -linarith [setAt]
      inactive := by
        intro d live notActive
        have other : d ≠ s.activeDeque w := fun same => notActive w same.symm
        simpa only [setAt_other other] using inv.inactive d live notActive }

omit [DecidableEq δ] in
/-- The store into `call_stack->worker` of a deque that is active nowhere, and in whose frame no other worker
    stored itself. -/
theorem ContextInv.of_storeFrameWorker (inv : ContextInv s) (inPool : PoolInv s place waker) {w : ω}
    {pc : PoolPc ω δ} {d : δ} {lock : ω → Option ω} {resumable : δ → Bool} (isLive : s.live d = true)
    (notActive : ∀ w', s.activeDeque w' ≠ d)
    (alone : ∀ w', w' ≠ w → (s.pc w').stored ≠ some d) (saves : pc.saves = (s.pc w).saves)
    (restores : pc.restores = false) (old : (s.pc w).restores = false)
    (onFiber : pc.onFiber = (s.pc w).onFiber) (stored : pc.stored = some d ∨ pc.stored = none) :
    ContextInv { s with
      pc := setAt s.pc w pc
      lock := lock
      resumable := resumable
      frameWorker := (s.storeFrameWorker d w).frameWorker } := by
  obtain ⟨record, suspended_d⟩ := Option.ne_none_iff_exists'.1 (inv.inactive d isLive notActive).2
  obtain ⟨sf, callStack⟩ : ∃ sf, s.callStack d = some sf := by
    rw [← Option.ne_none_iff_exists', (inv.saved d record suspended_d).callStack]
    exact (inv.saved d record suspended_d).current
  have onStack : s.stackOf sf = some d :=
    inv.stackOf_saved record suspended_d ((inv.saved d record suspended_d).callStack.symm.trans callStack)
  have eq : (s.storeFrameWorker d w).frameWorker = setAt s.frameWorker sf (some w) := by
    simp only [DequePoolState.storeFrameWorker, callStack]
  rw [eq]
  have awaits : pc.awaits = false ∧ pc.jumps = false := by
    cases pc <;> simp_all
  exact
    { stack := inv.stack
      dead := inv.dead
      worker := by
        intro w'
        have := notActive w'
        have := alone w'
        have := inv.stackOf_saved (d := s.activeDeque w')
        have := fun d sf' => inv.stackOf_stored inPool (w := w') (d := d) sf'
        obtain ⟨pointers, works, saving, current, idle, awaiting, jumping, restored, isStored⟩ := inv.worker w'
        constructor <;> grind -linarith [setAt]
      saved := by
        intro e record suspended
        refine (inv.saved e record suspended).congr rfl rfl rfl rfl rfl fun w' active => ⟨active, ?_⟩
        grind -linarith [setAt]
      inactive := inv.inactive }

omit [DecidableEq ω] in
/-- A thief takes the frame at the head of a deque. -/
theorem ContextInv.of_detachForSteal {s' : DequePoolState ω δ φ ψ π} (inv : ContextInv s)
    (inPool : PoolInv s place waker) {d : δ} {child : ψ}
    (taken : s.detachForSteal d child = some s') : ContextInv s' := by
  simp only [DequePoolState.detachForSteal] at taken
  split at taken <;> cases taken
  rename_i younger head older found
  obtain ⟨call, rfl, detached, isStack⟩ := calls_of_headOf found
  have ltq := ltqOf_of_headOf found
  have dropped := inv.stack.drop younger isStack
  rw [List.map_cons] at dropped
  -- The current frame is not detached, so it stays.
  have nonempty : younger ≠ [] := by
    rintro rfl
    cases detached.symm.trans (inv.stack.top d call (by rw [isStack]; rfl))
  have notEmpty : s.calls d ≠ [] := by simp [isStack]
  have top : topFrame younger = topFrame (s.calls d) := by
    rw [isStack]
    cases younger with
    | nil => exact absurd rfl nonempty
    | cons => rfl
  have cleared (sf : φ) (e : δ) (onStack : s.stackOf sf = some e)
      (keeps : e = d → topFrame (s.calls d) = some sf) :
      sf ∉ call.frame :: older.map (·.frame) := by
    intro member
    have inStack : sf ∈ (s.calls d).map (·.frame) := by
      rw [isStack, List.map_append, List.map_cons]
      exact List.mem_append_right _ member
    have same := (inv.stack.frames sf d).1 inStack
    obtain rfl : e = d := Option.some.inj (onStack.symm.trans same)
    have isTop := keeps rfl
    rw [← top] at isTop
    obtain ⟨first, isFirst, rfl⟩ := Option.map_eq_some_iff.1 isTop
    have nodup := inv.stack.nodup e
    rw [isStack, List.map_append, List.nodup_append, List.map_cons] at nodup
    exact nodup.2.2 _ (List.mem_map_of_mem (List.mem_of_head? isFirst)) _ member rfl
  have suspendedIff (e : δ) : setAt s.suspension d ((s.suspension d).map fun record =>
      { record with stolen := record.stolen ++ [(call.frame, child)] }) e = none ↔ s.suspension e = none := by
    by_cases here : e = d
    · subst here
      simp
    · rw [setAt_other here]
  exact
    { stack := dropped
      dead := by
        intro e isDead
        have other : e ≠ d := fun same => notEmpty (same ▸ inv.dead e isDead)
        simpa only [setAt_other other] using inv.dead e isDead
      worker := by
        intro w'
        have frame := inv.stackOf_saved (d := s.activeDeque w')
        have frame' := fun d sf' => inv.stackOf_stored inPool (w := w') (d := d) sf'
        have topSaved := fun e record suspended => (inv.saved e record suspended).top
        have topStored (e : δ) (sf : φ) (isStored : (s.pc w').stored = some e)
            (callStack : s.callStack e = some sf) : topFrame (s.calls e) = some sf := by
          obtain ⟨live, notActive⟩ := inPool.held (PoolPc.held_of_stored isStored)
          obtain ⟨record, suspended⟩ := Option.ne_none_iff_exists'.1 (inv.inactive e live notActive).2
          have saved := inv.saved e record suspended
          exact saved.top.trans (saved.callStack.symm.trans callStack)
        have suspended' := suspendedIff (s.activeDeque w')
        obtain ⟨pointers, works, saving, current, idle, awaiting, jumping, restored, isStored⟩ := inv.worker w'
        constructor
        · exact pointers
        · exact fun notSaving quiet => suspended'.2 (works notSaving quiet)
        · exact fun saves => mt suspended'.1 (saving saves)
        · grind -linarith [setAt]
        · grind -linarith [setAt]
        · intro awaits
          rcases awaiting awaits with ⟨isNew, notSuspended, empty⟩ | ⟨strand, isSuspended⟩
          · have other : s.activeDeque w' ≠ d := fun same => notEmpty (same ▸ empty)
            exact .inl ⟨isNew, suspended'.2 notSuspended, by simpa only [setAt_other other] using empty⟩
          · exact .inr ⟨strand, mt suspended'.1 isSuspended⟩
        · exact fun jumps => ⟨(jumping jumps).1, mt suspended'.1 (jumping jumps).2⟩
        · intro restores
          obtain ⟨savedPed, known⟩ := restored restores
          refine ⟨savedPed, fun record suspended => ?_⟩
          obtain ⟨old, isOld, sameRecord⟩ : ∃ old, s.suspension (s.activeDeque w') = some old ∧
              record.pedigree = old.pedigree ∧ record.currentStackFrame = old.currentStackFrame := by
            by_cases here : s.activeDeque w' = d
            · simp only [here, setAt_self, Option.map_eq_some_iff] at suspended ⊢
              obtain ⟨old, isOld, rfl⟩ := suspended
              exact ⟨old, isOld, rfl, rfl⟩
            · simp only [setAt_other here] at suspended
              exact ⟨record, suspended, rfl, rfl⟩
          obtain ⟨pedigree, currentFrame, frameWorker⟩ := known old isOld
          rw [sameRecord.1, sameRecord.2]
          refine ⟨pedigree, currentFrame, fun sf isCurrent => ?_⟩
          simp only [clearFrames]
          rw [if_neg (cleared sf _ (frame old isOld isCurrent) fun same =>
            (same ▸ topSaved _ old isOld).trans isCurrent)]
          exact frameWorker sf isCurrent
        · intro e sf stored callStack
          simp only [clearFrames]
          rw [if_neg (cleared sf e (frame' e sf stored callStack) fun same =>
            same ▸ topStored e sf stored callStack)]
          exact isStored e sf stored callStack
      saved := by
        intro e record suspended
        by_cases here : e = d
        · subst here
          simp only [setAt_self, Option.map_eq_some_iff] at suspended
          obtain ⟨old, isOld, rfl⟩ := suspended
          obtain ⟨live, callStack, oldTop, current, oldLtq, frameFf, savedPed⟩ := inv.saved e old isOld
          exact
            { live := live
              callStack := callStack
              top := by simpa only [setAt_self, top] using oldTop
              current := current
              ltq := by simp [oldLtq, ltq]
              frameFf := by simp
              savedPed := savedPed }
        · simp only [setAt_other here] at suspended
          exact (inv.saved e record suspended).congr rfl rfl (setAt_other here _ _) (setAt_other here _ _) rfl
            fun w' active => ⟨active, rfl⟩
      inactive := by
        intro e live notActive
        obtain ⟨fiber, suspended⟩ := inv.inactive e live notActive
        exact ⟨fiber, mt (suspendedIff e).1 suspended⟩ }

omit [DecidableEq δ] in
/-- A deque that is active nowhere after a switch, and not the one that was left. -/
theorem not_active_of_switch {activeDeque : ω → δ} {w : ω} {d e : δ}
    (inactive : ∀ w', setAt activeDeque w d w' ≠ e) (left : e ≠ activeDeque w) :
    e ≠ d ∧ ∀ w', activeDeque w' ≠ e := by
  refine ⟨?_, fun w' => ?_⟩
  · rintro rfl
    exact inactive w (setAt_self ..)
  · by_cases same : w' = w
    · rw [same]
      exact left.symm
    · have := inactive w'
      rwa [setAt_other same] at this

/-- `deque_suspend` switches to a deque that the worker took over. -/
theorem ContextInv.of_switchOver (inv : ContextInv s) (inPool : PoolInv s place waker) {w : ω} {d : δ}
    (chosen : s.pc w = .chosen (some d)) :
    ContextInv ({ s with resumable := setAt s.resumable d false }.switchTo w d) := by
  obtain ⟨isLive, notActive⟩ := inPool.held (w := w) (d := d) (.inl (by simp [chosen]))
  obtain ⟨fiber, isSuspended⟩ := inv.inactive d isLive notActive
  obtain ⟨record, suspended_d⟩ := Option.ne_none_iff_exists'.1 isSuspended
  have saved_d := inv.saved d record suspended_d
  have pedigree_d := saved_d.savedPed fun w' active => absurd active (notActive w')
  have saving_w := (inv.worker w).saving (by simp [chosen])
  have stored_w := (inv.worker w).stored d
  have moves : (s.pc w).moves = some d ∨ (s.pc w).claims = some d := .inl (by simp [chosen])
  have unique := fun w' (holds : (s.pc w').moves = some d ∨ (s.pc w').claims = some d) =>
    inPool.held_unique moves holds
  simp only [DequePoolState.switchTo, DequePoolState.dequeSwitch, setAt_self, Bool.false_eq_true, if_false]
  exact
    { stack := inv.stack
      dead := inv.dead
      worker := by
        intro w'
        have injective : s.activeDeque w' = s.activeDeque w → w' = w := inPool.activeDeque_injective
        have := notActive w'
        have := saved_d.callStack
        obtain ⟨pointers, works, saving, current, idle, awaiting, jumping, restored, stored⟩ := inv.worker w'
        by_cases same : w' = w
        · subst same
          constructor <;> grind -linarith [setAt]
        · constructor <;> grind -linarith [setAt]
      saved := by
        intro e record' suspended
        obtain ⟨live, callStack, top, current, ltq, frameFf, savedPed⟩ := inv.saved e record' suspended
        refine ⟨live, callStack, top, current, ltq, frameFf, fun inactive => ?_⟩
        have here : e ≠ d := by
          rintro rfl
          have := inactive w (setAt_self ..)
          simp at this
        simp only [setAt_other here]
        refine savedPed fun w' active => ?_
        by_cases same : w' = w
        · rw [same, chosen]
          rfl
        · have := inactive w' (by simpa only [setAt_other same] using active)
          simpa only [setAt_other same] using this
      inactive := by
        intro e live inactive
        by_cases left : e = s.activeDeque w
        · subst left
          exact ⟨setAt_self .., saving_w⟩
        · simp only [setAt_other left]
          exact inv.inactive e live (not_active_of_switch inactive left).2 }

/-- `deque_suspend` switches to a new deque. -/
theorem ContextInv.of_switchNew (inv : ContextInv s) (inPool : PoolInv s place waker) {w : ω} {d : δ}
    (chosen : s.pc w = .chosen none) (free : s.live d = false) :
    ContextInv ((s.dequeInit w d).switchTo w d) := by
  have empty := inv.dead d free
  have saving_w := (inv.worker w).saving (by simp [chosen])
  have other : s.activeDeque w ≠ d := by
    rintro rfl
    exact nomatch free.symm.trans (inPool.live_activeDeque w)
  have sameCalls : setAt s.calls d [] = s.calls := by
    funext e
    by_cases here : e = d
    · rw [here, setAt_self, empty]
    · rw [setAt_other here]
  simp only [DequePoolState.switchTo, DequePoolState.dequeSwitch, DequePoolState.dequeInit, setAt_self,
    Bool.false_eq_true, if_false, sameCalls, if_true]
  exact
    { stack := inv.stack
      dead := by
        intro e isDead
        have := inv.dead e
        grind -linarith [setAt]
      worker := by
        intro w'
        have injective : s.activeDeque w' = s.activeDeque w → w' = w := inPool.activeDeque_injective
        have := inPool.live_activeDeque w'
        have := fun e (stored : (s.pc w').stored = some e) => (inPool.held (PoolPc.held_of_stored stored)).1
        obtain ⟨pointers, works, saving, current, idle, awaiting, jumping, restored, stored⟩ := inv.worker w'
        by_cases same : w' = w
        · subst same
          constructor <;> grind -linarith [setAt]
        · constructor <;> grind -linarith [setAt]
      saved := by
        intro e record suspended
        have here : e ≠ d := by
          rintro rfl
          simp at suspended
        simp only [setAt_other here] at suspended
        obtain ⟨live, callStack, top, current, ltq, frameFf, savedPed⟩ := inv.saved e record suspended
        constructor
        · simpa only [setAt_other here] using live
        · simpa only [setAt_other here] using callStack
        · exact top
        · exact current
        · exact ltq
        · simpa only [setAt_other here] using frameFf
        · intro inactive
          simp only [setAt_other here]
          refine savedPed fun w' active => ?_
          by_cases same : w' = w
          · rw [same, chosen]
            rfl
          · have := inactive w' (by simpa only [setAt_other same] using active)
            simpa only [setAt_other same] using this
      inactive := by
        intro e live inactive
        by_cases left : e = s.activeDeque w
        · subst left
          refine ⟨setAt_self .., ?_⟩
          simpa only [setAt_other other] using saving_w
        · obtain ⟨here, notActive⟩ := not_active_of_switch inactive left
          simp only [setAt_other left, setAt_other here] at live ⊢
          exact inv.inactive e live notActive }

omit [DecidableEq φ] in
/-- The fiber switch after `deque_suspend`, to the scheduling fiber or to that of a strand. -/
theorem ContextInv.of_switchFiber (inv : ContextInv s) (inPool : PoolInv s place waker) {w : ω} {pc : PoolPc ω δ}
    {old : δ} {fiberResumable : δ → Bool} (leaving : s.pc w = .leaving old)
    (next : (∃ v, s.fiber (s.activeDeque w) = some (.scheduling v)) ∧ pc = .sched ∨
      s.fiber (s.activeDeque w) = some .strand ∧ pc = .resumed) :
    ContextInv { s with
      pc := setAt s.pc w pc
      fiber := setAt s.fiber (s.activeDeque w) none
      fiberResumable := fiberResumable } where
  stack := inv.stack
  dead := inv.dead
  worker w' := by
    have injective : s.activeDeque w' = s.activeDeque w → w' = w := inPool.activeDeque_injective
    have top := fun record suspended => (inv.saved (s.activeDeque w') record suspended).top
    have nonempty := fun record suspended => (inv.saved (s.activeDeque w') record suspended).current
    have isSome : s.suspension (s.activeDeque w') ≠ none → ∃ record, s.suspension (s.activeDeque w') =
        some record := Option.ne_none_iff_exists'.1
    obtain ⟨pointers, works, saving, current, idle, awaiting, jumping, restored, stored⟩ := inv.worker w'
    by_cases same : w' = w
    · subst same
      rcases next with ⟨⟨v, isNew⟩, rfl⟩ | ⟨strand, rfl⟩ <;> constructor <;> grind -linarith [setAt]
    · constructor <;> grind -linarith [setAt]
  saved d record suspended := by
    obtain ⟨live, callStack, top, current, ltq, frameFf, savedPed⟩ := inv.saved d record suspended
    refine ⟨live, callStack, top, current, ltq, frameFf, fun inactive => savedPed fun w' active => ?_⟩
    have quiet := inactive w' active
    have awaiting := (inv.worker w).awaiting
    by_cases same : w' = w
    · subst same
      subst active
      rcases next with ⟨⟨v, isNew⟩, rfl⟩ | ⟨strand, rfl⟩ <;> grind -linarith [setAt]
    · simpa only [setAt_other same] using quiet
  inactive d live notActive := by
    have other : d ≠ s.activeDeque w := (notActive w).symm
    simpa only [setAt_other other] using inv.inactive d live notActive

/-- The active deque is destroyed, and one that the worker holds takes its place. -/
theorem ContextInv.of_switchAndDestroy (inv : ContextInv s) (inPool : PoolInv s place waker) {w : ω} {d : δ}
    (quiet : (s.pc w).saves = false ∧ (s.pc w).restores = false) (stored_w : (s.pc w).stored = some d) :
    ContextInv { s.switchAndDestroy w d with fiber := setAt s.fiber d none } := by
  obtain ⟨isLive, notActive⟩ := inPool.held (PoolPc.held_of_stored stored_w)
  obtain ⟨fiber, isSuspended⟩ := inv.inactive d isLive notActive
  obtain ⟨record, suspended_d⟩ := Option.ne_none_iff_exists'.1 isSuspended
  have saved_d := inv.saved d record suspended_d
  have pedigree_d := saved_d.savedPed fun w' active => absurd active (notActive w')
  have working_w := (inv.worker w).working quiet.1 quiet.2
  have storedFrame := fun sf => (inv.worker w).stored d sf stored_w
  have popped := inv.stack.drop (d := s.activeDeque w) [] rfl
  simp only [DequePoolState.switchAndDestroy, DequePoolState.dequeSwitch, DequePoolState.dequeDestroy, setAt_self,
    Bool.false_eq_true, if_false]
  exact
    { stack := popped
      dead := by
        intro e isDead
        have := inv.dead e
        grind -linarith [setAt]
      worker := by
        intro w'
        have injective : s.activeDeque w' = s.activeDeque w → w' = w := inPool.activeDeque_injective
        have := notActive w'
        have := saved_d.callStack
        obtain ⟨pointers, works, saving, current, idle, awaiting, jumping, restored, stored⟩ := inv.worker w'
        by_cases same : w' = w
        · subst same
          constructor <;> grind -linarith [setAt]
        · constructor <;> grind -linarith [setAt]
      saved := by
        intro e record' suspended
        have left : e ≠ s.activeDeque w := by
          rintro rfl
          cases working_w.symm.trans suspended
        obtain ⟨live, callStack, top, current, ltq, frameFf, savedPed⟩ := inv.saved e record' suspended
        constructor
        · simpa only [setAt_other left] using live
        · exact callStack
        · simpa only [setAt_other left] using top
        · exact current
        · simpa only [setAt_other left] using ltq
        · exact frameFf
        · intro inactive
          have here : e ≠ d := by
            rintro rfl
            have := inactive w (setAt_self ..)
            simp at this
          simp only [setAt_other here]
          refine savedPed fun w' active => ?_
          by_cases same : w' = w
          · rw [same]
            exact quiet.2
          · have := inactive w' (by simpa only [setAt_other same] using active)
            simpa only [setAt_other same] using this
      inactive := by
        intro e live inactive
        by_cases left : e = s.activeDeque w
        · subst left
          simp at live
        · obtain ⟨here, notActive⟩ := not_active_of_switch inactive left
          simp only [setAt_other left, setAt_other here] at live ⊢
          exact inv.inactive e live notActive }

omit [DecidableEq δ] [DecidableEq φ] in
/-- The fiber switch of a worker whose active deque is the resumed one. -/
theorem ContextInv.of_jump (inv : ContextInv s) {w : ω} (isJumping : s.pc w = .jumping)
    {fiberResumable : δ → Bool} :
    ContextInv { s.setPc w .resumed with fiberResumable := fiberResumable } where
  stack := inv.stack
  dead := inv.dead
  worker w' := by
    have top := fun record suspended => (inv.saved (s.activeDeque w') record suspended).top
    have nonempty := fun record suspended => (inv.saved (s.activeDeque w') record suspended).current
    have isSome : s.suspension (s.activeDeque w') ≠ none → ∃ record, s.suspension (s.activeDeque w') =
        some record := Option.ne_none_iff_exists'.1
    obtain ⟨pointers, works, saving, current, idle, awaiting, jumping, restored, stored⟩ := inv.worker w'
    by_cases same : w' = w
    · subst same
      constructor <;> grind -linarith [setAt]
    · constructor <;> grind -linarith [setAt]
  saved d record suspended := by
    refine (inv.saved d record suspended).congr rfl rfl rfl rfl rfl fun w' active => ⟨active, ?_⟩
    grind -linarith [setAt]
  inactive := inv.inactive

omit [DecidableEq φ] in
/-- The strand goes on. -/
theorem ContextInv.of_goOn (inv : ContextInv s) (inPool : PoolInv s place waker) {w : ω}
    (isResumed : s.pc w = .resumed) :
    ContextInv { s.setPc w .running with suspension := setAt s.suspension (s.activeDeque w) none } where
  stack := inv.stack
  dead := inv.dead
  worker w' := by
    have injective : s.activeDeque w' = s.activeDeque w → w' = w := inPool.activeDeque_injective
    obtain ⟨pointers, works, saving, current, idle, awaiting, jumping, restored, stored⟩ := inv.worker w'
    by_cases same : w' = w
    · subst same
      constructor <;> grind -linarith [setAt]
    · have other : s.activeDeque w' ≠ s.activeDeque w := fun eq => same (injective eq)
      constructor <;> simp only [setAt_other same, setAt_other other] <;> assumption
  saved d record suspended := by
    have other : d ≠ s.activeDeque w := by
      rintro rfl
      simp at suspended
    simp only [setAt_other other] at suspended
    refine (inv.saved d record suspended).congr rfl rfl rfl rfl rfl fun w' active => ⟨active, ?_⟩
    have notSame : w' ≠ w := by
      rintro rfl
      exact other active.symm
    simp only [setAt_other notSame]
  inactive d live notActive := by
    have other : d ≠ s.activeDeque w := (notActive w).symm
    simpa only [setAt_other other] using inv.inactive d live notActive

/-! ### Every step -/

/-- A thief's store into the frame of the empty deque that it mugged comes before that of the worker that
    resumes the deque. -/
def StoreInTime (s : DequePoolState ω δ φ ψ π) (label : PoolLabel ω δ φ ψ π) : Prop :=
  ∀ w d v, label = .mugStore w → s.pc w = .mugging d v .empty →
    s.live d = true ∧ ∀ w', s.activeDeque w' ≠ d ∧ (s.pc w').stored ≠ some d

omit [DecidableEq δ] [DecidableEq φ] [DecidableEq ω] in
/-- At the start no strand is suspended. -/
theorem ContextInv.of_start (initial : s.Initial) : ContextInv s := by
  obtain ⟨workers, deques, frames⟩ := initial
  have calls (d : δ) : s.calls d = [] ∨ ∃ w sf, s.activeDeque w = d ∧ s.calls d = [⟨sf, false⟩] := by
    cases isLive : s.live d with
    | false => exact .inl ((deques d).2.2.2.2.2.2.2 isLive)
    | true =>
        obtain ⟨w, rfl⟩ := (deques d).2.2.2.2.2.2.1 isLive
        rcases (workers w).2.2.2.2.2.2 with ⟨-, empty⟩ | ⟨-, sf, isStack, -⟩
        · exact .inl empty
        · exact .inr ⟨w, sf, rfl, isStack⟩
  have notSuspended (d : δ) : s.suspension d = none := (deques d).2.2.2.2.2.1
  exact
    { stack := by
        constructor
        · exact frames
        · intro d
          rcases calls d with empty | ⟨w, sf, -, isStack⟩ <;> simp [*]
        · intro d call
          rcases calls d with empty | ⟨w, sf, -, isStack⟩
          · simp [empty]
          · rw [isStack]
            rintro ⟨⟩
            rfl
      dead := fun d => (deques d).2.2.2.2.2.2.2
      worker := by
        intro w
        have isPointers := (workers w).1
        rcases (workers w).2.2.2.2.2.2 with ⟨isSched, empty⟩ | ⟨isRunning, sf, isStack, isCurrent⟩
        · constructor <;> simp [isSched, isPointers, notSuspended, empty]
        · constructor <;> simp [isRunning, isPointers, notSuspended, isStack, isCurrent, topFrame]
      saved := by
        intro d record suspended
        exact nomatch (notSuspended d).symm.trans suspended
      inactive := by
        intro d isLive notActive
        obtain ⟨w, active⟩ := (deques d).2.2.2.2.2.2.1 isLive
        exact absurd active (notActive w) }

/-- Every step whose store is in time keeps what the deques saved. -/
theorem ContextInv.of_step {s' : DequePoolState ω δ φ ψ π} {label : PoolLabel ω δ φ ψ π} (inv : ContextInv s)
    (inPool : PoolInv s place waker) (inTime : StoreInTime s label) (taken : poolStep s label = some s') :
    ContextInv s' := by
  cases label with
  | enterFrame w sf =>
      simp only [poolStep, Option.ite_none_right_eq_some, Option.some.injEq] at taken
      obtain ⟨⟨running, fresh⟩, rfl⟩ := taken
      exact inv.of_enterFrame inPool running fresh
  | detach w =>
      simp only [poolStep] at taken
      split at taken <;> cases taken
      rename_i helper parent calls running isStack
      apply inv.of_detach inPool running
      · simp [isStack]
      · rintro _ ⟨⟩
        exact inv.stack.top (s.activeDeque w) helper (by rw [isStack]; rfl)
  | leaveFrame w =>
      simp only [poolStep] at taken
      split at taken <;> cases taken
      rename_i sf detached parent detached' calls running isStack
      have popped := inv.stack.pop (⟨parent, false⟩ :: calls) isStack rfl (by rintro call ⟨⟩; rfl)
      have left := inv.of_frames inPool (some parent) s.frameFf running
        (.inl ⟨rfl, (by rintro ⟨⟩), rfl⟩) popped (fun _ _ => rfl)
      have samePc : setAt s.pc w .running = s.pc := by
        funext w'
        grind -linarith [setAt]
      rwa [samePc] at left
  | finish w =>
      simp only [poolStep] at taken
      split at taken <;> cases taken
      rename_i sf detached running isStack
      have popped := inv.stack.pop [] isStack rfl (by rintro _ ⟨⟩)
      have ended := inv.of_frames inPool (s.currentStackFrame w)
        (setAt s.frameFf (s.activeDeque w) none) running (.inr ⟨rfl, rfl⟩) popped
        (fun d other => setAt_other other _ _)
      have same : setAt s.currentStackFrame w (s.currentStackFrame w) = s.currentStackFrame := by
        funext w'
        grind -linarith [setAt]
      rwa [same] at ended
  | schedule w sf ff =>
      simp only [poolStep, Option.ite_none_right_eq_some, Option.some.injEq] at taken
      obtain ⟨⟨isSched, fresh⟩, rfl⟩ := taken
      exact inv.of_schedule inPool isSched fresh
  | setPedigree w pedigree =>
      simp only [poolStep, Option.ite_none_right_eq_some, Option.some.injEq] at taken
      obtain ⟨running, rfl⟩ := taken
      exact inv.of_setPedigree running pedigree
  | publish w =>
      simp only [poolStep, Option.ite_none_right_eq_some, Option.some.injEq] at taken
      obtain ⟨running, rfl⟩ := taken
      apply inv.of_pc <;> simp [running]
  | suspend w =>
      simp only [poolStep, Option.ite_none_right_eq_some, Option.some.injEq] at taken
      obtain ⟨isPublished, rfl⟩ := taken
      apply inv.of_saveStrand inPool s.resumable <;> simp [isPublished]
  | checkPool w =>
      simp only [poolStep, Option.ite_none_right_eq_some] at taken
      obtain ⟨⟨choosing, -⟩, taken⟩ := taken
      split at taken <;> cases taken <;> apply inv.of_pc <;> simp [choosing]
  | mugStore w =>
      simp only [poolStep] at taken
      split at taken <;> cases taken
      rename_i d victim caller mugging
      cases caller with
      | empty =>
          obtain ⟨isLive, free⟩ := inTime w d victim rfl mugging
          apply inv.of_storeFrameWorker inPool isLive (fun w' => (free w').1) (fun w' _ => (free w').2) <;>
            simp [mugging]
      | suspend =>
          obtain ⟨isLive, notActive⟩ := inPool.held (w := w) (d := d) (by simp [mugging])
          apply inv.of_storeFrameWorker inPool isLive notActive
            (fun w' other isStored => other (inPool.held_unique (by simp [mugging])
              (PoolPc.held_of_stored isStored))) <;> simp [mugging]
      | resume enable =>
          obtain ⟨isLive, notActive⟩ := inPool.held (w := w) (d := d) (by simp [mugging])
          apply inv.of_storeFrameWorker inPool isLive notActive
            (fun w' other isStored => other (inPool.held_unique (by simp [mugging])
              (PoolPc.held_of_stored isStored))) <;> simp [mugging]
      | jump =>
          obtain ⟨isLive, notActive⟩ := inPool.held (w := w) (d := d) (by simp [mugging])
          apply inv.of_storeFrameWorker inPool isLive notActive
            (fun w' other isStored => other (inPool.held_unique (by simp [mugging])
              (PoolPc.held_of_stored isStored))) <;> simp [mugging]
  | switchDeque w newDeque stolen =>
      simp only [poolStep, Option.ite_none_right_eq_some] at taken
      obtain ⟨-, taken⟩ := taken
      split at taken
      · rename_i d chosen
        simp only [Option.ite_none_right_eq_some, Option.some.injEq] at taken
        obtain ⟨-, rfl⟩ := taken
        exact inv.of_switchOver inPool chosen
      · rename_i chosen
        simp only [Option.ite_none_right_eq_some] at taken
        obtain ⟨free, taken⟩ := taken
        have switched := inv.of_switchNew inPool chosen free
        split at taken
        · exact switched.of_detachForSteal (inPool.of_switchNew chosen free) taken
        · cases taken
          exact switched
      · cases taken
  | place w victim =>
      simp only [poolStep] at taken
      split at taken
      case h_2 => cases taken
      rename_i d placing
      split at taken
      · simp only [Option.ite_none_right_eq_some, Option.some.injEq] at taken
        obtain ⟨-, rfl⟩ := taken
        apply inv.of_pc <;> simp [placing]
      · cases taken
        apply inv.of_pc <;> simp [placing]
  | switchFiber w =>
      simp only [poolStep] at taken
      split at taken
      case h_2 => cases taken
      rename_i old leaving
      split at taken
      · rename_i v isNew
        cases taken
        exact inv.of_switchFiber inPool leaving (.inl ⟨⟨v, isNew⟩, rfl⟩)
      · rename_i strand
        simp only [Option.ite_none_right_eq_some, Option.some.injEq] at taken
        obtain ⟨-, rfl⟩ := taken
        exact inv.of_switchFiber inPool leaving (.inr ⟨strand, rfl⟩)
      · cases taken
  | wake w d wake =>
      simp only [poolStep, Option.ite_none_right_eq_some, Option.some.injEq] at taken
      obtain ⟨⟨-, caller⟩, rfl⟩ := taken
      rcases wake with ⟨_ | _⟩ | ⟨_ | _ | _⟩ <;> apply inv.of_pc <;> simp [caller, Wake.caller]
  | readWorker w =>
      simp only [poolStep] at taken
      split at taken
      case h_2 => cases taken
      rename_i d wake waking
      simp only [Option.ite_none_right_eq_some, Option.some.injEq] at taken
      obtain ⟨-, rfl⟩ := taken
      apply inv.of_pc <;> simp [waking]
  | lockWorker w =>
      simp only [poolStep] at taken
      split at taken
      case h_2 => cases taken
      rename_i d wake victim saw
      simp only [Option.ite_none_right_eq_some] at taken
      obtain ⟨-, taken⟩ := taken
      split at taken
      · cases wake with
        | makeResumable inLoop =>
            cases taken
            cases inLoop <;> apply inv.of_pc <;> simp [saw]
        | resume enable =>
            cases taken
            apply inv.of_pc <;> simp [saw]
      · cases taken
        apply inv.of_pc <;> simp [saw]
  | makeFree w victim =>
      simp only [poolStep] at taken
      split at taken <;> cases taken
      rename_i d inLoop saw
      cases inLoop <;> apply inv.of_pc <;> simp [saw]
  | addFree w =>
      simp only [poolStep] at taken
      split at taken
      case h_2 => cases taken
      rename_i d victim inLoop adding
      simp only [Option.ite_none_right_eq_some, Option.some.injEq] at taken
      obtain ⟨-, rfl⟩ := taken
      cases inLoop <;> apply inv.of_pc <;> simp [adding]
  | mark w =>
      simp only [poolStep] at taken
      split at taken <;> cases taken
      rename_i d enable saw
      obtain ⟨isLive, notActive⟩ := inPool.held (w := w) (d := d) (by simp [saw])
      apply inv.of_storeFrameWorker inPool isLive notActive
        (fun w' other isStored => other (inPool.held_unique (by simp [saw])
          (PoolPc.held_of_stored isStored))) <;> simp [saw]
  | resumeDestroy w =>
      simp only [poolStep] at taken
      split at taken
      case h_2 => cases taken
      rename_i d marked
      simp only [Option.ite_none_right_eq_some, Option.some.injEq] at taken
      obtain ⟨-, rfl⟩ := taken
      apply inv.of_switchAndDestroy inPool <;> simp [marked]
  | resumeSuspend w =>
      simp only [poolStep] at taken
      split at taken <;> cases taken <;> apply inv.of_saveStrand inPool _ <;> simp [*]
  | steal w victim d child =>
      simp only [poolStep, Option.ite_none_right_eq_some] at taken
      exact inv.of_detachForSteal inPool taken.2
  | mugEmpty w victim d =>
      simp only [poolStep, Option.ite_none_right_eq_some, Option.some.injEq] at taken
      obtain ⟨⟨isSched, -⟩, rfl⟩ := taken
      apply inv.of_pc <;> simp [isSched]
  | jumpMug w victim =>
      simp only [poolStep, Option.ite_none_right_eq_some] at taken
      obtain ⟨⟨isSched, -⟩, taken⟩ := taken
      split at taken <;> cases taken
      apply inv.of_pc <;> simp [isSched]
  | jumpSwitch w =>
      simp only [poolStep] at taken
      split at taken
      case h_2 => cases taken
      rename_i d spinning
      simp only [Option.ite_none_right_eq_some, Option.some.injEq] at taken
      obtain ⟨-, rfl⟩ := taken
      have switched := inv.of_switchAndDestroy (w := w) (d := d) inPool (by simp [spinning]) (by simp [spinning])
      exact switched
  | jump w =>
      simp only [poolStep, Option.ite_none_right_eq_some, Option.some.injEq] at taken
      obtain ⟨isJumping, rfl⟩ := taken
      exact inv.of_jump isJumping
  | goOn w =>
      simp only [poolStep, Option.ite_none_right_eq_some, Option.some.injEq] at taken
      obtain ⟨isResumed, rfl⟩ := taken
      exact inv.of_goOn inPool isResumed

/-- The deques keep what they saved in every run whose stores are in time. -/
theorem ContextInv.of_run (run : (poolMachine ω δ φ ψ π).GuardedRun StoreInTime s) : ContextInv s := by
  induction run with
  | start initial => exact .of_start initial
  | step before inTime taken inv =>
      obtain ⟨place, waker, inPool⟩ := PoolInv.of_reachable before.reachable
      exact inv.of_step inPool inTime taken

/-- The worker has all that was saved of the strand on its active deque: the pointers, the pedigree, the
    current frame and its worker, and the frames that were not stolen since. The deque's own copies are
    cleared. -/
def DequePoolState.RunsAsSuspended (s : DequePoolState ω δ φ ψ π) (w : ω) : Prop :=
  ∃ record, s.suspension (s.activeDeque w) = some record ∧
    s.pointers w = .to (s.activeDeque w) ∧
    s.pedigree w = record.pedigree ∧
    s.currentStackFrame w = record.currentStackFrame ∧
    record.ltq = record.stolen.map Prod.fst ++ ltqOf (s.calls (s.activeDeque w)) ∧
    s.frameFf (s.activeDeque w) = (record.stolen.getLast?.map Prod.snd).or record.frameFf ∧
    (∃ sf, s.currentStackFrame w = some sf ∧ s.frameWorker sf = some w) ∧
    s.savedPed (s.activeDeque w) = ⟨0, none⟩ ∧ s.fiber (s.activeDeque w) = none ∧
    s.resumable (s.activeDeque w) = false

/-- As long as every thief's store into the frame of an empty deque comes before that of the worker that
    resumes the deque, a worker that runs the fiber of a suspended deque again has the strand's context. -/
theorem strand_keeps_context (run : (poolMachine ω δ φ ψ π).GuardedRun StoreInTime s) {w : ω}
    (isResumed : s.pc w = .resumed) : s.RunsAsSuspended w := by
  obtain ⟨place, waker, inPool⟩ := PoolInv.of_reachable run.reachable
  have inv := ContextInv.of_run run
  obtain ⟨pointers, -, -, -, -, -, jumping, restored, -⟩ := inv.worker w
  obtain ⟨fiber, isSuspended⟩ := jumping (by simp [isResumed])
  obtain ⟨record, suspended⟩ := Option.ne_none_iff_exists'.1 isSuspended
  obtain ⟨savedPed, known⟩ := restored (by simp [isResumed])
  obtain ⟨pedigree, current, frameWorker⟩ := known record suspended
  have saved := inv.saved _ record suspended
  obtain ⟨sf, isCurrent⟩ := Option.ne_none_iff_exists'.1 saved.current
  have fits := inPool.deque (s.activeDeque w)
  rw [(inPool.worker w).active] at fits
  have notResumable : s.resumable (s.activeDeque w) = false := by
    have switches := fits.2.2.2.2.1
    simpa [isResumed] using switches
  exact ⟨record, suspended, pointers, pedigree, current, saved.ltq, saved.frameFf,
    ⟨sf, current.trans isCurrent, frameWorker sf isCurrent⟩, savedPed, fiber, notResumable⟩

/-- Worker 0 runs a strand on deque 0 with one frame; worker 1 has the empty deque 1. The other deque is not
    allocated. -/
def twoWorkers : DequePoolState (Fin 2) (Fin 3) (Fin 3) Unit Unit where
  activeDeque := fun w => if w = 0 then 0 else 1
  pointers := fun w => .to (if w = 0 then 0 else 1)
  pedigree := fun _ => ⟨1, none⟩
  currentStackFrame := fun w => if w = 0 then some 0 else none
  lock := fun _ => none
  pools := fun _ _ => []
  pc := fun w => if w = 0 then .running else .sched
  live := fun d => d ≠ 2
  self := fun _ => activeDequeIndex
  worker := fun d => if d = 0 then some 0 else some 1
  resumable := fun _ => false
  fiber := fun _ => none
  savedPed := fun _ => ⟨0, none⟩
  callStack := fun _ => none
  frameFf := fun d => if d = 0 then some () else none
  calls := fun d => if d = 0 then [⟨0, false⟩] else []
  fiberResumable := fun _ => false
  handedOut := fun _ => false
  stackOf := fun sf => if sf = 0 then some 0 else none
  frameWorker := fun sf => if sf = 0 then some 0 else none
  suspension := fun _ => none

theorem twoWorkers_start : (poolMachine (Fin 2) (Fin 3) (Fin 3) Unit Unit).start twoWorkers := by
  refine ⟨fun w => ⟨rfl, rfl, fun _ => rfl, ?_⟩, fun d => ⟨rfl, rfl, rfl, rfl, rfl, rfl, ?_⟩, ?_⟩
  · revert w
    decide
  · revert d
    decide
  · decide

instance (s : DequePoolState (Fin 2) (Fin 3) (Fin 3) Unit Unit) : DecidablePred (StoreInTime s) := fun label =>
  inferInstanceAs (Decidable (∀ w d v, label = .mugStore w → s.pc w = .mugging d v .empty →
    s.live d = true ∧ ∀ w', s.activeDeque w' ≠ d ∧ (s.pc w').stored ≠ some d))

/-- The strand spawns a helper and suspends itself in it with deque 2, and its deque goes into the suspended
    pool of worker 1, which steals the frame that called the helper. -/
def suspendAndSteal : List (PoolLabel (Fin 2) (Fin 3) (Fin 3) Unit Unit) :=
  [.enterFrame 0 1, .detach 0, .publish 0, .suspend 0, .checkPool 0, .switchDeque 0 2 none, .place 0 1,
    .switchFiber 0, .steal 1 1 0 ()]

/-- Worker 0 wakes the deque and runs its fiber again. -/
def wakeAndJump : List (PoolLabel (Fin 2) (Fin 3) (Fin 3) Unit Unit) :=
  [.wake 0 0 (.makeResumable true), .readWorker 0, .lockWorker 0, .jumpMug 0 1, .mugStore 0, .jumpSwitch 0,
    .jump 0]

theorem strand_keeps_context_stolen :
    ((poolMachine (Fin 2) (Fin 3) (Fin 3) Unit Unit).after twoWorkers (suspendAndSteal ++ wakeAndJump)).activeDeque 0 =
        0 ∧
      ((poolMachine (Fin 2) (Fin 3) (Fin 3) Unit Unit).after twoWorkers
        (suspendAndSteal ++ wakeAndJump)).RunsAsSuspended 0 :=
  ⟨rfl, strand_keeps_context (.after (.start twoWorkers_start) (suspendAndSteal ++ wakeAndJump) (by decide)) rfl⟩

/-- Worker 1 mugs the deque, which is empty now. Worker 0 wakes it: the deque is in no pool, so worker 0 takes
    no lock, and runs its fiber again before worker 1 stores itself into the frame. -/
def lateStore : List (PoolLabel (Fin 2) (Fin 3) (Fin 3) Unit Unit) :=
  [.mugEmpty 1 1 0, .wake 0 0 (.makeResumable true), .readWorker 0, .makeFree 0 0, .addFree 0, .jumpMug 0 0,
    .mugStore 0, .jumpSwitch 0, .jump 0, .mugStore 1]

/-- The strand runs on worker 0 in a frame whose worker is the thief. -/
theorem late_store_changes_worker :
    ∃ s, (poolMachine (Fin 2) (Fin 3) (Fin 3) Unit Unit).Reachable s ∧ s.pc 0 = .resumed ∧
      s.currentStackFrame 0 = some 1 ∧ s.frameWorker 1 = some 1 ∧ ¬s.RunsAsSuspended 0 := by
  refine ⟨(poolMachine (Fin 2) (Fin 3) (Fin 3) Unit Unit).after twoWorkers (suspendAndSteal ++ lateStore),
    .after (.start twoWorkers_start) (suspendAndSteal ++ lateStore), rfl, rfl, rfl, ?_⟩
  rintro ⟨-, -, -, -, -, -, -, ⟨sf, isCurrent, isWorker⟩, -⟩
  obtain rfl : sf = 1 := Option.some.inj isCurrent.symm
  exact nomatch isWorker

end CilkL
