/-
Module: CilkL.Proofs.DequePool
Layer: Proofs
Purpose: Where every deque is, in every interleaving of suspensions, muggings, wake-ups, resumptions and
  steals: active on one worker, in one slot of one pool, or in no pool and held by one worker that moves it
  or by its one waker. The invariant names the place and the waker of each deque, and each operation moves
  one deque from one place to another.
Imports: CilkL.Runtime.DequePool
Trusted boundary: none (fully proved)
Main exports: Place, Waker, PoolsInv, Fits, WorkerFits, PoolInv
Open obligations: none
-/
import CilkL.Runtime.DequePool

namespace CilkL

variable {ω δ φ ψ π : Type} [DecidableEq ω] [DecidableEq δ]

/-- Where a deque is. -/
inductive Place (ω : Type) where
  | dead
  | active (w : ω)
  | slot (w : ω) (kind : PoolKind)
  /-- In no pool, and held by a worker that suspends it or took it over. -/
  | moving (w : ω)
  /-- In no pool, and left to its waker. -/
  | waiting
deriving DecidableEq

/-- Who is to wake a deque. -/
inductive Waker (ω : Type) where
  | nobody
  /-- A future or an I/O operation has it. -/
  | pending
  | worker (w : ω)
deriving DecidableEq

namespace PoolPc

/-- The deque that a worker is moving. -/
@[simp, grind] def moves {ω δ : Type} : PoolPc ω δ → Option δ
  | .chosen (some d) | .placing d | .spinning d | .mugging d _ .suspend | .mugging d _ .jump => some d
  | .sched | .running | .published | .choosing | .chosen none | .leaving _ | .mugging _ _ (.resume _)
  | .mugging _ _ .empty | .waking _ _ | .sawWorker _ _ _ | .adding _ _ _ | .marked _ _ | .jumping
  | .resumed => none

/-- The deque that a worker is waking. -/
@[simp, grind] def wakes {ω δ : Type} : PoolPc ω δ → Option δ
  | .waking d _ | .sawWorker d _ _ | .adding d _ _ | .marked d _ | .mugging d _ (.resume _) => some d
  | .sched | .running | .published | .choosing | .chosen _ | .placing _ | .leaving _ | .spinning _
  | .mugging _ _ .suspend | .mugging _ _ .jump | .mugging _ _ .empty | .jumping | .resumed => none

/-- The worker's strand handed the active deque to a waker. -/
@[simp, grind] def handedOut {ω δ : Type} : PoolPc ω δ → Bool
  | .published | .choosing | .chosen _ | .mugging _ _ .suspend => true
  | .waking _ wake | .sawWorker _ wake _ => wake = .resume .no
  | .mugging _ _ (.resume enable) | .marked _ enable => enable = .no
  | .sched | .running | .placing _ | .leaving _ | .spinning _ | .mugging _ _ .jump | .mugging _ _ .empty
  | .adding _ _ _ | .jumping | .resumed => false

end PoolPc

/-! ### Pools -/

/-- The pools hold the deques with a slot, each once, and these know their index. -/
structure PoolsInv (pools : ω → PoolKind → List δ) (index : δ → Int) (place : δ → Place ω) : Prop where
  slot : ∀ d w kind, d ∈ pools w kind ↔ place d = .slot w kind
  nodup : ∀ w kind, (pools w kind).Nodup
  slots : ∀ w kind, Slots index (pools w kind)

variable {pools : ω → PoolKind → List δ} {index index' : δ → Int} {place place' : δ → Place ω}

omit [DecidableEq ω] [DecidableEq δ] in
/-- Only the deques in pools matter. -/
theorem PoolsInv.congr (inv : PoolsInv pools index place)
    (samePlace : ∀ d w kind, place' d = .slot w kind ↔ place d = .slot w kind)
    (sameIndex : ∀ d w kind, place d = .slot w kind → index' d = index d) :
    PoolsInv pools index' place' where
  slot d w kind := by rw [inv.slot, samePlace]
  nodup := inv.nodup
  slots w kind := (inv.slots w kind).congr fun d member => sameIndex d w kind ((inv.slot d w kind).1 member)

/-- `deque_pool_add` of a deque that is in no pool. -/
theorem PoolsInv.add (inv : PoolsInv pools index place) {d : δ}
    (outside : ∀ w kind, place d ≠ .slot w kind) (w : ω) (kind : PoolKind) :
    PoolsInv (setPool pools w kind (pools w kind ++ [d])) (setAt index d (pools w kind).length)
      (setAt place d (.slot w kind)) := by
  have fresh (w' : ω) (kind' : PoolKind) : d ∉ pools w' kind' := by
    rw [inv.slot]
    exact outside w' kind'
  have sameIndex (e : δ) (w' : ω) (kind' : PoolKind) (member : e ∈ pools w' kind') :
      setAt index d (pools w kind).length e = index e := by
    apply setAt_other
    rintro rfl
    exact fresh w' kind' member
  constructor
  · intro e w' kind'
    have := inv.slot e w' kind'
    have := fresh w' kind'
    grind -linarith [setAt, setPool]
  · intro w' kind'
    have := inv.nodup w' kind'
    have := fresh w kind
    simp only [setPool]
    split_ifs with there
    · obtain ⟨rfl, rfl⟩ := there
      exact List.nodup_append.2 ⟨inv.nodup w' kind', by simp, by grind -linarith⟩
    · exact inv.nodup w' kind'
  · intro w' kind'
    simp only [setPool]
    split_ifs with there
    · obtain ⟨rfl, rfl⟩ := there
      exact (inv.slots w' kind').append (sameIndex · w' kind') (setAt_self ..)
    · exact (inv.slots w' kind').congr (sameIndex · w' kind')

/-- `deque_pool_remove` of a deque of the pool. -/
theorem PoolsInv.remove (inv : PoolsInv pools index place) {d : δ} {w : ω} {kind : PoolKind}
    (inside : place d = .slot w kind) {new : Place ω} (outside : ∀ w kind, new ≠ .slot w kind) :
    PoolsInv (setPool pools w kind (swapRemove (pools w kind) (index d).toNat))
      (setAt (match (pools w kind).getLast? with
        | some last => setAt index last (index d)
        | none => index) d invalidDequeIndex)
      (setAt place d new) := by
  have member : d ∈ pools w kind := (inv.slot d w kind).2 inside
  obtain ⟨i, at_i⟩ := List.mem_iff_getElem?.1 member
  have index_d : index d = i := inv.slots w kind i d at_i
  have at_index : (pools w kind)[(index d).toNat]? = some d := by simpa [index_d] using at_i
  obtain ⟨last, isLast⟩ : ∃ last, (pools w kind).getLast? = some last :=
    Option.isSome_iff_exists.1 (by simp [List.ne_nil_of_mem member])
  have lastPlace : place last = .slot w kind :=
    (inv.slot last w kind).1 (List.mem_of_getLast? isLast)
  simp only [isLast]
  have removed (e : δ) : e ∈ swapRemove (pools w kind) (index d).toNat ↔ e ∈ pools w kind ∧ e ≠ d :=
    mem_swapRemove (inv.nodup w kind) at_index
  constructor
  · intro e w' kind'
    have := inv.slot e w' kind'
    have := removed e
    grind -linarith [setAt, setPool]
  · intro w' kind'
    simp only [setPool]
    split_ifs with there
    · exact nodup_swapRemove (inv.nodup w kind) at_index
    · exact inv.nodup w' kind'
  · intro w' kind'
    simp only [setPool]
    split_ifs with there
    · refine (inv.slots w kind).swapRemove (inv.nodup w kind) at_index isLast ?_ ?_
      · intro other
        rw [setAt_other other, setAt_self, index_d]
        simp
      · intro e _ other notLast
        rw [setAt_other other, setAt_other notLast]
    · refine (inv.slots w' kind').congr fun e inPool => ?_
      have := (inv.slot e w' kind').1 inPool
      grind -linarith [setAt]

/-! ### The invariant -/

namespace PoolPc

/-- The deque of a waker that found it in no pool. -/
@[simp, grind] def claims {ω δ : Type} : PoolPc ω δ → Option δ
  | .sawWorker d _ none | .adding d _ _ | .marked d _ | .mugging d _ (.resume _) => some d
  | .sched | .running | .published | .choosing | .chosen _ | .placing _ | .leaving _ | .spinning _
  | .mugging _ _ .suspend | .mugging _ _ .jump | .mugging _ _ .empty | .waking _ _ | .sawWorker _ _ (some _)
  | .jumping | .resumed => none

/-- The worker added the deque's worker, but not the deque to the pool. -/
@[simp, grind] def adds {ω δ : Type} : PoolPc ω δ → Bool
  | .adding _ _ _ => true
  | .sched | .running | .published | .choosing | .chosen _ | .placing _ | .leaving _ | .spinning _
  | .mugging _ _ _ | .waking _ _ | .sawWorker _ _ _ | .marked _ _ | .jumping | .resumed => false

/-- The worker set the flag of the deque that it wakes. -/
@[simp, grind] def marks {ω δ : Type} : PoolPc ω δ → Bool
  | .adding _ _ _ | .marked _ _ => true
  | .sched | .running | .published | .choosing | .chosen _ | .placing _ | .leaving _ | .spinning _
  | .mugging _ _ _ | .waking _ _ | .sawWorker _ _ _ | .jumping | .resumed => false

/-- The worker leaves its active deque for one that it took over. -/
@[simp, grind] def switches {ω δ : Type} : PoolPc ω δ → Bool
  | .chosen (some _) => true
  | .sched | .running | .published | .choosing | .chosen none | .placing _ | .leaving _ | .spinning _
  | .mugging _ _ _ | .waking _ _ | .sawWorker _ _ _ | .adding _ _ _ | .marked _ _ | .jumping
  | .resumed => false

/-- The worker runs on the fiber of its active deque's strand. -/
@[simp, grind] def onFiber {ω δ : Type} : PoolPc ω δ → Bool
  | .running | .published | .choosing | .chosen _ | .marked _ _ | .resumed | .adding _ _ false
  | .mugging _ _ .suspend | .mugging _ _ (.resume _) => true
  | .waking _ wake | .sawWorker _ wake _ => wake ≠ .makeResumable true
  | .sched | .placing _ | .leaving _ | .spinning _ | .mugging _ _ .jump | .mugging _ _ .empty
  | .adding _ _ true | .jumping => false

/-- The worker switched deques, but not fibers. -/
@[simp, grind] def awaits {ω δ : Type} : PoolPc ω δ → Bool
  | .placing _ | .leaving _ => true
  | .sched | .running | .published | .choosing | .chosen _ | .spinning _ | .mugging _ _ _ | .waking _ _
  | .sawWorker _ _ _ | .adding _ _ _ | .marked _ _ | .jumping | .resumed => false

/-- The deque of a waker that found its fiber resumable. -/
@[simp, grind] def sees {ω δ : Type} : PoolPc ω δ → Option δ
  | .sawWorker d _ _ | .adding d _ _ | .marked d _ | .mugging d _ (.resume _) => some d
  | .sched | .running | .published | .choosing | .chosen _ | .placing _ | .leaving _ | .spinning _
  | .mugging _ _ .suspend | .mugging _ _ .jump | .mugging _ _ .empty | .waking _ _ | .jumping
  | .resumed => none

/-- A waker that set the flag found the deque in no pool. -/
@[grind →]
theorem claims_of_marks {ω δ : Type} {pc : PoolPc ω δ} (marks : pc.marks = true) : pc.claims = pc.wakes := by
  cases pc <;> first | rfl | simp [PoolPc.marks] at marks

@[grind →]
theorem onFiber_of_awaits {ω δ : Type} {pc : PoolPc ω δ} (awaits : pc.awaits = true) :
    pc.onFiber = false ∧ pc.handedOut = false ∧ pc.switches = false := by
  cases pc <;> simp_all [PoolPc.awaits, PoolPc.onFiber, PoolPc.handedOut, PoolPc.switches]

/-- A strand that handed its deque to a waker still runs until it switched deques. -/
theorem onFiber_of_handedOut {ω δ : Type} {pc : PoolPc ω δ} (handedOut : pc.handedOut = true) :
    pc.onFiber = true := by
  cases pc with
  | mugging d v caller => cases caller <;> first | rfl | cases handedOut
  | waking d wake | sawWorker d wake =>
      simp only [PoolPc.handedOut, decide_eq_true_eq] at handedOut
      rw [handedOut]
      rfl
  | published | choosing | chosen | marked => rfl
  | _ => cases handedOut

theorem ne_placing {ω δ : Type} {pc : PoolPc ω δ} (awaits : pc.awaits = false) (d : δ) :
    pc ≠ .placing d := by
  rintro rfl
  simp [PoolPc.awaits] at awaits

@[grind →]
theorem wakes_of_sees {ω δ : Type} {pc : PoolPc ω δ} {d : δ} (sees : pc.sees = some d) :
    pc.wakes = some d := by
  cases pc with
  | mugging e v caller =>
      cases caller with
      | resume => exact sees
      | _ => cases sees
  | sawWorker | adding | marked => exact sees
  | _ => cases sees

@[grind →]
theorem sees_of_claims {ω δ : Type} {pc : PoolPc ω δ} {d : δ} (claims : pc.claims = some d) :
    pc.sees = some d := by
  cases pc with
  | mugging e v caller =>
      cases caller with
      | resume => exact claims
      | _ => cases claims
  | sawWorker e wake v =>
      cases v with
      | none => exact claims
      | some => cases claims
  | adding | marked => exact claims
  | _ => cases claims

/-- A waker that found the fiber resumable found the deque in no pool, or in that of a worker. -/
@[grind →]
theorem claims_of_sees {ω δ : Type} {pc : PoolPc ω δ} {d : δ} (sees : pc.sees = some d) :
    pc.claims = some d ∨ ∃ wake v, pc = .sawWorker d wake (some v) := by
  cases pc with
  | mugging e v caller =>
      cases caller with
      | resume => exact .inl sees
      | _ => cases sees
  | sawWorker e wake v =>
      cases sees
      cases v with
      | none => exact .inl rfl
      | some v => exact .inr ⟨wake, v, rfl⟩
  | adding | marked => exact .inl sees
  | _ => cases sees

end PoolPc

/-- What the place of a deque says of its fields. -/
def Fits (s : DequePoolState ω δ φ ψ π) (d : δ) (waker : Waker ω) : Place ω → Prop
  | .dead => s.live d = false ∧ waker = .nobody
  | .active w => s.live d = true ∧ s.activeDeque w = d ∧ s.self d = activeDequeIndex ∧
      s.worker d = some w ∧ (s.resumable d = true → (s.pc w).switches = true) ∧
      (waker = .nobody ↔ (s.pc w).handedOut = false ∨ s.resumable d = true) ∧
      ((s.pc w).onFiber = true → s.fiberResumable d = false)
  | .slot w kind => s.live d = true ∧ s.worker d = some w ∧
      (s.resumable d = true ↔ kind = .resumable) ∧ (waker = .nobody ↔ kind = .resumable)
  | .moving w => s.live d = true ∧ (s.pc w).moves = some d ∧
      (s.pc w = .placing d → s.self d = activeDequeIndex ∧ s.worker d = some w ∧
        (waker = .nobody ↔ s.resumable d = true) ∧ s.fiberResumable d = false ∧
        s.fiber d = some .strand) ∧
      (s.pc w ≠ .placing d → s.self d = invalidDequeIndex ∧ s.worker d = none ∧ s.resumable d = true ∧
        waker = .nobody)
  | .waiting => s.live d = true ∧ s.self d = invalidDequeIndex ∧ waker ≠ .nobody ∧
      (waker = .pending → s.worker d = none ∧ s.resumable d = false) ∧
      ∀ w, waker = .worker w → ((s.pc w).adds = false → s.worker d = none) ∧
        (s.resumable d = true ↔ (s.pc w).marks = true)

/-- What a worker's program counter says of the deques. -/
structure WorkerFits (s : DequePoolState ω δ φ ψ π) (place : δ → Place ω) (w : ω) : Prop where
  active : place (s.activeDeque w) = .active w
  moves : ∀ d, (s.pc w).moves = some d → place d = .moving w
  sawWorker : ∀ d wake v, s.pc w = .sawWorker d wake (some v) →
    place d = .slot v .suspended ∨ place d = .waiting
  claims : ∀ d, (s.pc w).claims = some d → place d = .waiting
  sees : ∀ d, (s.pc w).sees = some d → s.fiberResumable d = true
  leaving : ∀ d, s.pc w = .leaving d → s.fiberResumable d = false ∧ s.fiber d = some .strand ∧
    place d ≠ .dead
  leaver : ∀ d, s.pc w = .leaving d → (∀ w', place d = .active w' → (s.pc w').awaits = true) ∧
    ∀ w', s.pc w' = .leaving d ∨ s.pc w' = .placing d → w' = w

/-- The places and the wakers of the deques. -/
structure PoolInv (s : DequePoolState ω δ φ ψ π) (place : δ → Place ω) (waker : δ → Waker ω) : Prop where
  pools : PoolsInv s.pools s.self place
  deque : ∀ d, Fits s d (waker d) (place d)
  worker : ∀ w, WorkerFits s place w
  wakes : ∀ d w, waker d = .worker w ↔ (s.pc w).wakes = some d
  handedOut : ∀ d, waker d = .pending ↔ s.handedOut d = true

variable {s s' : DequePoolState ω δ φ ψ π} {waker : δ → Waker ω}

omit [DecidableEq ω] [DecidableEq δ] in
/-- The active deques are those in the `active_deque` fields. -/
theorem PoolInv.activeDeque (inv : PoolInv s place waker) {d : δ} {w : ω} (active : place d = .active w) :
    s.activeDeque w = d := by
  have fits := inv.deque d
  rw [active] at fits
  exact fits.2.1

omit [DecidableEq δ] in
/-- A step that only moves one worker on, and neither takes nor gives up a deque. -/
theorem PoolInv.setPc (inv : PoolInv s place waker) {w : ω} {pc : PoolPc ω δ}
    (moves : pc.moves = (s.pc w).moves) (wakes : pc.wakes = (s.pc w).wakes)
    (handedOut : pc.handedOut = (s.pc w).handedOut) (switches : (s.pc w).switches = false)
    (onFiber : pc.onFiber = true → (s.pc w).onFiber = true) (old : (s.pc w).awaits = false)
    (new : pc.awaits = false) (adds : pc.adds = (s.pc w).adds) (marks : pc.marks = (s.pc w).marks)
    (sawWorker : ∀ d wake v, pc = .sawWorker d wake (some v) →
      place d = .slot v .suspended ∨ place d = .waiting)
    (claims : ∀ d, pc.claims = some d → place d = .waiting)
    (sees : ∀ d, pc.sees = some d → s.fiberResumable d = true) : PoolInv (s.setPc w pc) place waker where
  pools := inv.pools
  deque d := by
    have fits := inv.deque d
    have oldPc := PoolPc.ne_placing old d
    have newPc := PoolPc.ne_placing new d
    cases isPlace : place d <;> rw [isPlace] at fits <;> simp only [Fits] at fits ⊢ <;> and_intros <;> grind -linarith [setAt]
  worker w' := by
    have facts := inv.worker w'
    by_cases same : w' = w
    · subst same
      constructor <;> simp only [setAt_self]
      · exact facts.active
      · rw [moves]
        exact facts.moves
      · exact sawWorker
      · exact claims
      · exact sees
      · grind -linarith
      · grind -linarith
    · constructor <;> simp only [setAt_other same]
      · exact facts.active
      · exact facts.moves
      · exact facts.sawWorker
      · exact facts.claims
      · exact facts.sees
      · exact facts.leaving
      · have := facts.leaver
        grind -linarith [setAt]
  wakes d w' := by
    have := inv.wakes d w'
    grind -linarith [setAt]
  handedOut := inv.handedOut

/-- The strand of the active deque hands it to a waker. -/
theorem PoolInv.of_publish (inv : PoolInv s place waker) {w : ω} (running : s.pc w = .running) :
    PoolInv { s.setPc w .published with handedOut := setAt s.handedOut (s.activeDeque w) true } place
      (setAt waker (s.activeDeque w) .pending) where
  pools := inv.pools
  deque d := by
    have fits := inv.deque d
    have := inv.wakes
    have := inv.worker w
    have := this.active
    cases isPlace : place d <;> rw [isPlace] at fits <;> simp only [Fits] at fits ⊢ <;> and_intros <;> grind -linarith [setAt]
  worker w' := by
    obtain ⟨active, moves, sawWorker, claims, sees, leaving, leaver⟩ := inv.worker w'
    constructor <;> grind -linarith [setAt]
  wakes d w' := by
    have := inv.wakes d w'
    have := inv.deque (s.activeDeque w)
    have := (inv.worker w).active
    grind -linarith [setAt, Fits]
  handedOut d := by
    have := inv.handedOut d
    grind -linarith [setAt]

/-- A waker begins to wake a deque. -/
theorem PoolInv.of_wake (inv : PoolInv s place waker) {w : ω} {d : δ} {wake : Wake}
    (pending : s.handedOut d = true) (caller : s.pc w = wake.caller) :
    PoolInv { s.setPc w (.waking d wake) with handedOut := setAt s.handedOut d false } place
      (setAt waker d (.worker w)) := by
  have idle : (s.pc w).moves = none ∧ (s.pc w).wakes = none ∧ (s.pc w).claims = none ∧
      (s.pc w).switches = false ∧ (s.pc w).awaits = false ∧
      (s.pc w).onFiber = decide (wake ≠ .makeResumable true) ∧
      (s.pc w).handedOut = decide (wake = .resume .no) := by
    rw [caller]
    rcases wake with ⟨_ | _⟩ | ⟨_ | _ | _⟩ <;> exact ⟨rfl, rfl, rfl, rfl, rfl, rfl, rfl⟩
  clear caller
  have isPending := (inv.handedOut d).2 pending
  exact
    { pools := inv.pools
      deque := by
        intro e
        have fits := inv.deque e
        have := inv.wakes e w
        have := PoolPc.ne_placing idle.2.2.2.2.1 e
        cases isPlace : place e <;> rw [isPlace] at fits <;> simp only [Fits] at fits ⊢ <;> and_intros <;>
          grind -linarith [setAt]
      worker := by
        intro w'
        obtain ⟨active, moves, sawWorker, claims, sees, leaving, leaver⟩ := inv.worker w'
        constructor <;> grind -linarith [setAt]
      wakes := by
        intro e w'
        have := inv.wakes e w'
        grind -linarith [setAt]
      handedOut := by
        intro e
        have := inv.handedOut e
        grind -linarith [setAt] }

/-- `deque_pool_remove` touches only the removed deque and the index of one that stays in the pool. -/
theorem PoolInv.remove (inv : PoolInv s place waker) {d : δ} {v : ω} {kind : PoolKind}
    (inside : place d = .slot v kind) :
    ∃ index' removed, s.dequePoolRemove v kind d =
        { s with self := index', worker := setAt s.worker d none, pools := removed } ∧
      index' d = invalidDequeIndex ∧ (∀ e, place e ≠ .slot v kind → index' e = s.self e) ∧
      ∀ new : Place ω, (∀ w k, new ≠ .slot w k) → PoolsInv removed index' (setAt place d new) := by
  refine ⟨_, _, rfl, setAt_self .., fun e outside => ?_,
    fun new outside => inv.pools.remove inside outside⟩
  have other : e ≠ d := fun eq => outside (eq ▸ inside)
  rw [setAt_other other]
  cases isLast : (s.pools v kind).getLast? with
  | none => rfl
  | some last =>
      apply setAt_other
      rintro rfl
      exact outside ((inv.pools.slot e v kind).1 (List.mem_of_getLast? isLast))

/-- A resumable deque is mugged: the worker holds it. -/
theorem PoolInv.of_mugResumable (inv : PoolInv s place waker) {w v : ω} {d : δ} {caller : Mug}
    (inside : place d = .slot v .resumable)
    (mugs : s.pc w = .choosing ∧ caller = .suspend ∨ s.pc w = .sched ∧ caller = .jump) :
    PoolInv (s.dequeMug w v d caller) (setAt place d (.moving w)) waker := by
  have dFits := inv.deque d
  rw [inside] at dFits
  have flag : s.resumable d = true := dFits.2.2.1.2 rfl
  obtain ⟨index', removed, eq, gone, same, pools'⟩ := inv.remove inside
  simp only [DequePoolState.dequeMug, flag, PoolKind.of, if_true, eq]
  exact
    { pools := pools' _ (by simp)
      deque := by
        intro e
        have fits := inv.deque e
        have := inv.wakes e w
        by_cases here : e = d
        · subst here
          rw [setAt_self]
          simp only [Fits] at dFits ⊢
          and_intros <;> grind -linarith [setAt]
        · rw [setAt_other here]
          cases isPlace : place e <;> rw [isPlace] at fits <;> simp only [Fits] at fits ⊢ <;> and_intros <;>
            grind -linarith [setAt]
      worker := by
        intro w'
        obtain ⟨active, moves, sawWorker, claims, sees, leaving, leaver⟩ := inv.worker w'
        constructor <;> grind -linarith [setAt]
      wakes := by
        intro e w'
        have := inv.wakes e w'
        grind -linarith [setAt]
      handedOut := inv.handedOut }

/-- A suspended deque is mugged: it is left to its waker. -/
theorem PoolInv.of_mugSuspended (inv : PoolInv s place waker) {w v : ω} {d : δ} {caller : Mug}
    (inside : place d = .slot v .suspended)
    (mugs : s.pc w = .sched ∧ caller = .empty ∨
      ∃ enable, s.pc w = .sawWorker d (.resume enable) (some v) ∧ caller = .resume enable) :
    PoolInv (s.dequeMug w v d caller) (setAt place d .waiting) waker := by
  have dFits := inv.deque d
  rw [inside] at dFits
  have flag : s.resumable d = false := by simpa using dFits.2.2.1
  obtain ⟨index', removed, eq, gone, same, pools'⟩ := inv.remove inside
  simp only [DequePoolState.dequeMug, flag, PoolKind.of, Bool.false_eq_true, if_false, eq]
  exact
    { pools := pools' _ (by simp)
      deque := by
        intro e
        have fits := inv.deque e
        have := inv.wakes e w
        by_cases here : e = d
        · subst here
          have := inv.wakes e
          have := fun w' => (inv.worker w').claims e
          rw [setAt_self]
          simp only [Fits] at dFits ⊢
          and_intros <;> grind -linarith [setAt]
        · rw [setAt_other here]
          cases isPlace : place e <;> rw [isPlace] at fits <;> simp only [Fits] at fits ⊢ <;> and_intros <;>
            grind -linarith [setAt]
      worker := by
        intro w'
        obtain ⟨active, moves, sawWorker, claims, sees, leaving, leaver⟩ := inv.worker w'
        constructor <;> grind -linarith [setAt]
      wakes := by
        intro e w'
        have := inv.wakes e w'
        grind -linarith [setAt]
      handedOut := inv.handedOut }

/-- `deque_suspend` adds the suspended deque to a pool. -/
theorem PoolInv.of_place (inv : PoolInv s place waker) {w : ω} {d : δ} (placing : s.pc w = .placing d)
    (v : ω) :
    PoolInv ((s.dequePoolAdd v (.of (s.resumable d)) d).setPc w (.leaving d))
      (setAt place d (.slot v (.of (s.resumable d)))) waker := by
  have isMoving : place d = .moving w := (inv.worker w).moves d (by rw [placing]; rfl)
  have pools' := inv.pools.add (d := d) (by simp [isMoving]) v (.of (s.resumable d))
  have kind : PoolKind.of (s.resumable d) = .resumable ↔ s.resumable d = true := by
    cases s.resumable d <;> simp [PoolKind.of]
  have dFits := inv.deque d
  rw [isMoving] at dFits
  simp only [DequePoolState.dequePoolAdd]
  generalize PoolKind.of (s.resumable d) = newKind at kind pools' ⊢
  exact
    { pools := pools'
      deque := by
        intro e
        have fits := inv.deque e
        have := inv.wakes e w
        by_cases here : e = d
        · subst here
          rw [setAt_self]
          simp only [Fits] at dFits ⊢
          and_intros <;> grind -linarith [setAt]
        · rw [setAt_other here]
          cases isPlace : place e <;> rw [isPlace] at fits <;> simp only [Fits] at fits ⊢ <;> and_intros <;>
            grind -linarith [setAt]
      worker := by
        intro w'
        have := fun w'' => (inv.worker w'').moves d
        have := fun w'' => (inv.worker w'').leaver d
        obtain ⟨active, moves, sawWorker, claims, sees, leaving, leaver⟩ := inv.worker w'
        constructor <;> grind -linarith [setAt, Fits]
      wakes := by
        intro e w'
        have := inv.wakes e w'
        grind -linarith [setAt]
      handedOut := inv.handedOut }

/-- `deque_suspend` leaves an empty suspended deque to its waker. -/
theorem PoolInv.of_placeFree (inv : PoolInv s place waker) {w : ω} {d : δ}
    (placing : s.pc w = .placing d) (flag : s.resumable d = false) :
    PoolInv { s.setPc w (.leaving d) with
        self := setAt s.self d invalidDequeIndex
        worker := setAt s.worker d none } (setAt place d .waiting) waker := by
  have isMoving : place d = .moving w := (inv.worker w).moves d (by rw [placing]; rfl)
  have dFits := inv.deque d
  rw [isMoving] at dFits
  exact
    { pools := by apply inv.pools.congr <;> grind -linarith [setAt]
      deque := by
        intro e
        have fits := inv.deque e
        have := inv.wakes e w
        by_cases here : e = d
        · subst here
          have := inv.wakes e
          have := fun w' => (inv.worker w').claims e
          rw [setAt_self]
          simp only [Fits] at dFits ⊢
          and_intros <;> grind -linarith [setAt]
        · rw [setAt_other here]
          cases isPlace : place e <;> rw [isPlace] at fits <;> simp only [Fits] at fits ⊢ <;> and_intros <;>
            grind -linarith [setAt]
      worker := by
        intro w'
        have := fun w'' => (inv.worker w'').moves d
        have := fun w'' => (inv.worker w'').leaver d
        obtain ⟨active, moves, sawWorker, claims, sees, leaving, leaver⟩ := inv.worker w'
        constructor <;> grind -linarith [setAt, Fits]
      wakes := by
        intro e w'
        have := inv.wakes e w'
        grind -linarith [setAt]
      handedOut := inv.handedOut }

/-- `__cilkrts_suspend_deque` switches to the scheduling fiber, with a new deque. -/
theorem PoolInv.of_switchToLoop (inv : PoolInv s place waker) {w v : ω} {old : δ}
    (isLeaving : s.pc w = .leaving old) (isNew : s.fiber (s.activeDeque w) = some (.scheduling v)) :
    PoolInv { s.setPc w .sched with
      fiber := setAt s.fiber (s.activeDeque w) none
      fiberResumable := setAt s.fiberResumable old true } place waker where
  pools := inv.pools
  deque e := by
    have fits := inv.deque e
    have := inv.wakes e w
    have := (inv.worker w).leaver old isLeaving
    have := (inv.worker w).active
    cases isPlace : place e <;> rw [isPlace] at fits <;> simp only [Fits] at fits ⊢ <;> and_intros <;>
      grind -linarith [setAt]
  worker w' := by
    have := (inv.worker w).leaver old isLeaving
    have isActive := fun (d : δ) w' => inv.activeDeque (d := d) (w := w')
    have := (inv.worker w).active
    obtain ⟨active, moves, sawWorker, claims, sees, leaving, leaver⟩ := inv.worker w'
    constructor <;> grind -linarith [setAt]
  wakes e w' := by
    have := inv.wakes e w'
    grind -linarith [setAt]
  handedOut := inv.handedOut

/-- `__cilkrts_suspend_deque` switches to the fiber of a deque that was taken over. -/
theorem PoolInv.of_switchToStrand (inv : PoolInv s place waker) {w : ω} {old : δ}
    (isLeaving : s.pc w = .leaving old) (flag : s.fiberResumable (s.activeDeque w) = true) :
    PoolInv { s.setPc w .resumed with
      fiber := setAt s.fiber (s.activeDeque w) none
      fiberResumable := setAt (setAt s.fiberResumable old true) (s.activeDeque w) false } place waker where
  pools := inv.pools
  deque e := by
    have fits := inv.deque e
    have := inv.wakes e w
    have := (inv.worker w).leaver old isLeaving
    have := (inv.worker w).active
    cases isPlace : place e <;> rw [isPlace] at fits <;> simp only [Fits] at fits ⊢ <;> and_intros <;>
      grind -linarith [setAt]
  worker w' := by
    have := (inv.worker w).leaver old isLeaving
    have isActive := fun (d : δ) w' => inv.activeDeque (d := d) (w := w')
    have := (inv.worker w).active
    obtain ⟨active, moves, sawWorker, claims, sees, leaving, leaver⟩ := inv.worker w'
    constructor <;> grind -linarith [setAt]
  wakes e w' := by
    have := inv.wakes e w'
    grind -linarith [setAt]
  handedOut := inv.handedOut

end CilkL
