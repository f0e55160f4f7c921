/-
Module: CilkL.Proofs.FutureFiberCache
Layer: Proofs
Purpose: Each worker's cache of fibers for futures is sound. A fiber is at one place at a time, and each step
  moves fibers: what a future took from the cache, the pool or the heap is its own while it runs, whatever is
  stolen and wherever it is suspended and resumed, and goes back to a cache or a pool when it ends. An
  exception that leaves the function of a future unwinds past the code that gives the fiber back.
Imports: CilkL.Proofs.CactusTree, CilkL.Proofs.FiberPool
Trusted boundary: none
Main exports: FiberRes, CactusInv, CacheSound, GivenBack, NoThrow, future_fiber_cache_sound
Open obligations: none
-/
import CilkL.Proofs.CactusTree
import CilkL.Proofs.FiberPool

namespace CilkL

variable {ω δ β : Type}

/-! ### The places of the fibers -/

/-- The strand that a place belongs to. -/
def FiberSite.strand? : FiberSite ω δ → Option δ
  | .self d | .queue d | .child d _ => some d
  | _ => none

/-- A fiber is at a place of a strand. -/
def CactusStrand.Has (x : CactusStrand ω δ β) : FiberSite ω δ → β → Prop
  | .self _, f => x.place ≠ .dropped ∧ x.fiberSelf = some f
  | .queue _, f => f ∈ x.queue
  | .child _ h, f => ∃ frame, atHeight h x.frames = some frame ∧ frame.fiberChild = some f
  | _, _ => False

/-- The caches, the pools and the places of the fibers. -/
structure FiberRes (s : CactusState ω δ β) : Prop where
  idx : ∀ w, -1 ≤ s.futureFiberPoolIdx w ∧ s.futureFiberPoolIdx w ≤ maxFutureFibersInPool - 1
  pool : ∀ w, (s.fiberPool w).fibers.Nodup ∧ (s.fiberPool w).size ≤ (s.fiberPool w).maxSize.toNat
  globalPool : s.globalPool.Nodup
  queue : ∀ d, (s.strand d).queue.Nodup
  exclusive : Exclusive s.Holds
  allocated : ∀ place f, s.Holds place f → f ∈ s.allocated

/-- The states differ only in the caches, the pools and the heap. -/
structure SameStrands (s s' : CactusState ω δ β) : Prop where
  spare : s'.spare = s.spare
  current : s'.current = s.current
  strand : s'.strand = s.strand
  unwound : s'.unwound = s.unwound

/-- The states differ only in the strands, the current fibers and the thieves' fibers. -/
structure SameCaches (s s' : CactusState ω δ β) : Prop where
  futureFiberPool : s'.futureFiberPool = s.futureFiberPool
  idx : s'.futureFiberPoolIdx = s.futureFiberPoolIdx
  fiberPool : s'.fiberPool = s.fiberPool
  globalPool : s'.globalPool = s.globalPool
  allocated : s'.allocated = s.allocated

section Holds

variable {s s' : CactusState ω δ β} {place p : FiberSite ω δ} {f g : β}

/-- Where the strands did not change. -/
theorem SameStrands.holds (same : SameStrands s s') {d : δ} (isStrand : place.strand? = some d) :
    s'.Holds place f ↔ s.Holds place f := by
  cases place with
  | self d | queue d | child d h => simp only [CactusState.Holds, same.strand]
  | _ => cases isStrand

/-- The places of strands hold what the strands have. -/
theorem holds_iff_has {d : δ} (isStrand : place.strand? = some d) :
    s.Holds place f ↔ (s.strand d).Has place f := by
  cases place <;> cases isStrand <;> rfl

/-- Where the caches did not change. -/
theorem SameCaches.holds (same : SameCaches s s') (noStrand : place.strand? = none)
    (noSpare : ∀ w, place ≠ .spare w) : s'.Holds place f ↔ s.Holds place f := by
  cases place with
  | slot w i => simp only [CactusState.Holds, same.futureFiberPool, same.idx]
  | pool w => simp only [CactusState.Holds, same.fiberPool]
  | globalPool => simp only [CactusState.Holds, same.globalPool]
  | spare w => exact absurd rfl (noSpare w)
  | self d | queue d | child d h => cases noStrand

/-- What is taken away from its place is at no place. -/
theorem FiberRes.gone (res : FiberRes s) (was : s.Holds p f)
    (only : ∀ place g, s'.Holds place g → s.Holds place g ∧ (place = p → g ≠ f)) (place : FiberSite ω δ) :
    ¬s'.Holds place f := fun held =>
  (only place f held).2 (res.exclusive place p f (only place f held).1 was) rfl

/-- The strands change, and each fiber stays where it was or goes. -/
theorem FiberRes.strands (res : FiberRes s) (same : SameCaches s s') (queue : ∀ d, (s'.strand d).queue.Nodup)
    (only : ∀ place g, s'.Holds place g → s.Holds place g) : FiberRes s' where
  idx := by rw [same.idx]; exact res.idx
  pool := by rw [same.fiberPool]; exact res.pool
  globalPool := by rw [same.globalPool]; exact res.globalPool
  queue := queue
  exclusive := res.exclusive.mono only
  allocated place f held := by
    rw [same.allocated]
    exact res.allocated place f (only place f held)

end Holds

variable {s s' : CactusState ω δ β} {w : ω} {f : β}

/-! ### The caches and the pools -/

/-- A fiber was taken from the caches, the pools or the heap: it is at no place. -/
structure Took (s s' : CactusState ω δ β) (taken : Option β) : Prop where
  same : SameStrands s s'
  res : FiberRes s'
  out : ∀ f, taken = some f → (∀ place, ¬s'.Holds place f) ∧ f ∈ s'.allocated

/-- A fiber is taken out of a place. -/
theorem Took.of_move (res : FiberRes s) (same : SameStrands s s') {p : FiberSite ω δ} (was : s.Holds p f)
    (allocated : s'.allocated = s.allocated)
    (idx : ∀ w, -1 ≤ s'.futureFiberPoolIdx w ∧ s'.futureFiberPoolIdx w ≤ maxFutureFibersInPool - 1)
    (pool : ∀ w, (s'.fiberPool w).fibers.Nodup ∧ (s'.fiberPool w).size ≤ (s'.fiberPool w).maxSize.toNat)
    (globalPool : s'.globalPool.Nodup)
    (only : ∀ place g, s'.Holds place g → s.Holds place g ∧ (place = p → g ≠ f)) : Took s s' (some f) where
  same := same
  res := {
    idx := idx
    pool := pool
    globalPool := globalPool
    queue := by rw [same.strand]; exact res.queue
    exclusive := res.exclusive.mono fun place g held => (only place g held).1
    allocated := fun place g held => allocated ▸ res.allocated place g (only place g held).1 }
  out g isF := by
    obtain rfl := Option.some.inj isF
    exact ⟨res.gone was only, allocated ▸ res.allocated p f was⟩

/-- A new fiber. -/
theorem Took.of_heap (res : FiberRes s) (isFresh : f ∉ s.allocated) :
    Took s { s with allocated := f :: s.allocated } (some f) where
  same := ⟨rfl, rfl, rfl, rfl⟩
  res := { res with
    exclusive := res.exclusive.mono fun place g held => by cases place <;> exact held
    allocated := fun place g held => List.mem_cons_of_mem _ (res.allocated place g (by
      cases place <;> exact held)) }
  out g isF := by
    obtain rfl := Option.some.inj isF
    refine ⟨fun place held => isFresh (res.allocated place f ?_), List.mem_cons_self⟩
    cases place <;> exact held

/-- `cilk_fiber_allocate`. -/
theorem FiberRes.cilkFiberAllocate [DecidableEq ω] [DecidableEq β] (res : FiberRes s) {heap heapOfParent taken : Option β}
    (isTaken : s.cilkFiberAllocate w heap heapOfParent = some (taken, s')) : Took s s' taken := by
  unfold CactusState.cilkFiberAllocate at isTaken
  split at isTaken
  · rename_i fiber fibers isFibers
    cases isTaken
    have nodup := (res.pool w).1
    have size := (res.pool w).2
    rw [isFibers, List.nodup_cons] at nodup
    rw [FiberPool.size, isFibers] at size
    refine .of_move res ⟨rfl, rfl, rfl, rfl⟩ (p := .pool w) ?_ rfl res.idx ?_ res.globalPool ?_
    · rw [CactusState.Holds, isFibers]
      exact List.mem_cons_self
    · intro v
      by_cases isW : v = w
      · rw [isW]
        simp only [setAt_self]
        exact ⟨nodup.2, Nat.le_of_succ_le size⟩
      · simp only [setAt_other isW]
        exact res.pool v
    · intro place g held
      cases place with
      | pool v =>
        by_cases isW : v = w
        · rw [isW] at held ⊢
          simp only [CactusState.Holds, setAt_self, isFibers] at held ⊢
          exact ⟨List.mem_cons_of_mem _ held, fun _ same => nodup.1 (same ▸ held)⟩
        · simp only [CactusState.Holds, setAt_other isW] at held
          exact ⟨held, fun same => absurd (FiberSite.pool.inj same) isW⟩
      | _ => exact ⟨held, by rintro ⟨⟩⟩
  · rename_i fiber fibers _ isGlobal
    cases isTaken
    have nodup := res.globalPool
    rw [isGlobal, List.nodup_cons] at nodup
    refine .of_move res ⟨rfl, rfl, rfl, rfl⟩ (p := .globalPool) ?_ rfl res.idx res.pool nodup.2 ?_
    · rw [CactusState.Holds, isGlobal]
      exact List.mem_cons_self
    · intro place g held
      cases place with
      | globalPool =>
        simp only [CactusState.Holds, isGlobal] at held ⊢
        exact ⟨List.mem_cons_of_mem _ held, fun _ same => nodup.1 (same ▸ held)⟩
      | _ => exact ⟨held, by rintro ⟨⟩⟩
  · split at isTaken
    · cases isTaken
    · rename_i isFresh
      cases isTaken
      exact .of_heap res isFresh
  · split at isTaken
    · cases isTaken
    · rename_i isFresh
      cases isTaken
      exact .of_heap res isFresh
  · cases isTaken
    exact ⟨⟨rfl, rfl, rfl, rfl⟩, res, by rintro _ ⟨⟩⟩

/-- `__cilkrts_switch_fibers` takes a fiber that is nowhere else. -/
theorem FiberRes.takeFiber [DecidableEq ω] [DecidableEq β] (res : FiberRes s) {heap heapOfParent taken : Option β}
    (isTaken : s.takeFiber w heap heapOfParent = some (taken, s')) : Took s s' taken := by
  rw [CactusState.takeFiber] at isTaken
  split at isTaken
  · rename_i inCache
    simp only [Option.some.injEq, Prod.mk.injEq] at isTaken
    obtain ⟨isTaken, rfl⟩ := isTaken
    have only : ∀ place g, CactusState.Holds
        { s with futureFiberPoolIdx := setAt s.futureFiberPoolIdx w (s.futureFiberPoolIdx w - 1) } place g →
        s.Holds place g ∧ place ≠ .slot w (s.futureFiberPoolIdx w).toNat := by
      intro place g held
      cases place with
      | slot v i =>
        by_cases isW : v = w
        · rw [isW] at held ⊢
          simp only [CactusState.Holds, setAt_self] at held
          refine ⟨⟨by omega, held.2⟩, fun same => ?_⟩
          have isTop := (FiberSite.slot.inj same).2
          omega
        · simp only [CactusState.Holds, setAt_other isW] at held
          exact ⟨held, fun same => absurd (FiberSite.slot.inj same).1 isW⟩
      | _ => exact ⟨held, by rintro ⟨⟩⟩
    have idx : ∀ v, -1 ≤ setAt s.futureFiberPoolIdx w (s.futureFiberPoolIdx w - 1) v ∧
        setAt s.futureFiberPoolIdx w (s.futureFiberPoolIdx w - 1) v ≤ maxFutureFibersInPool - 1 := by
      intro v
      have bounds := res.idx v
      by_cases isW : v = w
      · rw [isW, setAt_self]
        rw [isW] at bounds
        omega
      · rw [setAt_other isW]
        exact bounds
    cases taken with
    | none =>
      exact ⟨⟨rfl, rfl, rfl, rfl⟩,
        ⟨idx, res.pool, res.globalPool, res.queue, res.exclusive.mono fun place g held => (only place g held).1,
          fun place g held => res.allocated place g (only place g held).1⟩, by rintro _ ⟨⟩⟩
    | some f =>
      exact .of_move res ⟨rfl, rfl, rfl, rfl⟩ (p := .slot w (s.futureFiberPoolIdx w).toNat)
        ⟨by omega, isTaken⟩ rfl idx res.pool res.globalPool fun place g held =>
          ⟨(only place g held).1, fun isSrc => absurd isSrc (only place g held).2⟩
  · exact res.cilkFiberAllocate isTaken

/-- The caches and the pools. -/
def FiberSite.isCacheOrPool : FiberSite ω δ → Bool
  | .slot _ _ | .pool _ => true
  | _ => false

/-- A fiber went to a cache or a pool. -/
structure Gave (s s' : CactusState ω δ β) (f : β) : Prop where
  same : SameStrands s s'
  res : FiberRes s'
  given : ∃ place : FiberSite ω δ, place.isCacheOrPool ∧ s'.Holds place f

/-- `cilk_fiber_remove_reference` of a fiber that is nowhere. -/
theorem FiberRes.cilkFiberRemoveReference [DecidableEq ω] (res : FiberRes s) (out : ∀ place, ¬s.Holds place f)
    (allocated : f ∈ s.allocated) (isGiven : s.cilkFiberRemoveReference w f = some s') : Gave s s' f := by
  rw [CactusState.cilkFiberRemoveReference, Option.map_eq_some_iff] at isGiven
  obtain ⟨pool, isPool, rfl⟩ := isGiven
  obtain ⟨nodup, size⟩ := res.pool w
  obtain ⟨nodup', size', member, others⟩ := FiberPool.deallocateSelf_spec nodup size (out (.pool w)) isPool
  have only : ∀ place g, CactusState.Holds { s with fiberPool := setAt s.fiberPool w pool } place g →
      (place = .pool w ∧ g = f) ∨ s.Holds place g := by
    intro place g held
    cases place with
    | pool v =>
      by_cases isW : v = w
      · rw [isW] at held ⊢
        simp only [CactusState.Holds, setAt_self] at held
        exact (others g held).imp (fun isF => ⟨rfl, isF⟩) id
      · simp only [CactusState.Holds, setAt_other isW] at held
        exact .inr held
    | _ => exact .inr held
  refine ⟨⟨rfl, rfl, rfl, rfl⟩, ⟨res.idx, fun v => ?_, res.globalPool, res.queue,
    res.exclusive.fresh out only, fun place g held => ?_⟩, .pool w, rfl, ?_⟩
  · by_cases isW : v = w
    · rw [isW]
      simp only [setAt_self]
      exact ⟨nodup', size'⟩
    · simp only [setAt_other isW]
      exact res.pool v
  · rcases only place g held with ⟨-, rfl⟩ | was
    · exact allocated
    · exact res.allocated place g was
  · simp only [CactusState.Holds, setAt_self]
    exact member

/-- The end of a future's fiber. -/
theorem FiberRes.returnFiber [DecidableEq ω] (res : FiberRes s) (out : ∀ place, ¬s.Holds place f)
    (allocated : f ∈ s.allocated) (isGiven : s.returnFiber w f = some s') : Gave s s' f := by
  rw [CactusState.returnFiber] at isGiven
  split at isGiven
  · rename_i room
    cases isGiven
    have bounds := res.idx w
    have only : ∀ place g, CactusState.Holds { s with
        futureFiberPool := setAt s.futureFiberPool w
          (setAt (s.futureFiberPool w) (s.futureFiberPoolIdx w + 1).toNat (some f))
        futureFiberPoolIdx := setAt s.futureFiberPoolIdx w (s.futureFiberPoolIdx w + 1) } place g →
        (place = .slot w (s.futureFiberPoolIdx w + 1).toNat ∧ g = f) ∨ s.Holds place g := by
      intro place g held
      cases place with
      | slot v i =>
        by_cases isW : v = w
        · rw [isW] at held ⊢
          simp only [CactusState.Holds, setAt_self] at held
          by_cases isTop : i = (s.futureFiberPoolIdx w + 1).toNat
          · rw [isTop, setAt_self] at held
            exact .inl ⟨by rw [isTop], (Option.some.inj held.2).symm⟩
          · rw [setAt_other isTop] at held
            exact .inr ⟨by omega, held.2⟩
        · simp only [CactusState.Holds, setAt_other isW] at held
          exact .inr held
      | _ => exact .inr held
    refine ⟨⟨rfl, rfl, rfl, rfl⟩, ⟨fun v => ?_, res.pool, res.globalPool, res.queue,
      res.exclusive.fresh out only, fun place g held => ?_⟩, .slot w (s.futureFiberPoolIdx w + 1).toNat, rfl, ?_⟩
    · by_cases isW : v = w
      · rw [isW]
        simp only [setAt_self]
        omega
      · simp only [setAt_other isW]
        exact res.idx v
    · rcases only place g held with ⟨-, rfl⟩ | was
      · exact allocated
      · exact res.allocated place g was
    · simp only [CactusState.Holds, setAt_self]
      exact ⟨by omega, trivial⟩
  · exact res.cilkFiberRemoveReference out allocated isGiven

/-! ### The fibers of a strand -/

/-- The fiber that the queue has for an invocation. -/
def Invocation.queued : Invocation δ β → List β
  | .future fiber _ => [fiber]
  | _ => []

/-- The fibers of the futures in the deque, the oldest first. -/
def queuedFibers : List (CactusFrame δ β) → List β
  | [] => []
  | frame :: below => queuedFibers below ++ frame.invocation.queued

/-- The fiber that the youngest function is on. -/
def tipOf (self : Option β) (queue : List β) : Option β := queue.getLast?.or self

/-- The oldest fiber of a queue as that of the full frame. -/
theorem tipOf_cons {self : Option β} {f : β} (rest : List β) : tipOf self (f :: rest) = tipOf (some f) rest := by
  rw [tipOf, tipOf, List.getLast?_cons]
  cases rest.getLast? <;> rfl

/-- Each function that called a future goes on with the fiber it was on. -/
def Initials (self : Option β) : List (CactusFrame δ β) → Prop
  | [] => True
  | frame :: below =>
      (∀ f initial, frame.invocation = .future f initial → tipOf self (queuedFibers below) = some initial) ∧
        Initials self below

/-- The fibers of a live strand. -/
structure CactusStrand.FibersOk (x : CactusStrand ω δ β) : Prop where
  queue : x.queue = queuedFibers x.frames
  initials : Initials x.fiberSelf x.frames
  self : x.place = .stalled ↔ x.fiberSelf = none

section Frames

variable {frame child : CactusFrame δ β} {younger older frames below : List (CactusFrame δ β)} {self : Option β}

theorem queued_eq_nil {invocation : Invocation δ β} (outside : invocation.inDeque = false) :
    invocation.queued = [] := by
  cases invocation <;> first | rfl | cases outside

theorem queuedFibers_append : queuedFibers (younger ++ older) = queuedFibers older ++ queuedFibers younger := by
  induction younger with
  | nil => exact (List.append_nil _).symm
  | cons frame younger ih => rw [List.cons_append, queuedFibers, ih, queuedFibers, List.append_assoc]

/-- Without continuations in the deque there are no fibers in the queue. -/
theorem queuedFibers_eq_nil (outside : ∀ frame ∈ frames, frame.invocation.inDeque = false) :
    queuedFibers frames = [] := by
  induction frames with
  | nil => rfl
  | cons frame below ih =>
    rw [queuedFibers, ih fun other member => outside other (List.mem_cons_of_mem _ member),
      queued_eq_nil (outside frame List.mem_cons_self)]
    rfl

/-- Without continuations in the deque no function goes on after a future. -/
theorem initials_of_outside (outside : ∀ frame ∈ frames, frame.invocation.inDeque = false) :
    Initials self frames := by
  induction frames with
  | nil => trivial
  | cons frame below ih =>
    refine ⟨fun f initial isFuture => ?_, ih fun other member => outside other (List.mem_cons_of_mem _ member)⟩
    have inDeque := outside frame List.mem_cons_self
    rw [isFuture] at inDeque
    cases inDeque

/-- The upper part of a strand, whose queue begins where that of the lower part ends. -/
theorem initials_upper {self' : Option β} {queue : List β} (initials : Initials self (younger ++ older))
    (same : ∀ l : List β, tipOf self (queuedFibers older ++ l) = tipOf self' (queue ++ l))
    {upper : List (CactusFrame δ β)} (isQueue : queuedFibers upper = queue) (okUpper : Initials self' upper) :
    Initials self' (younger ++ upper) := by
  induction younger with
  | nil => exact okUpper
  | cons frame younger ih =>
    refine ⟨fun f initial isFuture => ?_, ih initials.2⟩
    have was : tipOf self (queuedFibers (younger ++ older)) = some initial := initials.1 f initial isFuture
    change tipOf self' (queuedFibers (younger ++ upper)) = some initial
    rw [queuedFibers_append] at was ⊢
    rw [isQueue, ← same]
    exact was

end Frames

/-! ### What holds between the steps -/

/-- A strand that is not live has no fibers, but for the full frame of a deque that was destroyed. -/
structure CactusStrand.NoFibers (x : CactusStrand ω δ β) : Prop where
  queue : x.queue = []
  child : ∀ frame ∈ x.frames, frame.fiberChild = none
  self : x.place = .dropped ∨ x.fiberSelf = none

/-- The fibers of a strand. A deque has a fiber of its own while it is suspended. -/
structure CactusStrand.Kept (x : CactusStrand ω δ β) : Prop where
  live : x.place.live → x.FibersOk
  dead : x.place.live = false → x.NoFibers
  suspended : x.place = .suspended → x.fiber = tipOf x.fiberSelf x.queue
  running : x.place ≠ .suspended → x.fiber = none

/-- A worker that runs a strand is on the fiber of its youngest function. -/
structure WorkersOk (T : δ → CactusStrand ω δ β) (fiberOf : ω → Option β) : Prop where
  current : ∀ d w, (T d).place = .on w → fiberOf w = tipOf (T d).fiberSelf (T d).queue
  busy : ∀ w f, fiberOf w = some f → ∃ d, (T d).place = .on w

/-- The strands, the workers and the places of the fibers. -/
structure CactusInv (s : CactusState ω δ β) : Prop where
  res : FiberRes s
  tree : CactusTree s.strand
  kept : ∀ d, (s.strand d).Kept
  workers : WorkersOk s.strand s.current

section Inv

variable {d e : δ} {g : β} {x : CactusStrand ω δ β}

/-- A strand that runs has a fiber. -/
theorem CactusInv.current_isSome (inv : CactusInv s) (on : (s.strand d).place = .on w) :
    ∃ f, s.current w = some f := by
  have self := ((inv.kept d).live (by rw [on]; rfl)).self
  rw [on] at self
  obtain ⟨f, isSelf⟩ := Option.ne_none_iff_exists'.1 (mt self.2 nofun)
  rw [inv.workers.current d w on, isSelf, tipOf]
  cases (s.strand d).queue.getLast? with
  | none => exact ⟨f, rfl⟩
  | some g => exact ⟨g, rfl⟩

/-- The fiber that a strand is on is in its queue, or that of its full frame. -/
theorem CactusStrand.has_tip (d : δ) (notDropped : x.place ≠ .dropped) (isTip : tipOf x.fiberSelf x.queue = some f) :
    x.Has (.queue d : FiberSite ω δ) f ∨ x.queue = [] ∧ x.Has (.self d : FiberSite ω δ) f := by
  rw [tipOf] at isTip
  cases isLast : x.queue.getLast? with
  | none =>
    rw [isLast] at isTip
    exact .inr ⟨List.getLast?_eq_none_iff.1 isLast, notDropped, isTip⟩
  | some last =>
    rw [isLast] at isTip
    cases isTip
    exact .inl (List.mem_of_getLast? isLast)

/-- The fiber that a worker runs on is at a place of the strand that it runs. -/
theorem CactusInv.holds_current (inv : CactusInv s) (on : (s.strand d).place = .on w)
    (isCurrent : s.current w = some f) :
    s.Holds (.queue d) f ∨ (s.strand d).queue = [] ∧ s.Holds (.self d) f :=
  CactusStrand.has_tip d (by rw [on]; nofun) ((inv.workers.current d w on).symm.trans isCurrent)

/-- A worker runs one strand. -/
theorem CactusInv.on_unique (inv : CactusInv s) (onD : (s.strand d).place = .on w)
    (onE : (s.strand e).place = .on w) : d = e := by
  obtain ⟨f, isCurrent⟩ := inv.current_isSome onD
  rcases inv.holds_current onD isCurrent with atD | ⟨-, atD⟩ <;>
    rcases inv.holds_current onE isCurrent with atE | ⟨-, atE⟩ <;>
    cases inv.res.exclusive _ _ _ atD atE
  · rfl
  · rfl

/-- The places after a change of one strand. -/
theorem holds_of_set [DecidableEq δ] {place : FiberSite ω δ} (strand : s'.strand = setAt s.strand d x)
    (others : ∀ place g, FiberSite.strand? place = none → s'.Holds place g → s.Holds place g)
    (held : s'.Holds place g) : s.Holds place g ∧ place.strand? ≠ some d ∨ place.strand? = some d ∧ x.Has place g := by
  cases isStrand : place.strand? with
  | none => exact .inl ⟨others place g isStrand held, nofun⟩
  | some e =>
    by_cases isD : e = d
    · rw [isD] at isStrand
      rw [holds_iff_has isStrand, strand, setAt_self] at held
      exact .inr ⟨by rw [isD], held⟩
    · rw [holds_iff_has isStrand, strand, setAt_other isD] at held
      exact .inl ⟨(holds_iff_has isStrand).2 held, fun same => isD (Option.some.inj same)⟩

/-- The strands are the same. -/
theorem CactusInv.of_same (inv : CactusInv s) (strand : s'.strand = s.strand) (current : s'.current = s.current)
    (res : FiberRes s') : CactusInv s' where
  res := res
  tree := by rw [strand]; exact inv.tree
  kept := by rw [strand]; exact inv.kept
  workers := by rw [strand, current]; exact inv.workers

variable [DecidableEq δ] [DecidableEq ω]

/-- A strand changes and keeps its worker, who is on its fiber. -/
theorem WorkersOk.keep {T : δ → CactusStrand ω δ β} {current current' : ω → Option β}
    (workers : WorkersOk T current) (on : (T d).place = .on w) (place : x.place = .on w)
    (unique : ∀ e, (T e).place = .on w → e = d) (tip : current' w = tipOf x.fiberSelf x.queue)
    (others : ∀ v, v ≠ w → current' v = current v) : WorkersOk (setAt T d x) current' := by
  refine ⟨fun e v onV => ?_, fun v f isCurrent => ?_⟩
  · by_cases isD : e = d
    · rw [isD, setAt_self] at onV ⊢
      cases place.symm.trans onV
      exact tip
    · rw [setAt_other isD] at onV ⊢
      have other : v ≠ w := fun same => isD (unique e (same ▸ onV))
      rw [others v other]
      exact workers.current e v onV
  · by_cases isW : v = w
    · exact ⟨d, by rw [setAt_self, isW]; exact place⟩
    · rw [others v isW] at isCurrent
      obtain ⟨e, onV⟩ := workers.busy v f isCurrent
      have notD : e ≠ d := by
        rintro rfl
        cases on.symm.trans onV
        exact isW rfl
      exact ⟨e, by rw [setAt_other notD]; exact onV⟩

omit [DecidableEq ω] in
/-- A strand changes, but for its place and the fiber it is on. -/
theorem WorkersOk.same {T : δ → CactusStrand ω δ β} {current : ω → Option β} (workers : WorkersOk T current)
    (place : x.place = (T d).place) (tip : tipOf x.fiberSelf x.queue = tipOf (T d).fiberSelf (T d).queue) :
    WorkersOk (setAt T d x) current := by
  have places : ∀ e, (setAt T d x e).place = (T e).place := by
    intro e
    by_cases isD : e = d
    · rw [isD, setAt_self, place]
    · rw [setAt_other isD]
  refine ⟨fun e v onV => ?_, fun v f isCurrent => ?_⟩
  · rw [places] at onV
    rw [workers.current e v onV]
    by_cases isD : e = d
    · rw [isD, setAt_self, tip]
    · rw [setAt_other isD]
  · obtain ⟨e, onV⟩ := workers.busy v f isCurrent
    exact ⟨e, (places e).trans onV⟩

/-- A worker leaves its strand. -/
theorem WorkersOk.stop {T : δ → CactusStrand ω δ β} {current : ω → Option β}
    (workers : WorkersOk T current) (on : (T d).place = .on w) (off : ∀ v, x.place ≠ .on v)
    (unique : ∀ e, (T e).place = .on w → e = d) : WorkersOk (setAt T d x) (setAt current w none) := by
  refine ⟨fun e v onV => ?_, fun v f isCurrent => ?_⟩
  · by_cases isD : e = d
    · rw [isD, setAt_self] at onV
      exact absurd onV (off v)
    · rw [setAt_other isD] at onV ⊢
      have other : v ≠ w := fun same => isD (unique e (same ▸ onV))
      rw [setAt_other other]
      exact workers.current e v onV
  · by_cases isW : v = w
    · rw [isW, setAt_self] at isCurrent
      cases isCurrent
    · rw [setAt_other isW] at isCurrent
      obtain ⟨e, onV⟩ := workers.busy v f isCurrent
      have notD : e ≠ d := by
        rintro rfl
        cases on.symm.trans onV
        exact isW rfl
      exact ⟨e, by rw [setAt_other notD]; exact onV⟩

/-- An idle worker goes on with a strand that nobody runs. -/
theorem WorkersOk.start {T : δ → CactusStrand ω δ β} {current : ω → Option β}
    (workers : WorkersOk T current) (off : ∀ v, (T d).place ≠ .on v) (idle : ∀ e, (T e).place ≠ .on w)
    (place : x.place = .on w) (isTip : tipOf x.fiberSelf x.queue = some f) :
    WorkersOk (setAt T d x) (setAt current w (some f)) := by
  refine ⟨fun e v onV => ?_, fun v g isCurrent => ?_⟩
  · by_cases isD : e = d
    · rw [isD, setAt_self] at onV ⊢
      cases place.symm.trans onV
      rw [setAt_self, isTip]
    · rw [setAt_other isD] at onV ⊢
      have other : v ≠ w := by
        rintro rfl
        exact idle e onV
      rw [setAt_other other]
      exact workers.current e v onV
  · by_cases isW : v = w
    · exact ⟨d, by rw [setAt_self, isW]; exact place⟩
    · rw [setAt_other isW] at isCurrent
      obtain ⟨e, onV⟩ := workers.busy v g isCurrent
      have notD : e ≠ d := fun same => off v (same ▸ onV)
      exact ⟨e, by rw [setAt_other notD]; exact onV⟩

omit [DecidableEq δ] [DecidableEq ω] in
/-- A worker on its scheduling fiber runs no strand. -/
theorem CactusInv.idle (inv : CactusInv s) (none_current : s.current w = none) (e : δ) :
    (s.strand e).place ≠ .on w := by
  intro on
  obtain ⟨f, isCurrent⟩ := inv.current_isSome on
  rw [none_current] at isCurrent
  cases isCurrent

omit [DecidableEq ω] in
/-- The places after a change of one strand that takes fibers away at most. -/
theorem FiberRes.set (res : FiberRes s) (same : SameCaches s s') (spare : s'.spare = s.spare)
    (strand : s'.strand = setAt s.strand d x) (queue : x.queue.Nodup)
    (has : ∀ place g, x.Has (ω := ω) place g → (s.strand d).Has place g) :
    FiberRes s' ∧ ∀ place g, s'.Holds place g → s.Holds place g ∧ (place.strand? = some d → x.Has place g) := by
  have others : ∀ place g, FiberSite.strand? place = none → s'.Holds place g → s.Holds place g := by
    intro place g noStrand held
    by_cases isSpare : ∃ w, place = .spare w
    · obtain ⟨w, rfl⟩ := isSpare
      rw [CactusState.Holds, spare] at held
      exact held
    · exact (same.holds noStrand fun w isW => isSpare ⟨w, isW⟩).1 held
  have only : ∀ place g, s'.Holds place g →
      s.Holds place g ∧ (place.strand? = some d → x.Has place g) := by
    intro place g held
    rcases holds_of_set strand others held with ⟨was, notD⟩ | ⟨isD, now⟩
    · exact ⟨was, fun isD => absurd isD notD⟩
    · exact ⟨(holds_iff_has isD).2 (has place g now), fun _ => now⟩
  refine ⟨res.strands same (fun e => ?_) fun place g held => (only place g held).1, only⟩
  rw [strand]
  by_cases isD : e = d
  · rw [isD, setAt_self]
    exact queue
  · rw [setAt_other isD]
    exact res.queue e

omit [DecidableEq ω] in
/-- One strand changes, and no fiber comes to a place. -/
theorem CactusInv.set (inv : CactusInv s) (same : SameCaches s s') (spare : s'.spare = s.spare)
    (strand : s'.strand = setAt s.strand d x) (tree : CactusTree (setAt s.strand d x))
    (workers : WorkersOk (setAt s.strand d x) s'.current) (queue : x.queue.Nodup) (kept : x.Kept)
    (has : ∀ place g, x.Has place g → (s.strand d).Has place g) : CactusInv s' where
  res := (inv.res.set same spare strand queue has).1
  tree := by rw [strand]; exact tree
  kept := by rw [strand]; exact forall_setAt inv.kept kept
  workers := by rw [strand]; exact workers

end Inv

/-! ### What a step preserves -/

section Steps

variable {d e c : δ} {u : ω} {frame child parent : CactusFrame δ β}
  {frames younger below : List (CactusFrame δ β)} {self : Option β}

/-- Functions that were invoked in the same ways have the same fibers in the queue. -/
theorem queuedFibers_congr {frames' : List (CactusFrame δ β)}
    (same : frames'.map CactusFrame.invocation = frames.map CactusFrame.invocation) :
    queuedFibers frames' = queuedFibers frames := by
  induction frames generalizing frames' with
  | nil => rw [List.map_eq_nil_iff.1 same]
  | cons frame below ih =>
    obtain ⟨frame', below', rfl, isFrame, isBelow⟩ := List.map_eq_cons_iff.1 same
    rw [queuedFibers, queuedFibers, ih isBelow, isFrame]

/-- Functions that were invoked in the same ways go on with the same fibers. -/
theorem initials_congr {frames' : List (CactusFrame δ β)}
    (same : frames'.map CactusFrame.invocation = frames.map CactusFrame.invocation)
    (initials : Initials self frames) : Initials self frames' := by
  induction frames generalizing frames' with
  | nil =>
    rw [List.map_eq_nil_iff.1 same]
    trivial
  | cons frame below ih =>
    obtain ⟨frame', below', rfl, isFrame, isBelow⟩ := List.map_eq_cons_iff.1 same
    refine ⟨fun f initial isFuture => ?_, ih isBelow initials.2⟩
    rw [queuedFibers_congr isBelow]
    exact initials.1 f initial (isFrame ▸ isFuture)

/-- A strand that runs has what its functions need. -/
theorem CactusInv.fibersOk (inv : CactusInv s) (on : (s.strand d).place = .on w) : (s.strand d).FibersOk :=
  (inv.kept d).live (by rw [on]; rfl)

variable [DecidableEq ω] [DecidableEq δ]

/-- A function is called or spawned. -/
theorem CactusInv.push (inv : CactusInv s) (on : (s.strand d).place = .on w) {invocation : Invocation δ β}
    (notBottom : invocation.isBottom = false) (noQueue : invocation.queued = []) :
    CactusInv (s.setStrand d ((s.strand d).push invocation)) := by
  have live : (s.strand d).place.live := by rw [on]; rfl
  have ok := inv.fibersOk on
  refine inv.set ⟨rfl, rfl, rfl, rfl, rfl⟩ rfl rfl (inv.tree.push live live notBottom rfl rfl) ?_
    (inv.res.queue d) ⟨fun _ => ⟨?_, ⟨fun f initial isFuture => ?_, ok.initials⟩, ok.self⟩, fun dead => ?_,
      (inv.kept d).suspended, (inv.kept d).running⟩ fun place g has => ?_
  · exact inv.workers.keep on on (fun e onE => inv.on_unique onE on) (inv.workers.current d w on) fun _ _ => rfl
  · change (s.strand d).queue = queuedFibers (s.strand d).frames ++ invocation.queued
    rw [noQueue, List.append_nil, ok.queue]
  · have isFuture : invocation = .future f initial := isFuture
    rw [isFuture] at noQueue
    cases noQueue
  · exact absurd live (by simpa [CactusStrand.push] using dead)
  · cases place with
    | child e h =>
      obtain ⟨frame, found, isChild⟩ := has
      rcases atHeight_push found with ⟨rfl, -⟩ | found
      · cases isChild
      · exact ⟨frame, found, isChild⟩
    | _ => exact has

/-- A function returns to the one below it. -/
theorem CactusInv.pop (inv : CactusInv s) (on : (s.strand d).place = .on w)
    (isFrames : (s.strand d).frames = frame :: below) (synced : frame.synced)
    (notBottom : frame.invocation.isBottom = false) (noQueue : frame.invocation.queued = []) :
    CactusInv (s.setStrand d { s.strand d with frames := below }) := by
  have live : (s.strand d).place.live := by rw [on]; rfl
  have ok := inv.fibersOk on
  have isQueue := ok.queue
  have initials := ok.initials
  rw [isFrames] at isQueue initials
  rw [queuedFibers, noQueue, List.append_nil] at isQueue
  refine inv.set ⟨rfl, rfl, rfl, rfl, rfl⟩ rfl rfl (inv.tree.pop live live isFrames synced notBottom rfl rfl) ?_
    (inv.res.queue d) ⟨fun _ => ⟨isQueue, initials.2, ok.self⟩, fun dead => ?_,
      (inv.kept d).suspended, (inv.kept d).running⟩ fun place g has => ?_
  · exact inv.workers.keep on on (fun e onE => inv.on_unique onE on) (inv.workers.current d w on) fun _ _ => rfl
  · exact absurd live (by simpa using dead)
  · cases place with
    | child e h =>
      obtain ⟨frame, found, isChild⟩ := has
      exact ⟨frame, isFrames ▸ (atHeight_cons (lt_of_atHeight found)).trans found, isChild⟩
    | _ => exact has

omit [DecidableEq ω] [DecidableEq δ] in
/-- A fiber is put to a place, and was at no other or is there no longer. -/
theorem FiberRes.put {q : FiberSite ω δ} (res : FiberRes s) (same : SameCaches s s')
    (allocated : f ∈ s.allocated) (queue : ∀ d, (s'.strand d).queue.Nodup)
    (only : ∀ place g, s'.Holds place g → (place = q ∧ g = f) ∨ (s.Holds place g ∧ g ≠ f)) : FiberRes s' where
  idx := by rw [same.idx]; exact res.idx
  pool := by rw [same.fiberPool]; exact res.pool
  globalPool := by rw [same.globalPool]; exact res.globalPool
  queue := queue
  exclusive := res.exclusive.put only
  allocated place g held := by
    rw [same.allocated]
    rcases only place g held with ⟨-, rfl⟩ | ⟨was, -⟩
    · exact allocated
    · exact res.allocated place g was

/-- A function calls a future, on a fiber that is at no place. -/
theorem CactusInv.spawnFuture {initial : β} (inv : CactusInv s) (on : (s.strand d).place = .on w)
    (out : ∀ place, ¬s.Holds place f) (allocated : f ∈ s.allocated) (isCurrent : s.current w = some initial) :
    CactusInv ((s.setStrand d ({ s.strand d with queue := (s.strand d).queue ++ [f] }.push
      (.future f initial))).setCurrent w (some f)) := by
  have live : (s.strand d).place.live := by rw [on]; rfl
  have ok := inv.fibersOk on
  have notQueued : f ∉ (s.strand d).queue := out (.queue d)
  have nodup : ((s.strand d).queue ++ [f]).Nodup :=
    List.nodup_append.2 ⟨inv.res.queue d, List.nodup_singleton f, fun g member _ isF same =>
      notQueued (List.mem_singleton.1 isF ▸ same ▸ member)⟩
  have res : FiberRes ((s.setStrand d ({ s.strand d with queue := (s.strand d).queue ++ [f] }.push
      (.future f initial))).setCurrent w (some f)) := by
    refine inv.res.put (q := .queue d) ⟨rfl, rfl, rfl, rfl, rfl⟩ allocated
      (forall_setAt (P := fun x : CactusStrand ω δ β => x.queue.Nodup) inv.res.queue nodup)
      fun place g held => ?_
    have here := holds_of_set (s := s) rfl (fun place g noStrand held => by
      cases place <;> first | exact held | cases noStrand) held
    have other : s.Holds place g → g ≠ f := fun was same => out place (same ▸ was)
    rcases here with ⟨was, -⟩ | ⟨isD, has⟩
    · exact .inr ⟨was, other was⟩
    · cases place with
      | queue e =>
        rcases List.mem_append.1 has with was | isF
        · cases isD
          exact .inr ⟨was, other was⟩
        · cases isD
          exact .inl ⟨rfl, List.mem_singleton.1 isF⟩
      | self e =>
        cases isD
        exact .inr ⟨has, other has⟩
      | child e h =>
        cases isD
        obtain ⟨frame, found, isChild⟩ := has
        rcases atHeight_push found with ⟨rfl, -⟩ | found
        · cases isChild
        · exact .inr ⟨⟨frame, found, isChild⟩, other ⟨frame, found, isChild⟩⟩
      | _ => cases isD
  refine ⟨res, inv.tree.push live live rfl rfl rfl, forall_setAt inv.kept ⟨fun _ => ⟨?_, ⟨?_, ok.initials⟩, ok.self⟩,
    fun dead => ?_, fun suspended => ?_, (inv.kept d).running⟩, ?_⟩
  · change (s.strand d).queue ++ [f] = queuedFibers (s.strand d).frames ++ [f]
    rw [ok.queue]
  · rintro g other isFuture
    cases isFuture
    rw [← isCurrent, inv.workers.current d w on]
    exact congrArg (tipOf _) ok.queue.symm
  · exact absurd live (by simpa [CactusStrand.push] using dead)
  · cases on.symm.trans suspended
  · refine inv.workers.keep on on (fun e onE => inv.on_unique onE on) ?_ fun v other => setAt_other other _ _
    change setAt s.current w (some f) w = tipOf (s.strand d).fiberSelf ((s.strand d).queue ++ [f])
    rw [setAt_self, tipOf, List.getLast?_concat]
    rfl

/-- A future returns: the function that called it goes on with the fiber it was on. -/
theorem CactusInv.futureReturn {initial : β} (inv : CactusInv s) (on : (s.strand d).place = .on w)
    (isFrames : (s.strand d).frames = frame :: below) (isFuture : frame.invocation = .future f initial)
    (synced : frame.synced) {s' : CactusState ω δ β} (isS' : s' = (s.setStrand d { s.strand d with
      frames := below, queue := (s.strand d).queue.dropLast }).setCurrent w (some initial)) :
    s.current w = some f ∧ CactusInv s' ∧ (∀ place, ¬s'.Holds place f) ∧ f ∈ s'.allocated := by
  have live : (s.strand d).place.live := by rw [on]; rfl
  have ok := inv.fibersOk on
  have isQueue := ok.queue
  have initials := ok.initials
  rw [isFrames] at isQueue initials
  have isQueue : (s.strand d).queue = queuedFibers below ++ [f] := by
    rw [isQueue, queuedFibers, isFuture]
    rfl
  have nodup := inv.res.queue d
  rw [isQueue, List.nodup_append] at nodup
  have held : s.Holds (.queue d) f := by
    change f ∈ (s.strand d).queue
    rw [isQueue]
    exact List.mem_append_right _ List.mem_cons_self
  have isRest : (s.strand d).queue.dropLast = queuedFibers below := by rw [isQueue, List.dropLast_concat]
  rw [isRest] at isS'
  have current : s.current w = some f := by
    rw [inv.workers.current d w on, isQueue, tipOf, List.getLast?_concat]
    rfl
  have has : ∀ (place : FiberSite ω δ) g, CactusStrand.Has { s.strand d with
      frames := below, queue := queuedFibers below } place g → (s.strand d).Has place g := by
    intro place g has
    cases place with
    | child e h =>
      obtain ⟨frame, found, isChild⟩ := has
      exact ⟨frame, isFrames ▸ (atHeight_cons (lt_of_atHeight found)).trans found, isChild⟩
    | queue e =>
      change g ∈ (s.strand d).queue
      rw [isQueue]
      exact List.mem_append_left _ has
    | _ => exact has
  have same : SameCaches s s' := by
    rw [isS']
    exact ⟨rfl, rfl, rfl, rfl, rfl⟩
  have strand : s'.strand = setAt s.strand d { s.strand d with frames := below, queue := queuedFibers below } := by
    rw [isS']
  have spare : s'.spare = s.spare := by rw [isS']
  have only := (inv.res.set same spare strand nodup.1 has).2
  refine ⟨current, ?_, inv.res.gone held fun place g heldNow => ⟨(only place g heldNow).1, ?_⟩, ?_⟩
  · refine inv.set same spare strand (inv.tree.pop live live isFrames synced (by rw [isFuture]; rfl) rfl rfl) ?_
      nodup.1 ⟨fun _ => ⟨rfl, initials.2, ok.self⟩, fun dead => ?_, fun suspended => ?_, (inv.kept d).running⟩ has
    · refine inv.workers.keep on on (fun e onE => inv.on_unique onE on) ?_ fun v other => ?_
      · rw [isS']
        exact (setAt_self _ _ _).trans (initials.1 f initial isFuture).symm
      · rw [isS']
        exact setAt_other other _ _
    · exact absurd live (by simpa using dead)
    · cases on.symm.trans suspended
  · rintro rfl rfl
    have still : g ∈ queuedFibers below := (only _ _ heldNow).2 rfl
    exact nodup.2.2 g still g List.mem_cons_self rfl
  · rw [isS']
    exact inv.res.allocated _ f held

omit [DecidableEq δ] in
/-- A thief allocates a fiber. -/
theorem CactusInv.allocate {fiber : Option β} (inv : CactusInv s)
    (out : ∀ f, fiber = some f → (∀ place, ¬s.Holds place f) ∧ f ∈ s.allocated) :
    CactusInv { s with spare := setAt s.spare u fiber } := by
  refine inv.of_same rfl rfl ?_
  have held_or : ∀ place g, CactusState.Holds { s with spare := setAt s.spare u fiber } place g →
      (place = .spare u ∧ fiber = some g) ∨ s.Holds place g := by
    intro place g held
    cases place with
    | spare v =>
      by_cases isU : v = u
      · rw [isU] at held ⊢
        exact .inl ⟨rfl, (setAt_self _ _ _).symm.trans held⟩
      · exact .inr ((setAt_other isU _ _).symm.trans held)
    | _ => exact .inr held
  cases fiber with
  | none =>
    refine inv.res.strands ⟨rfl, rfl, rfl, rfl, rfl⟩ inv.res.queue fun place g held => ?_
    exact (held_or place g held).resolve_left (nofun ∘ And.right)
  | some f =>
    obtain ⟨isOut, allocated⟩ := out f rfl
    refine inv.res.put (q := .spare u) ⟨rfl, rfl, rfl, rfl, rfl⟩ allocated inv.res.queue fun place g held => ?_
    rcases held_or place g held with ⟨isPlace, isF⟩ | was
    · exact .inl ⟨isPlace, (Option.some.inj isF).symm⟩
    · exact .inr ⟨was, fun same => isOut place (same ▸ was)⟩

omit [DecidableEq δ] in
/-- A thief has no fiber any more. -/
theorem CactusInv.giveBack (inv : CactusInv s) (isSpare : s.spare u = some f)
    {s' : CactusState ω δ β} (isS' : s' = { s with spare := setAt s.spare u none }) :
    CactusInv s' ∧ (∀ place, ¬s'.Holds place f) ∧ f ∈ s'.allocated := by
  have only : ∀ place g, s'.Holds place g → s.Holds place g ∧ (place = .spare u → g ≠ f) := by
    intro place g held
    rw [isS'] at held
    cases place with
    | spare v =>
      by_cases isU : v = u
      · rw [isU] at held
        cases (setAt_self _ _ _).symm.trans held
      · exact ⟨(setAt_other isU _ _).symm.trans held, fun same => absurd (FiberSite.spare.inj same) isU⟩
    | _ => exact ⟨held, nofun⟩
  refine ⟨?_, inv.res.gone (p := .spare u) isSpare only, ?_⟩
  · rw [isS'] at only ⊢
    exact inv.of_same rfl rfl
      (inv.res.strands ⟨rfl, rfl, rfl, rfl, rfl⟩ inv.res.queue fun place g held => (only place g held).1)
  · rw [isS']
    exact inv.res.allocated (.spare u) f isSpare

variable {x : CactusStrand ω δ β}

/-- A worker leaves its strand, which keeps at most the fibers that it had. -/
theorem CactusInv.stop (inv : CactusInv s) (on : (s.strand d).place = .on w) (off : ∀ v, x.place ≠ .on v)
    (tree : CactusTree (setAt s.strand d x)) (queue : x.queue.Nodup) (kept : x.Kept)
    (has : ∀ place g, x.Has place g → (s.strand d).Has place g) :
    CactusInv ((s.setStrand d x).setCurrent w none) :=
  inv.set ⟨rfl, rfl, rfl, rfl, rfl⟩ rfl rfl tree (inv.workers.stop on off fun _ onE => inv.on_unique onE on)
    queue kept has

/-- The fiber of the full frame of a strand that does not keep it is at no place. -/
theorem CactusInv.out_of_self (inv : CactusInv s) (on : (s.strand d).place = .on w)
    (isSelf : (s.strand d).fiberSelf = some f) (queue : x.queue.Nodup)
    (has : ∀ place g, x.Has place g → (s.strand d).Has place g) (noSelf : x.place = .dropped ∨ x.fiberSelf = none)
    (fiber : Option β) :
    (∀ place, ¬((s.setStrand d x).setCurrent w fiber).Holds place f) ∧
      f ∈ ((s.setStrand d x).setCurrent w fiber).allocated := by
  have held : s.Holds (.self d) f := ⟨by rw [on]; nofun, isSelf⟩
  have same : SameCaches s ((s.setStrand d x).setCurrent w fiber) := ⟨rfl, rfl, rfl, rfl, rfl⟩
  have only := (inv.res.set same rfl rfl queue has).2
  refine ⟨inv.res.gone held fun place g heldNow => ⟨(only place g heldNow).1, ?_⟩, inv.res.allocated _ f held⟩
  rintro rfl -
  obtain ⟨notDropped, isSelf⟩ := (only _ _ heldNow).2 rfl
  rcases noSelf with dropped | none_self
  · exact notDropped dropped
  · cases none_self.symm.trans isSelf

/-- An idle worker goes on with a strand that nobody runs. -/
theorem CactusInv.start (inv : CactusInv s) (off : ∀ v, (s.strand d).place ≠ .on v)
    (none_current : s.current u = none) (place : x.place = .on u) (isTip : tipOf x.fiberSelf x.queue = some f)
    (tree : CactusTree (setAt s.strand d x)) (kept : x.Kept)
    (res : FiberRes ((s.setStrand d x).setCurrent u (some f))) :
    CactusInv ((s.setStrand d x).setCurrent u (some f)) where
  res := res
  tree := tree
  kept := forall_setAt inv.kept kept
  workers := inv.workers.start off (inv.idle none_current) place isTip

omit [DecidableEq ω] [DecidableEq δ] in
/-- The continuations of a function that waits, and of those below it, are not in the deque. -/
theorem CactusInv.outside (inv : CactusInv s) (live : (s.strand d).place.live)
    (isFrames : (s.strand d).frames = frame :: below) (unsynced : ¬frame.synced) :
    (∀ other ∈ (s.strand d).frames, other.invocation.inDeque = false) ∧ (s.strand d).queue = [] := by
  have wf := (inv.tree.frames d live).wf
  rw [isFrames] at wf
  have outside := wf.2.1 unsynced
  rw [← isFrames] at outside
  exact ⟨outside, (inv.kept d).live live |>.queue.trans (queuedFibers_eq_nil outside)⟩

/-- A function waits at its sync, and its strand has no fiber. -/
theorem CactusInv.stall (inv : CactusInv s) (on : (s.strand d).place = .on w)
    (isFrames : (s.strand d).frames = frame :: below) (unsynced : ¬frame.synced)
    (isSelf : (s.strand d).fiberSelf = some f) {s' : CactusState ω δ β}
    (isS' : s' = (s.setStrand d { s.strand d with place := .stalled, fiberSelf := none }).setCurrent w none) :
    CactusInv s' ∧ (∀ place, ¬s'.Holds place f) ∧ f ∈ s'.allocated := by
  have live : (s.strand d).place.live := by rw [on]; rfl
  obtain ⟨outside, noQueue⟩ := inv.outside live isFrames unsynced
  have frameOk : frame.HomeOk := (inv.tree.frames d live).homes frame (by rw [isFrames]; exact List.mem_cons_self)
  obtain ⟨home, isHome⟩ := Option.ne_none_iff_exists'.1 (mt frameOk.forked.1 unsynced)
  have has : ∀ (place : FiberSite ω δ) g,
      CactusStrand.Has { s.strand d with place := .stalled, fiberSelf := none } place g →
      (s.strand d).Has place g := by
    intro place g has
    cases place with
    | self e => cases has.2
    | _ => exact has
  rw [isS']
  refine ⟨inv.stop on nofun ?_ (inv.res.queue d) ⟨fun _ => ⟨(inv.fibersOk on).queue, initials_of_outside outside,
    ⟨fun _ => rfl, fun _ => rfl⟩⟩, nofun, nofun, fun _ => (inv.kept d).running (by rw [on]; nofun)⟩ has,
    inv.out_of_self (x := { s.strand d with place := .stalled, fiberSelf := none }) on isSelf (inv.res.queue d)
      has (.inr rfl) none⟩
  refine inv.tree.place live rfl rfl ?_
  rw [CactusStrand.root, CactusStrand.root, isFrames, oldestHome, isHome]
  cases oldestHome below <;> rfl

/-- A function goes on after its sync, on the fiber that its leftmost child left. -/
theorem CactusInv.resumeStalled (inv : CactusInv s) (stalled : (s.strand d).place = .stalled)
    (isFrames : (s.strand d).frames = frame :: below) (isFiber : frame.fiberChild = some f)
    (noChildren : frame.children = []) (none_current : s.current u = none) :
    CactusInv ((s.setStrand d { s.strand d with
      place := .on u, frames := { frame with fiberChild := none, home := none } :: below,
      fiberSelf := some f }).setCurrent u (some f)) := by
  have live : (s.strand d).place.live := by rw [stalled]; rfl
  have ok := (inv.kept d).live live
  have unsynced : ¬frame.synced := fun synced => by
    rw [synced.2] at isFiber
    cases isFiber
  obtain ⟨outside, noQueue⟩ := inv.outside live isFrames unsynced
  rw [isFrames] at outside
  have noSelf := ok.self.1 stalled
  have found : atHeight below.length (s.strand d).frames = some frame := by rw [isFrames, atHeight_length]
  have held : s.Holds (.child d below.length) f := ⟨frame, found, isFiber⟩
  have sameInvocations : ({ frame with fiberChild := none, home := none } :: below).map CactusFrame.invocation =
      (frame :: below).map CactusFrame.invocation := rfl
  refine inv.start (by rw [stalled]; nofun) none_current rfl ?_
    (inv.tree.resume live rfl isFrames noChildren isFiber rfl rfl noSelf)
    ⟨fun _ => ⟨?_, ?_, ⟨nofun, nofun⟩⟩, nofun, nofun, fun _ => (inv.kept d).running (by rw [stalled]; nofun)⟩ ?_
  · rw [noQueue]
    rfl
  · exact ok.queue.trans (isFrames ▸ (queuedFibers_congr sameInvocations).symm)
  · exact initials_congr sameInvocations (initials_of_outside outside)
  · refine inv.res.put (q := .self d) ⟨rfl, rfl, rfl, rfl, rfl⟩ (inv.res.allocated _ f held)
      (forall_setAt (P := fun x : CactusStrand ω δ β => x.queue.Nodup) inv.res.queue (inv.res.queue d))
      fun place g heldNow => ?_
    have left : s.Holds place g → place ≠ .child d below.length → g ≠ f := fun was other same =>
      other (inv.res.exclusive _ _ f (same ▸ was) held)
    have here := holds_of_set (s := s) rfl (fun place g noStrand held => by
      cases place <;> first | exact held | cases noStrand) heldNow
    rcases here with ⟨was, notD⟩ | ⟨isD, has⟩
    · exact .inr ⟨was, left was fun same => notD (by rw [same]; rfl)⟩
    · cases place with
      | queue e =>
        cases isD
        exact .inr ⟨has, left has nofun⟩
      | self e =>
        cases isD
        exact .inl ⟨rfl, (Option.some.inj has.2).symm⟩
      | child e h =>
        cases isD
        obtain ⟨other, foundOther, isChild⟩ := has
        rcases atHeight_push foundOther with ⟨rfl, -⟩ | foundBelow
        · cases isChild
        · have low := lt_of_atHeight foundBelow
          have was : s.Holds (.child d h) g := ⟨other, isFrames ▸ (atHeight_cons low).trans foundBelow, isChild⟩
          refine .inr ⟨was, left was fun same => ?_⟩
          cases same
          exact absurd low (Nat.lt_irrefl _)
      | _ => cases isD

/-- A strand is suspended in `get`. -/
theorem CactusInv.suspend (inv : CactusInv s) (on : (s.strand d).place = .on w) :
    CactusInv ((s.setStrand d { s.strand d with place := .suspended, fiber := s.current w }).setCurrent w none) := by
  have live : (s.strand d).place.live := by rw [on]; rfl
  have ok := inv.fibersOk on
  refine inv.stop on nofun (inv.tree.place live rfl rfl rfl) (inv.res.queue d)
    ⟨fun _ => ⟨ok.queue, ok.initials, ⟨nofun, fun noSelf => ?_⟩⟩, nofun, fun _ => inv.workers.current d w on,
      fun notSuspended => absurd rfl notSuspended⟩ fun place g has => ?_
  · have stalled := ok.self.2 noSelf
    cases on.symm.trans stalled
  · cases place with
    | self e => exact ⟨by rw [on]; nofun, has.2⟩
    | _ => exact has

/-- A suspended strand that a worker goes on with keeps its fibers. -/
theorem CactusInv.resume_res (inv : CactusInv s) (suspended : (s.strand d).place = .suspended)
    {s' : CactusState ω δ β} (isS' : s' = (s.setStrand d { s.strand d with
      place := .on u, fiber := none }).setCurrent u (some f)) :
    FiberRes s' ∧ ∀ place g, s'.Holds place g → s.Holds place g := by
  have has : ∀ (place : FiberSite ω δ) g,
      CactusStrand.Has { s.strand d with place := .on u, fiber := none } place g → (s.strand d).Has place g := by
    intro place g has
    cases place with
    | self e => exact ⟨by rw [suspended]; nofun, has.2⟩
    | _ => exact has
  have same : SameCaches s s' := by
    rw [isS']
    exact ⟨rfl, rfl, rfl, rfl, rfl⟩
  have strand : s'.strand = setAt s.strand d { s.strand d with place := .on u, fiber := none } := by rw [isS']
  obtain ⟨res, only⟩ := inv.res.set same (by rw [isS']) strand (inv.res.queue d) has
  exact ⟨res, fun place g held => (only place g held).1⟩

/-- A worker goes on with a suspended strand. -/
theorem CactusInv.resume (inv : CactusInv s) (suspended : (s.strand d).place = .suspended)
    (isFiber : (s.strand d).fiber = some f) (none_current : s.current u = none) :
    CactusInv ((s.setStrand d { s.strand d with place := .on u, fiber := none }).setCurrent u (some f)) := by
  have live : (s.strand d).place.live := by rw [suspended]; rfl
  have ok := (inv.kept d).live live
  refine inv.start (by rw [suspended]; nofun) none_current rfl
    (((inv.kept d).suspended suspended).symm.trans isFiber) (inv.tree.place live rfl rfl rfl)
    ⟨fun _ => ⟨ok.queue, ok.initials, ⟨nofun, fun noSelf => ?_⟩⟩, nofun, nofun, fun _ => rfl⟩
    (inv.resume_res suspended rfl).1
  have stalled := ok.self.2 noSelf
  cases suspended.symm.trans stalled

omit [DecidableEq ω] [DecidableEq δ] in
/-- The last function of a strand that is a future is on the fiber that was taken for it. -/
theorem CactusInv.self_of_future (inv : CactusInv s) (live : (s.strand d).place.live)
    (isFrames : (s.strand d).frames = [frame]) (synced : frame.synced)
    (isFuture : frame.invocation = .futureStolen f) : (s.strand d).fiberSelf = some f := by
  have ok := inv.tree.frames d live
  have noHome := (ok.homes frame (by rw [isFrames]; exact List.mem_cons_self)).forked.2 synced
  have isRoot := ok.future f (by rw [isFrames]; exact congrArg some isFuture)
  rw [CactusStrand.root, isFrames, oldestHome, noHome] at isRoot
  exact isRoot

omit [DecidableEq ω] in
/-- A strand that is a future ends: nobody waits for it. -/
theorem CactusInv.drop_future (inv : CactusInv s) (live : (s.strand d).place.live)
    (isFrames : (s.strand d).frames = [frame]) (synced : frame.synced)
    (isFuture : frame.invocation = .futureStolen f) (dead : x.place.live = false) :
    CactusTree (setAt s.strand d x) := by
  refine inv.tree.drop live dead ?_ ?_
  · rw [isFrames]
    intro other member
    rw [List.mem_singleton.1 member]
    exact synced.1
  · rintro p h isChild
    rw [CactusStrand.ChildOf, isFrames] at isChild
    have isSpawned : frame.invocation = .spawnedStolen p h := Option.some.inj isChild
    rw [isFuture] at isSpawned
    cases isSpawned

omit [DecidableEq ω] [DecidableEq δ] in
/-- A strand that has ended has no fibers. -/
theorem ended_kept : (CactusStrand.ended ω δ β).Kept :=
  ⟨nofun, fun _ => ⟨rfl, nofun, .inr rfl⟩, nofun, fun _ => rfl⟩

omit [DecidableEq ω] [DecidableEq δ] in
theorem ended_has {place : FiberSite ω δ} {g : β} : ¬(CactusStrand.ended ω δ β).Has place g := by
  intro has
  cases place with
  | self e => cases has.2
  | queue e => cases has
  | child e h =>
    obtain ⟨_, found, -⟩ := has
    cases found
  | _ => exact has

/-- A future ends in a strand of its own. -/
theorem CactusInv.futureReturnStolen (inv : CactusInv s) (on : (s.strand d).place = .on w)
    (isFrames : (s.strand d).frames = [frame]) (synced : frame.synced)
    (isFuture : frame.invocation = .futureStolen f) {s' : CactusState ω δ β}
    (isS' : s' = (s.setStrand d (.ended ω δ β)).setCurrent w none) :
    CactusInv s' ∧ (∀ place, ¬s'.Holds place f) ∧ f ∈ s'.allocated := by
  have live : (s.strand d).place.live := by rw [on]; rfl
  have has : ∀ (place : FiberSite ω δ) g, (CactusStrand.ended ω δ β).Has place g → (s.strand d).Has place g :=
    fun place g has => absurd has ended_has
  rw [isS']
  exact ⟨inv.stop on nofun (inv.drop_future live isFrames synced isFuture rfl) List.nodup_nil ended_kept has,
    inv.out_of_self on (inv.self_of_future live isFrames synced isFuture) List.nodup_nil has (.inr rfl) none⟩

/-- A future ends, and its worker leaves its deque, which is destroyed. -/
theorem CactusInv.handOff (inv : CactusInv s) (on : (s.strand d).place = .on w)
    (isFrames : (s.strand d).frames = frame :: below) (synced : frame.synced)
    (outside : ∀ other ∈ frame :: below, other.invocation.inDeque = false)
    (isFuture : frame.invocation.futureFiber? = some f) {s' : CactusState ω δ β}
    (isS' : s' = (s.setStrand d { s.strand d with place := .dropped }).setCurrent w none) :
    s.current w = some f ∧ CactusInv s' ∧ (∀ place, ¬s'.Holds place f) ∧ f ∈ s'.allocated := by
  have live : (s.strand d).place.live := by rw [on]; rfl
  have isStolen : frame.invocation = .futureStolen f := by
    have inDeque := outside frame List.mem_cons_self
    cases isInvocation : frame.invocation with
    | futureStolen g =>
      rw [isInvocation] at isFuture
      cases isFuture
      rfl
    | future g initial =>
      rw [isInvocation] at inDeque
      cases inDeque
    | _ =>
      rw [isInvocation] at isFuture
      cases isFuture
  have wf := (inv.tree.frames d live).wf
  rw [isFrames] at wf
  obtain rfl : below = [] := wf.1.1 (by rw [isStolen]; rfl)
  have noQueue : (s.strand d).queue = [] :=
    (inv.fibersOk on).queue.trans (queuedFibers_eq_nil (isFrames ▸ outside))
  have isSelf := inv.self_of_future live isFrames synced isStolen
  have has : ∀ (place : FiberSite ω δ) g, CactusStrand.Has { s.strand d with place := .dropped } place g →
      (s.strand d).Has place g := by
    intro place g has
    cases place with
    | self e => exact absurd rfl has.1
    | _ => exact has
  rw [isS']
  refine ⟨?_, inv.stop on nofun (inv.drop_future live isFrames synced isStolen rfl) (inv.res.queue d) ⟨nofun,
    fun _ => ⟨noQueue, fun other member => ?_, .inl rfl⟩, nofun,
    fun _ => (inv.kept d).running (by rw [on]; nofun)⟩ has,
    inv.out_of_self (x := { s.strand d with place := .dropped }) on isSelf (inv.res.queue d) has (.inl rfl) none⟩
  · rw [inv.workers.current d w on, noQueue, isSelf]
    rfl
  · change other ∈ (s.strand d).frames at member
    rw [isFrames] at member
    rw [List.mem_singleton.1 member]
    exact synced.2

/-- A spawned function returns to a parent that was stolen. -/
theorem CactusInv.childReturn {p : δ} {h : Nat} (inv : CactusInv s) (on : (s.strand d).place = .on w)
    (isFrames : (s.strand d).frames = [frame]) (synced : frame.synced)
    (isSpawned : frame.invocation = .spawnedStolen p h) (isSelf : (s.strand d).fiberSelf = some f)
    (taken : s.finishSpawnReturn w d p h f = some s') : CactusInv s' := by
  have live : (s.strand d).place.live := by rw [on]; rfl
  obtain ⟨-, liveP, notD⟩ := inv.tree.parent_of_child live isFrames synced isSpawned
  unfold CactusState.finishSpawnReturn at taken
  split at taken
  case h_2 => cases taken
  rename_i parent found
  generalize isUnlink : (fun parent' : CactusFrame δ β => { parent' with
    children := parent'.children.erase d
    fiberChild := if parent.children.head? ≠ some d ∨ parent.fiberChild ≠ none then parent'.fiberChild
      else some f }) = unlink
  generalize isXp : ({ s.strand p with frames := modifyHeight h unlink (s.strand p).frames } :
    CactusStrand ω δ β) = xp
  generalize isNext : ((s.setStrand p xp).setStrand d (.ended ω δ β)).setCurrent w none = next
  have taken : (if parent.children.head? ≠ some d ∨ parent.fiberChild ≠ none then
      next.cilkFiberRemoveReference w f else some next) = some s' := by
    rw [← isNext, ← isXp, ← isUnlink]
    exact taken
  have sameInvocations : (modifyHeight h unlink (s.strand p).frames).map CactusFrame.invocation =
      (s.strand p).frames.map CactusFrame.invocation :=
    map_invocation_modifyHeight found (by rw [← isUnlink])
  have held : s.Holds (.self d) f := ⟨by rw [on]; nofun, isSelf⟩
  have notF : ∀ {place g}, s.Holds place g → place ≠ .self d → g ≠ f := fun was other same =>
    other (inv.res.exclusive _ _ f (same ▸ was) held)
  -- only `fiber_child` of the parent may hold another fiber than before
  have only : ∀ place g, next.Holds place g → (¬(parent.children.head? ≠ some d ∨ parent.fiberChild ≠ none) ∧
      place = .child p h ∧ g = f) ∨ (s.Holds place g ∧ g ≠ f) := by
    intro place g heldNow
    have others : ∀ place g, FiberSite.strand? place = none → (s.setStrand p xp).Holds place g →
        s.Holds place g := fun place g noStrand held => by
      cases place <;> first | exact held | cases noStrand
    have here : (s.setStrand p xp).Holds place g ∧ place.strand? ≠ some d ∨
        place.strand? = some d ∧ (CactusStrand.ended ω δ β).Has place g := by
      refine holds_of_set (by rw [← isNext]) (fun place g noStrand held => ?_) heldNow
      rw [← isNext] at held
      cases place <;> first | exact held | cases noStrand
    rcases here with ⟨heldNow, otherD⟩ | ⟨-, has⟩
    · have notSelf : place ≠ .self d := fun same => otherD (by rw [same]; rfl)
      rcases holds_of_set (s := s) rfl others heldNow with ⟨was, -⟩ | ⟨isP, has⟩
      · exact .inr ⟨was, notF was notSelf⟩
      · rw [← isXp] at has
        cases place with
        | self e =>
          cases isP
          have was : s.Holds (.self p) g := has
          exact .inr ⟨was, notF was notSelf⟩
        | queue e =>
          cases isP
          have was : s.Holds (.queue p) g := has
          exact .inr ⟨was, notF was nofun⟩
        | child e k =>
          cases isP
          obtain ⟨other, foundOther, isChild⟩ := has
          by_cases isH : k = h
          · rw [isH] at foundOther ⊢
            rw [atHeight_modifyHeight found] at foundOther
            obtain rfl := Option.some.inj foundOther
            rw [← isUnlink] at isChild
            simp only at isChild
            split at isChild
            · have was : s.Holds (.child p h) g := ⟨parent, found, isChild⟩
              exact .inr ⟨was, notF was nofun⟩
            · rename_i leftmost
              exact .inl ⟨leftmost, rfl, (Option.some.inj isChild).symm⟩
          · rw [atHeight_modifyHeight_other isH] at foundOther
            have was : s.Holds (.child p k) g := ⟨other, foundOther, isChild⟩
            exact .inr ⟨was, notF was nofun⟩
        | _ => cases isP
    · exact absurd has ended_has
  have same : SameCaches s next := by
    rw [← isNext]
    exact ⟨rfl, rfl, rfl, rfl, rfl⟩
  have strand : next.strand = setAt (setAt s.strand p xp) d (.ended ω δ β) := by rw [← isNext]
  have queue : ∀ e, (next.strand e).queue.Nodup := by
    rw [strand]
    exact forall_setAt (P := fun x : CactusStrand ω δ β => x.queue.Nodup) (forall_setAt
      (P := fun x : CactusStrand ω δ β => x.queue.Nodup) inv.res.queue (by rw [← isXp]; exact inv.res.queue p))
      List.nodup_nil
  have res : FiberRes next := inv.res.put (q := .child p h) same (inv.res.allocated _ f held) queue
    fun place g heldNow => (only place g heldNow).imp_left And.right
  have ok := (inv.kept p).live liveP
  have kept : xp.Kept := by
    rw [← isXp]
    exact ⟨fun _ => ⟨ok.queue.trans (queuedFibers_congr sameInvocations).symm,
      initials_congr sameInvocations ok.initials, ok.self⟩, fun dead => absurd liveP (by simpa using dead),
      (inv.kept p).suspended, (inv.kept p).running⟩
  have at_d : setAt s.strand p xp d = s.strand d := setAt_other (Ne.symm notD) _ _
  have places : ∀ e, (setAt s.strand p xp e).place = (s.strand e).place := by
    intro e
    by_cases isP : e = p
    · rw [isP, setAt_self, ← isXp]
    · rw [setAt_other isP]
  have invNext : CactusInv next := by
    refine ⟨res, ?_, ?_, ?_⟩
    · rw [strand]
      have framesP : xp.frames = modifyHeight h unlink (s.strand p).frames := by rw [← isXp]
      exact inv.tree.join live rfl isFrames synced isSpawned isSelf found (by rw [← isXp]) framesP
        (by rw [← isXp]) (by rw [← isUnlink])
    · rw [strand]
      exact forall_setAt (forall_setAt inv.kept kept) ended_kept
    · rw [strand, ← isNext]
      refine (inv.workers.same (by rw [← isXp]) (by rw [← isXp])).stop (by rw [at_d]; exact on) nofun
        fun e onE => inv.on_unique ((places e).symm.trans onE) on
  split at taken
  · rename_i notLeftmost
    have out : ∀ place, ¬next.Holds place f := fun place heldNow =>
      (only place f heldNow).elim (fun leftmost => leftmost.1 notLeftmost) fun was => was.2 rfl
    have allocated : f ∈ next.allocated := by
      rw [same.allocated]
      exact inv.res.allocated _ f held
    have gave := res.cilkFiberRemoveReference out allocated taken
    exact invNext.of_same gave.same.strand gave.same.current gave.res
  · cases taken
    exact invNext

/-- A thief goes on with a strand, and what was above the stolen continuation keeps its worker. -/
theorem WorkersOk.steal {T : δ → CactusStrand ω δ β} {current : ω → Option β} {xc xd : CactusStrand ω δ β}
    (workers : WorkersOk T current) (idle : ∀ e, (T e).place ≠ .on u) (off : ∀ v, (T c).place ≠ .on v)
    (other : c ≠ d) (placeC : xc.place = (T d).place)
    (tipC : tipOf xc.fiberSelf xc.queue = tipOf (T d).fiberSelf (T d).queue) (placeD : xd.place = .on u)
    (tipD : tipOf xd.fiberSelf xd.queue = some f) :
    WorkersOk (setAt (setAt T c xc) d xd) (setAt current u (some f)) := by
  have at_c : setAt (setAt T c xc) d xd c = xc := by rw [setAt_other other, setAt_self]
  have at_other : ∀ e, e ≠ c → e ≠ d → setAt (setAt T c xc) d xd e = T e := fun e notC notD => by
    rw [setAt_other notD, setAt_other notC]
  refine ⟨fun e v onV => ?_, fun v g isCurrent => ?_⟩
  · by_cases isD : e = d
    · rw [isD, setAt_self] at onV ⊢
      cases placeD.symm.trans onV
      rw [setAt_self, tipD]
    · by_cases isC : e = c
      · rw [isC, at_c] at onV ⊢
        rw [placeC] at onV
        rw [setAt_other (by rintro rfl; exact idle d onV), tipC]
        exact workers.current d v onV
      · rw [at_other e isC isD] at onV ⊢
        rw [setAt_other (by rintro rfl; exact idle e onV)]
        exact workers.current e v onV
  · by_cases isU : v = u
    · exact ⟨d, by rw [setAt_self, isU]; exact placeD⟩
    · rw [setAt_other isU] at isCurrent
      obtain ⟨e, onV⟩ := workers.busy v g isCurrent
      have notC : e ≠ c := fun same => off v (same ▸ onV)
      by_cases isD : e = d
      · exact ⟨c, by rw [at_c, placeC, ← isD]; exact onV⟩
      · exact ⟨e, by rw [at_other e notC isD]; exact onV⟩

omit [DecidableEq ω] in
/-- The places after a change of two strands. -/
theorem holds_of_set_two {xc xd : CactusStrand ω δ β} {place : FiberSite ω δ} {g : β}
    (strand : s'.strand = setAt (setAt s.strand c xc) d xd)
    (others : ∀ place g, FiberSite.strand? place = none → s'.Holds place g → s.Holds place g)
    (held : s'.Holds place g) :
    (s.Holds place g ∧ place.strand? ≠ some c ∧ place.strand? ≠ some d) ∨
      (place.strand? = some c ∧ xc.Has place g) ∨ (place.strand? = some d ∧ xd.Has place g) := by
  rcases holds_of_set (s := s.setStrand c xc) strand (fun place g noStrand held => by
    have was := others place g noStrand held
    cases place <;> first | exact was | cases noStrand) held with ⟨was, notD⟩ | has
  · rcases holds_of_set (s := s) rfl (fun place g noStrand held => by
      cases place <;> first | exact held | cases noStrand) was with ⟨was, notC⟩ | has
    · exact .inl ⟨was, notC, notD⟩
    · exact .inr (.inl has)
  · exact .inr (.inr has)

omit [DecidableEq ω] [DecidableEq δ] in
/-- The queue of a strand begins with the fiber of the future whose continuation is the oldest one. -/
theorem CactusStrand.FibersOk.split {x : CactusStrand ω δ β} (ok : x.FibersOk)
    (isFrames : x.frames = younger ++ child :: below)
    (outside : ∀ other ∈ below, other.invocation.inDeque = false) :
    x.queue = child.invocation.queued ++ queuedFibers younger := by
  rw [ok.queue, isFrames, queuedFibers_append, queuedFibers, queuedFibers_eq_nil outside, List.nil_append]

omit [DecidableEq ω] [DecidableEq δ] in
/-- The functions above a stolen continuation have no `fiber_child`. -/
theorem CactusInv.upper_has (inv : CactusInv s) (live : (s.strand d).place.live)
    (isFrames : (s.strand d).frames = younger ++ child :: below) (inDeque : child.invocation.inDeque = true)
    {invocation : Invocation δ β} {h : Nat}
    (found : atHeight h (younger ++ [{ child with invocation := invocation }]) = some frame) :
    frame.fiberChild = none := by
  have wf := (inv.tree.frames d live).wf
  rw [isFrames] at wf
  have synced := wf.synced_above inDeque
  rcases List.mem_append.1 (mem_of_atHeight found) with member | member
  · exact (synced frame (List.mem_append_left _ member)).2
  · rw [List.mem_singleton.1 member]
    exact (synced child (by simp)).2

/-- A thief takes the continuation of a function that spawned, and goes on with the fiber it has. -/
theorem CactusInv.stealSpawned (inv : CactusInv s) (none_current : s.current u = none)
    (unused : (s.strand c).place = .unused) (place : (∃ w, (s.strand d).place = .on w) ∨
      (s.strand d).place = .suspended) (isSplit : splitOldest (s.strand d).frames = some (younger, child, parent :: below))
    (isSpawned : child.invocation = .spawned) (isSpare : s.spare u = some f) {xc xd : CactusStrand ω δ β}
    (isXc : xc = { s.strand d with
      frames := younger ++ [{ child with invocation := .spawnedStolen d below.length }] })
    (isXd : xd = ⟨.on u, { parent with
      children := parent.children ++ [c]
      home := if parent.synced then (s.strand d).fiberSelf else parent.home } :: below, some f, [], none⟩) :
    CactusInv { ((s.setStrand c xc).setStrand d xd).setCurrent u (some f) with spare := setAt s.spare u none } := by
  obtain ⟨isFrames, inDeque, outside⟩ := splitOldest_spec isSplit
  have live : (s.strand d).place.live := by rcases place with ⟨w, on⟩ | suspended <;> simp [*, CactusPlace.live]
  have notStalled : (s.strand d).place ≠ .stalled := by rcases place with ⟨w, on⟩ | suspended <;> simp [*]
  have notC : c ≠ d := by
    rintro rfl
    rw [unused] at live
    cases live
  have ok := (inv.kept d).live live
  obtain ⟨self, isSelf⟩ := Option.ne_none_iff_exists'.1 (mt ok.self.2 notStalled)
  have isQueue := ok.split isFrames outside
  rw [isSpawned] at isQueue
  have isQueue : (s.strand d).queue = queuedFibers younger := isQueue
  have initials := ok.initials
  rw [isFrames] at initials
  have kept := inv.kept d
  have notDropped : (s.strand d).place ≠ .dropped := by rcases place with ⟨w, on⟩ | suspended <;> simp [*]
  -- where each fiber was before
  have origin : ∀ p g, CactusState.Holds { ((s.setStrand c xc).setStrand d xd).setCurrent u (some f) with
      spare := setAt s.spare u none } p g → (p = .self c ∧ s.Holds (.self d) g) ∨
        (p = .queue c ∧ s.Holds (.queue d) g) ∨ (p = .self d ∧ s.Holds (.spare u) g) ∨
        (s.Holds p g ∧ p ≠ .self d ∧ p ≠ .queue d ∧ p ≠ .spare u) := by
    intro p g held
    by_cases isU : p = .spare u
    · rw [isU] at held
      cases (setAt_self _ _ _).symm.trans held
    · rcases holds_of_set_two (s := s) rfl (fun p g noStrand held => by
        cases p with
        | spare v =>
          by_cases isU : v = u
          · rw [isU] at held
            cases (setAt_self _ _ _).symm.trans held
          · exact (setAt_other isU _ _).symm.trans held
        | _ => first | exact held | cases noStrand) held with ⟨was, -, notD⟩ | ⟨isC, has⟩ | ⟨isD, has⟩
      · exact .inr (.inr (.inr ⟨was, fun same => notD (by rw [same]; rfl), fun same => notD (by rw [same]; rfl),
          isU⟩))
      · rw [isXc] at has
        cases p with
        | self e =>
          cases isC
          exact .inl ⟨rfl, notDropped, has.2⟩
        | queue e =>
          cases isC
          exact .inr (.inl ⟨rfl, has⟩)
        | child e h =>
          obtain ⟨frame, found, isChild⟩ := has
          rw [inv.upper_has live isFrames inDeque found] at isChild
          cases isChild
        | _ => cases isC
      · rw [isXd] at has
        cases p with
        | self e =>
          cases isD
          exact .inr (.inr (.inl ⟨rfl, isSpare.trans has.2⟩))
        | queue e => cases has
        | child e h =>
          cases isD
          obtain ⟨frame, found, isChild⟩ := has
          refine .inr (.inr (.inr ⟨?_, nofun, nofun, nofun⟩))
          rcases atHeight_push found with ⟨rfl, isTop⟩ | found
          · refine ⟨parent, ?_, isChild⟩
            rw [isFrames, List.append_cons, isTop, atHeight_append (Nat.lt_succ_self _), atHeight_length]
          · have low := lt_of_atHeight found
            refine ⟨frame, ?_, isChild⟩
            rw [isFrames, List.append_cons, atHeight_append (Nat.lt_succ_of_lt low), atHeight_cons low, found]
        | _ => cases isD
  refine ⟨⟨inv.res.idx, inv.res.pool, inv.res.globalPool, ?_, fun p q g atP atQ => ?_, fun p g held => ?_⟩, ?_, ?_, ?_⟩
  · refine forall_setAt (P := fun x : CactusStrand ω δ β => x.queue.Nodup) (forall_setAt
      (P := fun x : CactusStrand ω δ β => x.queue.Nodup) inv.res.queue ?_) ?_
    · rw [isXc]
      exact inv.res.queue d
    · rw [isXd]
      exact List.nodup_nil
  · rcases origin p g atP with ⟨rfl, wasP⟩ | ⟨rfl, wasP⟩ | ⟨rfl, wasP⟩ | ⟨wasP, notSelfP, notQueueP, notSpareP⟩ <;>
    rcases origin q g atQ with ⟨rfl, wasQ⟩ | ⟨rfl, wasQ⟩ | ⟨rfl, wasQ⟩ | ⟨wasQ, notSelfQ, notQueueQ, notSpareQ⟩ <;>
    have same := inv.res.exclusive _ _ g wasP wasQ <;>
    first | rfl | exact same | exact absurd same.symm ‹_› | exact absurd same ‹_› | cases same
  · rcases origin p g held with ⟨-, was⟩ | ⟨-, was⟩ | ⟨-, was⟩ | ⟨was, -⟩ <;> exact inv.res.allocated _ g was
  · refine inv.tree.fork live (by rw [unused]; rfl) (by rw [isXc]; exact live) (by rw [isXd]; rfl) isFrames inDeque
      outside isSelf (by rw [isXc]; exact isSelf) (by rw [isXd]) (by rw [isXc]) ?_
    rw [isXd, isSelf]
  · refine forall_setAt (forall_setAt inv.kept ?_) ?_
    · rw [isXc]
      refine ⟨fun _ => ⟨?_, ?_, ok.self⟩, fun dead => absurd live (by simpa using dead), kept.suspended,
        kept.running⟩
      · rw [queuedFibers_append, isQueue]
        rfl
      · refine initials_upper initials (fun l => ?_) rfl ⟨nofun, trivial⟩
        rw [queuedFibers, queuedFibers_eq_nil outside, isSpawned]
        rfl
    · rw [isXd]
      exact ⟨fun _ => ⟨(queuedFibers_eq_nil (by simpa using outside)).symm,
        initials_of_outside (by simpa using outside), ⟨nofun, nofun⟩⟩, nofun, nofun, fun _ => rfl⟩
  · exact inv.workers.steal (inv.idle none_current) (by rw [unused]; nofun) notC (by rw [isXc]) (by rw [isXc])
      (by rw [isXd]) (by rw [isXd]; rfl)

/-- A thief takes the continuation of a function that called a future, and goes on with the fiber that the
function was on; the future keeps its own. -/
theorem CactusInv.stealFuture (inv : CactusInv s) (none_current : s.current u = none)
    (unused : (s.strand c).place = .unused) (place : (∃ w, (s.strand d).place = .on w) ∨
      (s.strand d).place = .suspended) (isSplit : splitOldest (s.strand d).frames = some (younger, child, parent :: below))
    {fiber initial popped self : β} {rest : List β} (isFuture : child.invocation = .future fiber initial)
    (isQueue : (s.strand d).queue = popped :: rest) (isSelf : (s.strand d).fiberSelf = some self)
    {xc xd : CactusStrand ω δ β} (isXc : xc = { s.strand d with
      frames := younger ++ [{ child with invocation := .futureStolen fiber }]
      fiberSelf := some popped, queue := rest })
    (isXd : xd = ⟨.on u, parent :: below, some self, [], none⟩) :
    CactusInv (((s.setStrand c xc).setStrand d xd).setCurrent u (some self)) := by
  obtain ⟨isFrames, inDeque, outside⟩ := splitOldest_spec isSplit
  have live : (s.strand d).place.live := by rcases place with ⟨w, on⟩ | suspended <;> simp [*, CactusPlace.live]
  have notStalled : (s.strand d).place ≠ .stalled := by rcases place with ⟨w, on⟩ | suspended <;> simp [*]
  have notDropped : (s.strand d).place ≠ .dropped := by rcases place with ⟨w, on⟩ | suspended <;> simp [*]
  have notC : c ≠ d := by
    rintro rfl
    rw [unused] at live
    cases live
  have ok := (inv.kept d).live live
  have kept := inv.kept d
  have initials := ok.initials
  rw [isFrames] at initials
  -- the fiber at the head of the queue is that of the future
  obtain ⟨rfl, isRest⟩ : popped = fiber ∧ rest = queuedFibers younger := by
    have isSplitQueue := ok.split isFrames outside
    rw [isFuture, isQueue] at isSplitQueue
    exact List.cons.inj isSplitQueue
  have nodup := inv.res.queue d
  rw [isQueue, List.nodup_cons] at nodup
  have isHead : s.Holds (.queue d) popped := by
    change popped ∈ (s.strand d).queue
    rw [isQueue]
    exact List.mem_cons_self
  have inQueue : ∀ g ∈ rest, s.Holds (.queue d) g := fun g member => by
    change g ∈ (s.strand d).queue
    rw [isQueue]
    exact List.mem_cons_of_mem _ member
  -- where each fiber was before
  have origin : ∀ p g, (((s.setStrand c xc).setStrand d xd).setCurrent u (some self)).Holds p g →
      (p = .self c ∧ g = popped) ∨ (p = .queue c ∧ g ∈ rest) ∨ (s.Holds p g ∧ p ≠ .queue d) := by
    intro p g held
    rcases holds_of_set_two (s := s) rfl (fun p g noStrand held => by
      cases p <;> first | exact held | cases noStrand) held with ⟨was, -, notD⟩ | ⟨isC, has⟩ | ⟨isD, has⟩
    · exact .inr (.inr ⟨was, fun same => notD (by rw [same]; rfl)⟩)
    · rw [isXc] at has
      cases p with
      | self e =>
        cases isC
        exact .inl ⟨rfl, (Option.some.inj has.2).symm⟩
      | queue e =>
        cases isC
        exact .inr (.inl ⟨rfl, has⟩)
      | child e h =>
        obtain ⟨frame, found, isChild⟩ := has
        rw [inv.upper_has live isFrames inDeque found] at isChild
        cases isChild
      | _ => cases isC
    · rw [isXd] at has
      cases p with
      | self e =>
        cases isD
        exact .inr (.inr ⟨⟨notDropped, isSelf.trans has.2⟩, nofun⟩)
      | queue e => cases has
      | child e h =>
        cases isD
        obtain ⟨frame, found, isChild⟩ := has
        refine .inr (.inr ⟨⟨frame, ?_, isChild⟩, nofun⟩)
        rw [isFrames, List.append_cons, atHeight_append (lt_of_atHeight found), found]
      | _ => cases isD
  refine ⟨⟨inv.res.idx, inv.res.pool, inv.res.globalPool, ?_, fun p q g atP atQ => ?_, fun p g held => ?_⟩, ?_, ?_, ?_⟩
  · refine forall_setAt (P := fun x : CactusStrand ω δ β => x.queue.Nodup) (forall_setAt
      (P := fun x : CactusStrand ω δ β => x.queue.Nodup) inv.res.queue ?_) ?_
    · rw [isXc]
      exact nodup.2
    · rw [isXd]
      exact List.nodup_nil
  · have notRest : popped ∉ rest := nodup.1
    have notStay : ∀ {p}, s.Holds p popped → p ≠ .queue d → False := fun was other =>
      other (inv.res.exclusive _ _ popped was isHead)
    have notStayRest : ∀ {p}, g ∈ rest → s.Holds p g → p ≠ .queue d → False := fun member was other =>
      other (inv.res.exclusive _ _ g was (inQueue g member))
    rcases origin p g atP with ⟨rfl, rfl⟩ | ⟨rfl, memberP⟩ | ⟨wasP, otherP⟩ <;>
      rcases origin q g atQ with ⟨rfl, isG⟩ | ⟨rfl, memberQ⟩ | ⟨wasQ, otherQ⟩
    · rfl
    · exact absurd memberQ notRest
    · exact (notStay wasQ otherQ).elim
    · exact absurd (isG ▸ memberP) notRest
    · rfl
    · exact (notStayRest memberP wasQ otherQ).elim
    · exact (notStay (isG ▸ wasP) otherP).elim
    · exact (notStayRest memberQ wasP otherP).elim
    · exact inv.res.exclusive _ _ g wasP wasQ
  · rcases origin p g held with ⟨-, rfl⟩ | ⟨-, member⟩ | ⟨was, -⟩
    · exact inv.res.allocated _ g isHead
    · exact inv.res.allocated _ g (inQueue g member)
    · exact inv.res.allocated _ g was
  · exact inv.tree.stealFuture live (by rw [unused]; rfl) (by rw [isXc]; exact live) (by rw [isXd]; rfl) isFrames
      inDeque outside (by rw [isXc]) (by rw [isXd]; exact isSelf.symm) (by rw [isXc]) (by rw [isXd])
  · refine forall_setAt (forall_setAt inv.kept ?_) ?_
    · rw [isXc]
      refine ⟨fun _ => ⟨?_, ?_, ⟨fun stalled => absurd stalled notStalled, nofun⟩⟩,
        fun dead => absurd live (by simpa using dead), fun suspended => ?_, kept.running⟩
      · rw [queuedFibers_append, isRest]
        rfl
      · refine initials_upper initials (fun l => ?_) rfl ⟨nofun, trivial⟩
        rw [queuedFibers, queuedFibers_eq_nil outside, isFuture]
        exact tipOf_cons l
      · rw [kept.suspended suspended, isQueue]
        exact tipOf_cons rest
    · rw [isXd]
      exact ⟨fun _ => ⟨(queuedFibers_eq_nil outside).symm, initials_of_outside outside, ⟨nofun, nofun⟩⟩, nofun,
        nofun, fun _ => rfl⟩
  · refine inv.workers.steal (inv.idle none_current) (by rw [unused]; nofun) notC (by rw [isXc]) ?_
      (by rw [isXd]) (by rw [isXd]; rfl)
    rw [isXc, isQueue]
    exact (tipOf_cons rest).symm

omit [DecidableEq δ] [DecidableEq ω] in
/-- It holds at the start. -/
theorem CactusInv.initial (start : s.Initial) : CactusInv s := by
  have strand : ∀ d, (s.strand d).Kept ∧ (s.strand d).queue = [] ∧ ∀ frame ∈ (s.strand d).frames,
      frame = .enter .root := by
    intro d
    rcases start.strand d with unused | ⟨w, f, isRoot, -⟩
    · rw [unused]
      exact ⟨⟨(by rintro ⟨⟩), fun _ => ⟨rfl, (by rintro _ ⟨⟩), .inr rfl⟩, (by rintro ⟨⟩), fun _ => rfl⟩, rfl, by rintro _ ⟨⟩⟩
    · rw [isRoot]
      exact ⟨⟨fun _ => ⟨rfl, ⟨(by rintro _ _ ⟨⟩), trivial⟩, ⟨(by rintro ⟨⟩), by rintro ⟨⟩⟩⟩, (by rintro ⟨⟩), (by rintro ⟨⟩), fun _ => rfl⟩, rfl,
        fun _ => List.mem_singleton.1⟩
  have noChild : ∀ d p h, ¬(s.strand d).ChildOf p h := by
    intro d p h isChild
    rw [CactusStrand.ChildOf, bottomOf, Option.map_eq_some_iff] at isChild
    obtain ⟨frame, isLast, isSpawned⟩ := isChild
    rw [(strand d).2.2 frame (List.mem_of_getLast? isLast)] at isSpawned
    cases isSpawned
  refine ⟨⟨fun w => ?_, start.pools, start.globalPool, fun d => ?_, start.exclusive, start.allocated⟩,
    ⟨fun d live => ?_, fun d p h _ isChild => absurd isChild (noChild d p h), fun p h frame _ found => ?_,
      fun d p h _ _ isChild => absurd isChild (noChild d p h)⟩, fun d => (strand d).1, fun d w on => ?_,
    start.current⟩
  · rw [start.idx w]
    decide
  · rw [(strand d).2.1]
    exact List.nodup_nil
  · rcases start.strand d with unused | ⟨w, f, isRoot, -⟩
    · rw [unused] at live
      cases live
    · rw [isRoot]
      refine ⟨⟨⟨fun _ => rfl, fun _ => rfl⟩, fun unsynced => absurd (enter_synced _) unsynced,
        fun nonempty => absurd rfl nonempty⟩, fun frame member => ?_, by rintro _ ⟨⟩⟩
      rw [List.mem_singleton.1 member]
      exact enter_homeOk _
  · rw [(strand p).2.2 frame (mem_of_atHeight found)]
    exact ⟨List.nodup_nil, by rintro _ ⟨⟩⟩
  · rcases start.strand d with unused | ⟨v, f, isRoot, isCurrent⟩
    · rw [unused] at on
      cases on
    · rw [isRoot] at on ⊢
      cases on
      exact isCurrent

end Steps

/-! ### The claim about the caches -/

/-- The caches of the fibers for futures are sound. -/
structure CacheSound (s : CactusState ω δ β) : Prop where
  idx : ∀ w, -1 ≤ s.futureFiberPoolIdx w ∧ s.futureFiberPoolIdx w ≤ maxFutureFibersInPool - 1
  /-- A fiber in a live slot is in no other live slot, no pool, no queue and no full frame. -/
  only : ∀ w i f, s.Holds (.slot w i) f → ∀ place, s.Holds place f → place = .slot w i
  /-- No deque has it for the time it is resumed. -/
  deque : ∀ w i f, s.Holds (.slot w i) f → ∀ d, (s.strand d).fiber ≠ some f
  /-- No worker runs on it. -/
  running : ∀ w i f, s.Holds (.slot w i) f → ∀ v, s.current v ≠ some f

/-- A fiber is in exactly one of the caches and pools, and nowhere else. -/
def GivenBack (s : CactusState ω δ β) (f : β) : Prop :=
  ∃ place : FiberSite ω δ, place.isCacheOrPool ∧ s.Holds place f ∧ (∀ other, s.Holds other f → other = place) ∧
    (∀ d, (s.strand d).fiber ≠ some f) ∧ ∀ v, s.current v ≠ some f

/-- A step ends the function of a future, which the fiber was taken for. -/
def EndsFuture (s : CactusState ω δ β) : CactusLabel ω δ β → β → Prop
  | .futureReturn d, f | .futureReturnStolen d, f | .handOff d _, f | .throw d, f =>
      ∃ frame below, (s.strand d).frames = frame :: below ∧ frame.invocation.futureFiber? = some f
  | _, _ => False

/-- No exception leaves the function of a future. -/
def NoThrow (_ : CactusState ω δ β) : CactusLabel ω δ β → Prop
  | .throw _ => False
  | _ => True

instance (s : CactusState ω δ β) (label : CactusLabel ω δ β) : Decidable (NoThrow s label) := by
  unfold NoThrow
  split <;> infer_instance

/-- The fiber of a deque and that of a worker are at places of strands. -/
theorem CactusInv.not_used (inv : CactusInv s) {place : FiberSite ω δ} (isPlace : place.isCacheOrPool)
    (held : s.Holds place f) : (∀ d, (s.strand d).fiber ≠ some f) ∧ ∀ v, s.current v ≠ some f := by
  have off : ∀ d, ¬(s.Holds (.queue d) f ∨ (s.strand d).queue = [] ∧ s.Holds (.self d) f) := by
    rintro d (has | ⟨-, has⟩) <;> cases inv.res.exclusive _ _ f has held <;> cases isPlace
  refine ⟨fun d isFiber => ?_, fun v isCurrent => ?_⟩
  · by_cases suspended : (s.strand d).place = .suspended
    · rw [(inv.kept d).suspended suspended] at isFiber
      exact off d (CactusStrand.has_tip d (by rw [suspended]; nofun) isFiber)
    · rw [(inv.kept d).running suspended] at isFiber
      cases isFiber
  · obtain ⟨d, on⟩ := inv.workers.busy v f isCurrent
    exact off d (inv.holds_current on isCurrent)

theorem CactusInv.cacheSound (inv : CactusInv s) : CacheSound s where
  idx := inv.res.idx
  only _ _ f held _ other := inv.res.exclusive _ _ f other held
  deque _ _ _ held := (inv.not_used rfl held).1
  running _ _ _ held := (inv.not_used rfl held).2

/-- What was given to a cache or a pool is there and nowhere else. -/
theorem CactusInv.givenBack {s₀ : CactusState ω δ β} (inv : CactusInv s) (gave : Gave s₀ s f) : GivenBack s f := by
  obtain ⟨place, isPlace, held⟩ := gave.given
  exact ⟨place, isPlace, held, fun other heldOther => inv.res.exclusive _ _ f heldOther held,
    inv.not_used isPlace held⟩

variable [DecidableEq ω] [DecidableEq δ] [DecidableEq β]

/-- A step without an exception keeps the places of the fibers, and the fiber of a future that it ends is in
a cache or a pool. -/
theorem CactusInv.of_step {label : CactusLabel ω δ β} (inv : CactusInv s) (allowed : NoThrow s label)
    (taken : cactusStep s label = some s') : CactusInv s' ∧ ∀ f, EndsFuture s label f → GivenBack s' f := by
  unfold cactusStep at taken
  split at taken
  · cases taken
  cases label with
  | call d =>
    simp only at taken
    split at taken <;> cases taken
    exact ⟨inv.push ‹_› rfl rfl, by rintro _ ⟨⟩⟩
  | spawn d =>
    simp only at taken
    split at taken <;> cases taken
    exact ⟨inv.push ‹_› rfl rfl, by rintro _ ⟨⟩⟩
  | spawnFuture d heap heapOfParent =>
    simp only at taken
    split at taken
    case h_2 => cases taken
    split at taken <;> cases taken
    rename_i w on _ _ fiber s₁ initial isTaken isCurrent
    have took := inv.res.takeFiber isTaken
    have inv₁ := inv.of_same took.same.strand took.same.current took.res
    obtain ⟨out, allocated⟩ := took.out fiber rfl
    have on₁ : (s₁.strand d).place = .on w := by rw [took.same.strand]; exact on
    exact ⟨inv₁.spawnFuture on₁ out allocated (by rw [took.same.current]; exact isCurrent), by rintro _ ⟨⟩⟩
  | leave d =>
    simp only at taken
    split at taken
    case h_2 => cases taken
    split at taken <;> cases taken
    rename_i w frame below on isFrames leaves
    refine ⟨inv.pop on isFrames leaves.1 ?_ ?_, by rintro _ ⟨⟩⟩ <;>
      rcases leaves.2 with called | spawned <;> simp [*, Invocation.isBottom, Invocation.queued]
  | futureReturn d =>
    simp only at taken
    split at taken
    case h_2 => cases taken
    rename_i w frame below on isFrames
    split at taken
    case h_2 => cases taken
    rename_i fiber initial current isFuture isCurrent
    split at taken
    case isFalse => cases taken
    rename_i returns
    obtain ⟨isFiber, inv₁, out, allocated⟩ := inv.futureReturn on isFrames isFuture returns.1 rfl
    obtain rfl := Option.some.inj (isCurrent.symm.trans isFiber)
    have gave := inv₁.res.returnFiber out allocated taken
    have inv' := inv₁.of_same gave.same.strand gave.same.current gave.res
    refine ⟨inv', fun f ends => ?_⟩
    obtain ⟨frame', below', isFrames', isFuture'⟩ := ends
    obtain ⟨rfl, rfl⟩ := List.cons.inj (isFrames.symm.trans isFrames')
    rw [isFuture] at isFuture'
    obtain rfl := Option.some.inj isFuture'
    exact inv'.givenBack gave
  | allocate u heap heapOfParent =>
    simp only at taken
    split at taken
    case isFalse => cases taken
    rw [Option.map_eq_some_iff] at taken
    obtain ⟨⟨fiber, s₁⟩, isTaken, rfl⟩ := taken
    have took := inv.res.cilkFiberAllocate isTaken
    have inv₁ := inv.of_same took.same.strand took.same.current took.res
    exact ⟨inv₁.allocate took.out, by rintro _ ⟨⟩⟩
  | giveBack u =>
    simp only at taken
    split at taken
    case h_2 => cases taken
    rename_i fiber isSpare
    obtain ⟨inv₁, out, allocated⟩ := inv.giveBack isSpare rfl
    have gave := inv₁.res.cilkFiberRemoveReference out allocated taken
    exact ⟨inv₁.of_same gave.same.strand gave.same.current gave.res, by rintro _ ⟨⟩⟩
  | steal u d c =>
    simp only at taken
    split at taken
    case isFalse => cases taken
    rename_i thief
    have steals : ∀ {younger child parent below}, splitOldest (s.strand d).frames =
        some (younger, child, parent :: below) → (∃ w, (s.strand d).place = .on w) ∨
        (s.strand d).place = .suspended → s.detachForSteal u d c younger child parent below = some s' →
        CactusInv s' := by
      intro younger child parent below isSplit place taken
      unfold CactusState.detachForSteal at taken
      simp only at taken
      split at taken
      · split at taken <;> cases taken
        exact inv.stealSpawned thief.1 thief.2 place isSplit ‹_› ‹_› rfl rfl
      · split at taken <;> cases taken
        exact inv.stealFuture thief.1 thief.2 place isSplit ‹_› ‹_› ‹_› rfl rfl
      · cases taken
    split at taken
    · exact ⟨steals ‹_› (.inl ⟨_, ‹_›⟩) taken, by rintro _ ⟨⟩⟩
    · exact ⟨steals ‹_› (.inr ‹_›) taken, by rintro _ ⟨⟩⟩
    · cases taken
  | childReturn d =>
    simp only at taken
    split at taken
    case h_2 => cases taken
    split at taken
    case h_2 => cases taken
    split at taken
    case isFalse => cases taken
    exact ⟨inv.childReturn ‹_› ‹_› ‹_› ‹_› ‹_› taken, by rintro _ ⟨⟩⟩
  | futureReturnStolen d =>
    simp only at taken
    split at taken
    case h_2 => cases taken
    rename_i w frame on isFrames
    split at taken
    case h_2 => cases taken
    rename_i fiber fiberSelf isFuture isSelf
    split at taken
    case isFalse => cases taken
    rename_i synced
    obtain ⟨inv₁, out, allocated⟩ := inv.futureReturnStolen on isFrames synced isFuture rfl
    have live : (s.strand d).place.live := by rw [on]; rfl
    obtain rfl := Option.some.inj (isSelf.symm.trans (inv.self_of_future live isFrames synced isFuture))
    have gave := inv₁.res.cilkFiberRemoveReference out allocated taken
    have inv' := inv₁.of_same gave.same.strand gave.same.current gave.res
    refine ⟨inv', fun f ends => ?_⟩
    obtain ⟨frame', below', isFrames', isFuture'⟩ := ends
    obtain ⟨rfl, rfl⟩ := List.cons.inj (isFrames.symm.trans isFrames')
    rw [isFuture] at isFuture'
    obtain rfl := Option.some.inj isFuture'
    exact inv'.givenBack gave
  | stall d =>
    simp only at taken
    split at taken
    case h_2 => cases taken
    split at taken
    case isTrue => cases taken
    obtain ⟨inv₁, out, allocated⟩ := inv.stall ‹_› ‹_› ‹_› ‹_› rfl
    have gave := inv₁.res.cilkFiberRemoveReference out allocated taken
    exact ⟨inv₁.of_same gave.same.strand gave.same.current gave.res, by rintro _ ⟨⟩⟩
  | resumeStalled u d =>
    simp only at taken
    split at taken
    case h_2 => cases taken
    split at taken
    case h_2 => cases taken
    split at taken <;> cases taken
    rename_i goesOn
    exact ⟨inv.resumeStalled ‹_› ‹_› ‹_› goesOn.2.2 goesOn.1, by rintro _ ⟨⟩⟩
  | suspend d =>
    simp only at taken
    split at taken <;> cases taken
    exact ⟨inv.suspend ‹_›, by rintro _ ⟨⟩⟩
  | resume u d =>
    simp only at taken
    split at taken
    case h_2 => cases taken
    split at taken <;> cases taken
    rename_i idle
    exact ⟨inv.resume ‹_› ‹_› idle.1, by rintro _ ⟨⟩⟩
  | handOff d e =>
    simp only at taken
    split at taken
    case h_2 => cases taken
    rename_i w frame below fiber on isFrames suspended isFiber
    split at taken
    case h_2 => cases taken
    rename_i future current isFuture isCurrent
    split at taken
    case isFalse => cases taken
    rename_i ends
    have outside : ∀ other ∈ frame :: below, other.invocation.inDeque = false := by
      simpa using ends.2
    obtain ⟨isFuture', inv₁, out, allocated⟩ := inv.handOff on isFrames ends.1 outside isFuture rfl
    obtain rfl := Option.some.inj (isCurrent.symm.trans isFuture')
    have notD : e ≠ d := by
      rintro rfl
      cases on.symm.trans suspended
    -- the worker leaves the one deque and goes on with the other
    generalize isS₁ : (s.setStrand d { s.strand d with place := .dropped }).setCurrent w none = s₁
      at inv₁ out allocated
    have at_e : s₁.strand e = s.strand e := by
      rw [← isS₁]
      exact setAt_other notD _ _
    have suspended₁ : (s₁.strand e).place = .suspended := by rw [at_e]; exact suspended
    have none_current : s₁.current w = none := by
      rw [← isS₁]
      exact setAt_self _ _ _
    have inv₂ := inv₁.resume suspended₁ (by rw [at_e]; exact isFiber) none_current
    have holds₂ := (inv₁.resume_res (u := w) (f := fiber) suspended₁ rfl).2
    have isS₂ : (s₁.setStrand e { s₁.strand e with place := .on w, fiber := none }).setCurrent w (some fiber) =
        ((s.setStrand d { s.strand d with place := .dropped }).setStrand e { s.strand e with
          place := .on w, fiber := none }).setCurrent w (some fiber) := by
      rw [at_e, ← isS₁, CactusState.setCurrent, CactusState.setCurrent, setAt_twice]
    rw [isS₂] at inv₂ holds₂
    have gave := inv₂.res.returnFiber (fun place held => out place (holds₂ place current held))
      (by rw [← isS₁] at allocated; exact allocated) taken
    have inv' := inv₂.of_same gave.same.strand gave.same.current gave.res
    refine ⟨inv', fun f ends => ?_⟩
    obtain ⟨frame', below', isFrames', isFutureF⟩ := ends
    obtain ⟨rfl, rfl⟩ := List.cons.inj (isFrames.symm.trans isFrames')
    obtain rfl := Option.some.inj (isFuture.symm.trans isFutureF)
    exact inv'.givenBack gave
  | throw d => cases allowed

/-- In every run in which no exception leaves the function of a future the caches are sound, and when a future
ends, in whichever way, the fiber that was taken for it is in exactly one cache or pool. -/
theorem future_fiber_cache_sound (run : (cactusMachine ω δ β).GuardedRun NoThrow s) :
    CacheSound s ∧ ∀ label t, NoThrow s label → cactusStep s label = some t →
      ∀ f, EndsFuture s label f → GivenBack t f := by
  have inv : CactusInv s := by
    refine @Machine.GuardedRun.invariant _ _ _ _ CactusInv (fun s start => .initial start) ?_ _ run
    exact fun s label t inv allowed taken => (inv.of_step allowed taken).1
  exact ⟨inv.cacheSound, fun label t allowed taken f ends => (inv.of_step allowed taken).2 f ends⟩

/-- One worker with a full cache, about to run the outermost function on the fiber 128. -/
def oneWorkerCaches : CactusState Unit Nat Nat where
  futureFiberPool _ i := some i
  futureFiberPoolIdx _ := 127
  fiberPool _ := ⟨[], 128, 0, 0, 0⟩
  globalPool := []
  allocated := List.range 129
  spare _ := none
  current _ := some 128
  strand d := if d = 0 then ⟨.on (), [.enter .root], some 128, [], none⟩ else ⟨.unused, [], none, [], none⟩
  unwound := false

/-- Each fiber is in the slot of its number, but for that of the outermost function. -/
theorem oneWorkerCaches_holds {place : FiberSite Unit Nat} {f : Nat} (held : oneWorkerCaches.Holds place f) :
    (∃ i, place = .slot () i ∧ i = f ∧ i < 128) ∨ (place = .self 0 ∧ f = 128) := by
  have strand : ∀ d, oneWorkerCaches.strand d =
      if d = 0 then ⟨.on (), [.enter .root], some 128, [], none⟩ else ⟨.unused, [], none, [], none⟩ := fun d => rfl
  cases place with
  | slot w i =>
    have inside : (i : Int) ≤ 127 := held.1
    exact .inl ⟨i, rfl, Option.some.inj held.2, by omega⟩
  | self d =>
    have isSelf := held.2
    rw [strand] at isSelf
    split at isSelf
    · rename_i isRoot
      exact .inr ⟨by rw [isRoot], (Option.some.inj isSelf).symm⟩
    · cases isSelf
  | queue d =>
    simp only [CactusState.Holds, strand] at held
    split at held <;> cases held
  | child d h =>
    obtain ⟨frame, found, isChild⟩ := held
    have member := mem_of_atHeight found
    rw [strand] at member
    split at member
    · rw [List.mem_singleton.1 member] at isChild
      cases isChild
    · cases member
  | _ => cases held

/-- It is a start. -/
theorem oneWorkerCaches_start : (cactusMachine Unit Nat Nat).start oneWorkerCaches where
  idx _ := rfl
  exclusive p q f atP atQ := by
    rcases oneWorkerCaches_holds atP with ⟨i, rfl, isF, inside⟩ | ⟨rfl, isF⟩ <;>
      rcases oneWorkerCaches_holds atQ with ⟨j, rfl, isF', inside'⟩ | ⟨rfl, isF'⟩
    · rw [isF, isF']
    · omega
    · omega
    · rfl
  allocated place f held := by
    rcases oneWorkerCaches_holds held with ⟨i, -, isF, inside⟩ | ⟨-, isF⟩ <;>
      exact List.mem_range.2 (by omega)
  pools _ := ⟨List.nodup_nil, Nat.zero_le _⟩
  globalPool := List.nodup_nil
  spare _ := rfl
  strand d := by
    by_cases isRoot : d = 0
    · exact .inr ⟨(), 128, if_pos isRoot, rfl⟩
    · exact .inl (if_neg isRoot)
  current _ _ _ := ⟨0, rfl⟩
  unwound := rfl

/-- A future that returns to a parent that was not stolen gives its fiber back to the cache. -/
theorem future_fiber_cache_sound_unstolen :
    CacheSound ((cactusMachine Unit Nat Nat).after oneWorkerCaches [.spawnFuture 0 none none]) ∧
      GivenBack ((cactusMachine Unit Nat Nat).after oneWorkerCaches [.spawnFuture 0 none none, .futureReturn 0])
        127 := by
  have sound := future_fiber_cache_sound (.after (.start oneWorkerCaches_start) [.spawnFuture 0 none none]
    (by decide))
  exact ⟨sound.1, sound.2 (.futureReturn 0) _ trivial rfl 127 ⟨_, _, rfl, rfl⟩⟩

/-- Where an exception leaves the function of a future, its fiber is in no cache and no pool. -/
theorem thrown_future_fiber_lost : ∃ s t : CactusState Unit Nat Nat, ∃ label, ∃ f,
    (cactusMachine Unit Nat Nat).Reachable s ∧ cactusStep s label = some t ∧ EndsFuture s label f ∧
      ¬GivenBack t f := by
  refine ⟨(cactusMachine Unit Nat Nat).after oneWorkerCaches [.spawnFuture 0 none none],
    (cactusMachine Unit Nat Nat).after oneWorkerCaches [.spawnFuture 0 none none, .throw 0], .throw 0, 127,
    .after (.start oneWorkerCaches_start) _, rfl, ⟨_, _, rfl, rfl⟩, ?_⟩
  rintro ⟨place, isPlace, held, -⟩
  cases place with
  | slot w i =>
    have inside : (i : Int) ≤ 126 := held.1
    have isTop : i = 127 := Option.some.inj held.2
    omega
  | pool w => cases held
  | _ => cases isPlace

end CilkL
