/-
Module: CilkL.Proofs.FiberPositions
Layer: Proofs
Purpose: What each step of the strands does to the places that fibers are used from. A fiber that a strand has
  is the one that the strand is on, or one that a future's parent was left on; the others are `fiber_child` of a
  function, in a cache or a pool, with a thief, or not allocated yet.
Imports: CilkL.Runtime.FiberSwitch, CilkL.Proofs.FutureFiberCache
Trusted boundary: none (fully proved)
Main exports: FiberPosition, CactusState.At, CactusInv.at_unique, strand_of_step
Open obligations: none
-/
import CilkL.Runtime.FiberSwitch
import CilkL.Proofs.FutureFiberCache

namespace CilkL

variable {ω δ β : Type}

/-! ### The positions -/

/-- Where a fiber is used from. -/
inductive FiberPosition (ω δ : Type) where
  /-- It is the one that the strand of a worker is on. -/
  | current (w : ω)
  /-- The parent of a future was left on it. -/
  | inner (d : δ)
  /-- It is the one that a suspended strand is on. -/
  | suspended (d : δ)
  | child (d : δ) (height : Nat)
  | slot (w : ω)
  | pool (w : ω)
  | globalPool
  | spare (w : ω)
  /-- It was not allocated yet. -/
  | heap
deriving DecidableEq, Repr

/-- The strand that a position belongs to. -/
def FiberPosition.strand? : FiberPosition ω δ → Option δ
  | .inner d | .suspended d | .child d _ => some d
  | _ => none

/-- A fiber is at a position of a strand. -/
def CactusStrand.At (x : CactusStrand ω δ β) : FiberPosition ω δ → β → Prop
  | .inner _, f => (x.place ≠ .dropped ∧ x.fiberSelf = some f ∨ f ∈ x.queue) ∧
    tipOf x.fiberSelf x.queue ≠ some f
  | .suspended _, f => x.fiber = some f
  | .child _ h, f => ∃ frame, atHeight h x.frames = some frame ∧ frame.fiberChild = some f
  | _, _ => False

/-- A fiber is at a position. -/
def CactusState.At (s : CactusState ω δ β) : FiberPosition ω δ → β → Prop
  | .current w, f => s.current w = some f
  | .inner d, f => (s.strand d).At (.inner d) f
  | .suspended d, f => (s.strand d).At (.suspended d) f
  | .child d h, f => (s.strand d).At (.child d h) f
  | .slot w, f => ∃ i, s.Holds (.slot w i) f
  | .pool w, f => s.Holds (.pool w) f
  | .globalPool, f => s.Holds .globalPool f
  | .spare w, f => s.spare w = some f
  | .heap, f => f ∉ s.allocated

section Unique

variable {s s' : CactusState ω δ β} {p q : FiberPosition ω δ} {d e : δ} {w : ω} {f : β}

theorem at_iff_strand (isStrand : p.strand? = some d) : s.At p f ↔ (s.strand d).At p f := by
  cases p <;> cases isStrand <;> rfl

/-- A fiber that a strand has is the one that it is on, or not. -/
def AtStrand (s : CactusState ω δ β) (d : δ) (f : β) : FiberPosition ω δ → Prop
  | .current w => (s.strand d).place = .on w ∧ tipOf (s.strand d).fiberSelf (s.strand d).queue = some f
  | .inner e => e = d ∧ tipOf (s.strand d).fiberSelf (s.strand d).queue ≠ some f
  | .suspended e =>
      e = d ∧ (s.strand d).place = .suspended ∧ tipOf (s.strand d).fiberSelf (s.strand d).queue = some f
  | _ => False

/-- The position of a place that is not one of a strand's own fibers. -/
def FiberSite.position? : FiberSite ω δ → Option (FiberPosition ω δ)
  | .slot w _ => some (.slot w)
  | .pool w => some (.pool w)
  | .globalPool => some .globalPool
  | .spare w => some (.spare w)
  | .child d h => some (.child d h)
  | .self _ | .queue _ => none

/-- Each position is one of a strand's own fibers, another place, or the heap. -/
theorem CactusInv.sites (inv : CactusInv s) (isAt : s.At p f) :
    (∃ d, (s.Holds (.self d) f ∨ s.Holds (.queue d) f) ∧ AtStrand s d f p) ∨
      (∃ place, s.Holds place f ∧ place.position? = some p) ∨ p = .heap ∧ f ∉ s.allocated := by
  cases p with
  | current w =>
    obtain ⟨d, on⟩ := inv.workers.busy w f isAt
    refine .inl ⟨d, ?_, on, (inv.workers.current d w on).symm.trans isAt⟩
    exact (inv.holds_current on isAt).symm.imp_left And.right
  | inner d => exact .inl ⟨d, isAt.1, rfl, isAt.2⟩
  | suspended d =>
    have isFiber : (s.strand d).fiber = some f := isAt
    have suspended : (s.strand d).place = .suspended := by
      by_contra running
      rw [(inv.kept d).running running] at isFiber
      cases isFiber
    have isTip := ((inv.kept d).suspended suspended).symm.trans isFiber
    refine .inl ⟨d, ?_, rfl, suspended, isTip⟩
    exact (CactusStrand.has_tip (ω := ω) d (by simp [suspended]) isTip).symm.imp_left And.right
  | child d h => exact .inr (.inl ⟨.child d h, isAt, rfl⟩)
  | slot w =>
    obtain ⟨i, held⟩ := isAt
    exact .inr (.inl ⟨.slot w i, held, rfl⟩)
  | pool w => exact .inr (.inl ⟨.pool w, isAt, rfl⟩)
  | globalPool => exact .inr (.inl ⟨.globalPool, isAt, rfl⟩)
  | spare w => exact .inr (.inl ⟨.spare w, isAt, rfl⟩)
  | heap => exact .inr (.inr ⟨rfl, isAt⟩)

/-- A fiber of one strand is at one position. -/
theorem atStrand_unique (atP : AtStrand s d f p) (atQ : AtStrand s d f q) : p = q := by
  cases p <;> cases q <;> simp only [AtStrand] at atP atQ
  · rw [← CactusPlace.on.inj (atP.1.symm.trans atQ.1)]
  · exact absurd atP.2 atQ.2
  · exact absurd (atP.1.symm.trans atQ.2.1) (by simp)
  · exact absurd atQ.2 atP.2
  · rw [atP.1, atQ.1]
  · exact absurd atQ.2.2 atP.2
  · exact absurd (atQ.1.symm.trans atP.2.1) (by simp)
  · exact absurd atP.2.2 atQ.2
  · rw [atP.1, atQ.1]

/-- A fiber is at one position. -/
theorem CactusInv.at_unique (inv : CactusInv s) (atP : s.At p f) (atQ : s.At q f) : p = q := by
  have ofSame : ∀ {a b : FiberSite ω δ}, s.Holds a f → s.Holds b f → a = b :=
    fun {a b} heldA heldB => inv.res.exclusive a b f heldA heldB
  have notSite : ∀ {d : δ} {place : FiberSite ω δ} {r : FiberPosition ω δ},
      s.Holds (.self d) f ∨ s.Holds (.queue d) f → s.Holds place f → place.position? ≠ some r := by
    intro d place r own held
    rcases own with own | own <;> rw [← ofSame own held] <;> simp [FiberSite.position?]
  rcases inv.sites atP with ⟨d, ownP, isP⟩ | ⟨place, heldP, isP⟩ | ⟨rfl, free⟩
  · rcases inv.sites atQ with ⟨e, ownQ, isQ⟩ | ⟨place, heldQ, isQ⟩ | ⟨rfl, free⟩
    · have same : d = e := by
        rcases ownP with heldP | heldP <;> rcases ownQ with heldQ | heldQ <;> cases ofSame heldP heldQ <;> rfl
      rw [← same] at isQ
      exact atStrand_unique isP isQ
    · exact absurd isQ (notSite ownP heldQ)
    · exact absurd (ownP.elim (inv.res.allocated _ f) (inv.res.allocated _ f)) free
  · rcases inv.sites atQ with ⟨e, ownQ, isQ⟩ | ⟨place', heldQ, isQ⟩ | ⟨rfl, free⟩
    · exact absurd isP (notSite ownQ heldP)
    · rw [ofSame heldP heldQ] at isP
      exact Option.some.inj (isP.symm.trans isQ)
    · exact absurd (inv.res.allocated _ f heldP) free
  · rcases inv.sites atQ with ⟨e, ownQ, isQ⟩ | ⟨place, heldQ, isQ⟩ | ⟨rfl, -⟩
    · exact absurd (ownQ.elim (inv.res.allocated _ f) (inv.res.allocated _ f)) free
    · exact absurd (inv.res.allocated _ f heldQ) free
    · rfl

end Unique

/-! ### The strands, the caches and the pools -/

section Only

variable {s s' : CactusState ω δ β} {p : FiberPosition ω δ} {P : FiberPosition ω δ → Prop} {d e : δ} {w : ω}
  {f g : β} {x : CactusStrand ω δ β}

/-- The caches, the pools and the heap are the same. -/
theorem at_only (now : s'.At p f) (caches : SameCaches s s')
    (strand : ∀ q e, q.strand? = some e → (s'.strand e).At q f → s.At q f ∨ P q)
    (current : ∀ v, s'.current v = some f → s.current v = some f ∨ P (.current v))
    (spare : ∀ v, s'.spare v = some f → s.spare v = some f ∨ P (.spare v)) : s.At p f ∨ P p := by
  cases p with
  | current v => exact current v now
  | inner e => exact strand _ e rfl now
  | suspended e => exact strand _ e rfl now
  | child e h => exact strand _ e rfl now
  | slot v =>
    simp only [CactusState.At, CactusState.Holds, caches.futureFiberPool, caches.idx] at now ⊢
    exact .inl now
  | pool v =>
    simp only [CactusState.At, CactusState.Holds, caches.fiberPool] at now ⊢
    exact .inl now
  | globalPool =>
    simp only [CactusState.At, CactusState.Holds, caches.globalPool] at now ⊢
    exact .inl now
  | spare v => exact spare v now
  | heap =>
    simp only [CactusState.At, caches.allocated] at now ⊢
    exact .inl now

/-- One strand changes, and the fibers of the workers. -/
theorem at_of_set [DecidableEq δ] (now : s'.At p f) (caches : SameCaches s s') (spare : s'.spare = s.spare)
    (strand : s'.strand = setAt s.strand d x)
    (current : ∀ v, s'.current v = some f → s.current v = some f ∨ P (.current v))
    (own : ∀ q : FiberPosition ω δ, q.strand? = some d → x.At q f → (s.strand d).At q f ∨ P q) :
    s.At p f ∨ P p := by
  apply at_only now caches ?_ current fun v isSpare => .inl (spare ▸ isSpare)
  intro q e isStrand held
  rw [strand] at held
  by_cases isD : e = d
  · rw [isD, setAt_self] at held
    rw [isD] at isStrand
    exact (own q isStrand held).imp_left (at_iff_strand isStrand).2
  · rw [setAt_other isD] at held
    exact .inl ((at_iff_strand isStrand).2 held)

/-- The strands, the fibers of the workers and those of the thieves are the same. -/
theorem at_of_sameStrands (now : s'.At p f) (same : SameStrands s s')
    (slot : ∀ v i, s'.Holds (.slot v i) f → s.At (.slot v) f ∨ P (.slot v))
    (pool : ∀ v, s'.Holds (.pool v) f → s.At (.pool v) f ∨ P (.pool v))
    (globalPool : s'.Holds .globalPool f → s.At .globalPool f ∨ P .globalPool)
    (heap : f ∉ s'.allocated → f ∉ s.allocated) : s.At p f ∨ P p := by
  cases p with
  | current v =>
    simp only [CactusState.At, same.current] at now ⊢
    exact .inl now
  | inner e | suspended e | child e h =>
    simp only [CactusState.At, same.strand] at now ⊢
    exact .inl now
  | slot v => exact now.elim (slot v)
  | pool v => exact pool v now
  | globalPool => exact globalPool now
  | spare v =>
    simp only [CactusState.At, same.spare] at now ⊢
    exact .inl now
  | heap => exact .inl (heap now)

/-- Fibers were taken from the caches, the pools or the heap. -/
theorem at_of_fewer (now : s'.At p f) (same : SameStrands s s')
    (slot : ∀ v i, s'.Holds (.slot v i) f → s.Holds (.slot v i) f)
    (pool : ∀ v, s'.Holds (.pool v) f → s.Holds (.pool v) f)
    (globalPool : s'.Holds .globalPool f → s.Holds .globalPool f) (heap : f ∉ s'.allocated → f ∉ s.allocated) :
    s.At p f :=
  (at_of_sameStrands (P := fun _ => False) now same (fun v i held => .inl ⟨i, slot v i held⟩)
    (fun v held => .inl (pool v held)) (fun held => .inl (globalPool held)) heap).resolve_right id

variable [DecidableEq ω]

/-- A fiber was in a pool, or was not allocated. -/
def IsSpare (s : CactusState ω δ β) (w : ω) (f : β) : Prop :=
  s.At (.pool w) f ∨ s.At .globalPool f ∨ s.At .heap f

/-- `cilk_fiber_allocate`. -/
theorem at_of_cilkFiberAllocate [DecidableEq β] {heap heapOfParent taken : Option β}
    (isTaken : s.cilkFiberAllocate w heap heapOfParent = some (taken, s')) :
    SameStrands s s' ∧ (∀ p g, s'.At p g → s.At p g) ∧ ∀ f, taken = some f → IsSpare s w f := by
  unfold CactusState.cilkFiberAllocate at isTaken
  split at isTaken
  · rename_i fiber fibers isFibers
    cases isTaken
    refine ⟨⟨rfl, rfl, rfl, rfl⟩, fun p g now => ?_, ?_⟩
    · refine at_of_fewer now ⟨rfl, rfl, rfl, rfl⟩ (fun v i held => held) ?_ id id
      intro v held
      by_cases isW : v = w
      · rw [isW] at held ⊢
        simp only [CactusState.Holds, setAt_self] at held
        rw [CactusState.Holds, isFibers]
        exact List.mem_cons_of_mem _ held
      · simp only [CactusState.Holds, setAt_other isW] at held
        exact held
    · intro f isF
      cases isF
      left
      simp only [CactusState.At, CactusState.Holds, isFibers]
      exact List.mem_cons_self
  · rename_i fiber fibers _ isGlobal
    cases isTaken
    refine ⟨⟨rfl, rfl, rfl, rfl⟩, fun p g now => ?_, ?_⟩
    · refine at_of_fewer now ⟨rfl, rfl, rfl, rfl⟩ (fun v i held => held) (fun v held => held) ?_ id
      intro held
      rw [CactusState.Holds, isGlobal]
      exact List.mem_cons_of_mem _ held
    · intro f isF
      cases isF
      right
      left
      simp only [CactusState.At, CactusState.Holds, isGlobal]
      exact List.mem_cons_self
  · split at isTaken <;> cases isTaken
    rename_i isFresh
    refine ⟨⟨rfl, rfl, rfl, rfl⟩, fun p g now => ?_, fun f isF => ?_⟩
    · exact at_of_fewer now ⟨rfl, rfl, rfl, rfl⟩ (fun v i held => held) (fun v held => held) id
        (mt (List.mem_cons_of_mem _))
    · cases isF
      exact .inr (.inr isFresh)
  · split at isTaken <;> cases isTaken
    rename_i isFresh
    refine ⟨⟨rfl, rfl, rfl, rfl⟩, fun p g now => ?_, fun f isF => ?_⟩
    · exact at_of_fewer now ⟨rfl, rfl, rfl, rfl⟩ (fun v i held => held) (fun v held => held) id
        (mt (List.mem_cons_of_mem _))
    · cases isF
      exact .inr (.inr isFresh)
  · cases isTaken
    exact ⟨⟨rfl, rfl, rfl, rfl⟩, fun p g now => now, by simp⟩

/-- `__cilkrts_switch_fibers` takes a fiber from the cache, a pool or the heap. -/
theorem at_of_takeFiber [DecidableEq β] {heap heapOfParent taken : Option β}
    (isTaken : s.takeFiber w heap heapOfParent = some (taken, s')) :
    SameStrands s s' ∧ (∀ p g, s'.At p g → s.At p g) ∧
      ∀ f, taken = some f → s.At (.slot w) f ∨ IsSpare s w f := by
  rw [CactusState.takeFiber] at isTaken
  split at isTaken
  · rename_i inCache
    simp only [Option.some.injEq, Prod.mk.injEq] at isTaken
    obtain ⟨isTaken, rfl⟩ := isTaken
    refine ⟨⟨rfl, rfl, rfl, rfl⟩, fun p g now => ?_, ?_⟩
    · refine at_of_fewer now ⟨rfl, rfl, rfl, rfl⟩ ?_ (fun v held => held) id id
      intro v i held
      by_cases isW : v = w
      · rw [isW] at held ⊢
        simp only [CactusState.Holds, setAt_self] at held
        exact ⟨by omega, held.2⟩
      · simp only [CactusState.Holds, setAt_other isW] at held
        exact held
    · intro f isF
      exact .inl ⟨(s.futureFiberPoolIdx w).toNat, by omega, isTaken.trans isF⟩
  · obtain ⟨same, only, source⟩ := at_of_cilkFiberAllocate isTaken
    exact ⟨same, only, fun f isF => .inr (source f isF)⟩

/-- `cilk_fiber_remove_reference` of a fiber that is not in the pool. -/
theorem at_of_cilkFiberRemoveReference {s₀ : CactusState ω δ β} (res : FiberRes s₀) (caches : SameCaches s₀ s)
    (out : ¬s₀.Holds (.pool w) g) (isGiven : s.cilkFiberRemoveReference w g = some s') :
    SameStrands s s' ∧ ∀ p f, s'.At p f → s.At p f ∨ p = .pool w ∧ f = g := by
  rw [CactusState.cilkFiberRemoveReference, Option.map_eq_some_iff] at isGiven
  obtain ⟨pool, isPool, rfl⟩ := isGiven
  obtain ⟨nodup, size⟩ := res.pool w
  rw [caches.fiberPool] at isPool
  have others := (FiberPool.deallocateSelf_spec nodup size out isPool).2.2.2
  rw [← caches.fiberPool] at others
  refine ⟨⟨rfl, rfl, rfl, rfl⟩, fun p f now => ?_⟩
  refine at_of_sameStrands (P := fun q => q = .pool w ∧ f = g) now ⟨rfl, rfl, rfl, rfl⟩
    (fun v i held => .inl ⟨i, held⟩) ?_ .inl id
  intro v held
  by_cases isW : v = w
  · rw [isW] at held ⊢
    simp only [CactusState.Holds, setAt_self] at held
    exact (others f held).symm.imp_right fun isG => ⟨rfl, isG⟩
  · simp only [CactusState.Holds, setAt_other isW] at held
    exact .inl held

/-- Where the fiber of a future goes. -/
def returnPosition (s : CactusState ω δ β) (w : ω) : FiberPosition ω δ :=
  if s.futureFiberPoolIdx w < maxFutureFibersInPool - 1 then .slot w else .pool w

/-- The end of a future's fiber. -/
theorem at_of_returnFiber {s₀ : CactusState ω δ β} (res : FiberRes s₀) (caches : SameCaches s₀ s)
    (out : ¬s₀.Holds (.pool w) g) (isGiven : s.returnFiber w g = some s') :
    SameStrands s s' ∧ ∀ p f, s'.At p f → s.At p f ∨ p = returnPosition s₀ w ∧ f = g := by
  rw [returnPosition, ← caches.idx]
  rw [CactusState.returnFiber] at isGiven
  split at isGiven
  · rename_i room
    cases isGiven
    have bounds := res.idx w
    rw [← caches.idx] at bounds
    refine ⟨⟨rfl, rfl, rfl, rfl⟩, fun p f now => ?_⟩
    rw [if_pos room]
    refine at_of_sameStrands (P := fun q => q = .slot w ∧ f = g) now ⟨rfl, rfl, rfl, rfl⟩ ?_
      (fun v held => .inl held) .inl id
    intro v i held
    by_cases isW : v = w
    · rw [isW] at held ⊢
      simp only [CactusState.Holds, setAt_self] at held
      by_cases isTop : i = (s.futureFiberPoolIdx w + 1).toNat
      · rw [isTop, setAt_self] at held
        exact .inr ⟨rfl, (Option.some.inj held.2).symm⟩
      · rw [setAt_other isTop] at held
        exact .inl ⟨i, by omega, held.2⟩
    · simp only [CactusState.Holds, setAt_other isW] at held
      exact .inl ⟨i, held⟩
  · rename_i full
    rw [if_neg full]
    exact at_of_cilkFiberRemoveReference res caches out isGiven

end Only

/-! ### The steps -/

section Steps

variable {s s' : CactusState ω δ β} {p : FiberPosition ω δ} {d e c : δ} {u w : ω} {f g : β}
  {x : CactusStrand ω δ β} [DecidableEq ω] [DecidableEq δ] [DecidableEq β]

omit [DecidableEq δ] [DecidableEq β] in
/-- A worker goes to another fiber. -/
theorem of_setCurrent {fiber : Option β} {v : ω} (isCurrent : (s.setCurrent w fiber).current v = some f) :
    v = w ∧ fiber = some f ∨ s.current v = some f := by
  by_cases isW : v = w
  · simp only [isW, setAt_self] at isCurrent
    exact .inl ⟨isW, isCurrent⟩
  · simp only [setAt_other isW] at isCurrent
    exact .inr isCurrent

omit [DecidableEq ω] [DecidableEq β] in
/-- The functions of a strand change, and keep the fibers that were left to them. -/
theorem at_of_frames {frames : List (CactusFrame δ β)}
    (now : (s.setStrand d { s.strand d with frames := frames }).At p f)
    (child : ∀ h frame, atHeight h frames = some frame → frame.fiberChild = some f →
      ∃ frame', atHeight h (s.strand d).frames = some frame' ∧ frame'.fiberChild = some f) : s.At p f := by
  refine (at_of_set (s := s) (P := fun _ => False) now ⟨rfl, rfl, rfl, rfl, rfl⟩ rfl rfl
    (fun v isCurrent => .inl isCurrent) ?_).resolve_right id
  intro q isStrand held
  cases q with
  | child e h =>
    obtain ⟨frame, found, isChild⟩ := held
    exact .inl (child h frame found isChild)
  | _ => exact .inl held

omit [DecidableEq ω] [DecidableEq β] in
/-- A function that was just called has no fibers left to it. -/
theorem at_of_push {invocation : Invocation δ β} (now : (s.setStrand d ((s.strand d).push invocation)).At p f) :
    s.At p f := by
  apply at_of_frames now
  intro h frame found isChild
  rw [atHeight] at found
  split at found
  · cases found
    cases isChild
  · exact ⟨frame, found, isChild⟩

theorem at_call (taken : cactusStep s (.call d) = some s') (now : s'.At p f) : s.At p f := by
  unfold cactusStep at taken
  split at taken
  · cases taken
  simp only at taken
  split at taken <;> cases taken
  exact at_of_push now

theorem at_spawn (taken : cactusStep s (.spawn d) = some s') (now : s'.At p f) : s.At p f := by
  unfold cactusStep at taken
  split at taken
  · cases taken
  simp only at taken
  split at taken <;> cases taken
  exact at_of_push now

theorem at_leave (taken : cactusStep s (.leave d) = some s') (now : s'.At p f) : s.At p f := by
  unfold cactusStep at taken
  split at taken
  · cases taken
  simp only at taken
  split at taken
  case h_2 => cases taken
  split at taken <;> cases taken
  rename_i frame below on isFrames leaves
  apply at_of_frames now
  intro h frame' found isChild
  rw [isFrames]
  exact ⟨frame', (atHeight_cons (lt_of_atHeight found)).trans found, isChild⟩

/-- The fiber of a future is new to the strands; that of its parent stays with the strand. -/
theorem at_spawnFuture {heap heapOfParent : Option β} (inv : CactusInv s)
    (taken : cactusStep s (.spawnFuture d heap heapOfParent) = some s') :
    ∃ w initial fiber, (s.strand d).place = .on w ∧ s.current w = some initial ∧ s'.current w = some fiber ∧
      (s.At (.slot w) fiber ∨ IsSpare s w fiber) ∧ (∀ v, v ≠ w → s'.current v = s.current v) ∧
      ∀ p f, s'.At p f → s.At p f ∨ p = .current w ∧ f = fiber ∨ p = .inner d ∧ f = initial := by
  unfold cactusStep at taken
  split at taken
  · cases taken
  simp only at taken
  split at taken
  case h_2 => cases taken
  rename_i w on
  split at taken <;> cases taken
  rename_i fiber s₁ initial isTaken isCurrent
  obtain ⟨same, only, source⟩ := at_of_takeFiber isTaken
  have strand₁ : s₁.strand d = s.strand d := by rw [same.strand]
  refine ⟨w, initial, fiber, on, isCurrent, setAt_self _ _ _, source fiber rfl,
    fun v other => ?_, fun p f now => ?_⟩
  · rw [← same.current]
    exact setAt_other other _ _
  have back : s₁.At p f ∨ p = .current w ∧ f = fiber ∨ p = .inner d ∧ f = initial := by
    refine at_of_set (s := s₁) (P := fun q => q = .current w ∧ f = fiber ∨ q = .inner d ∧ f = initial) now
      ⟨rfl, rfl, rfl, rfl, rfl⟩ rfl rfl ?_ ?_
    · intro v isCurrent'
      rcases of_setCurrent isCurrent' with ⟨rfl, isFiber⟩ | was
      · exact .inr (.inl ⟨rfl, (Option.some.inj isFiber).symm⟩)
      · exact .inl was
    · intro q isStrand held
      cases q with
      | inner e =>
        obtain rfl := Option.some.inj isStrand
        obtain ⟨has, notTip⟩ := held
        have isTip : tipOf (s₁.strand e).fiberSelf ((s₁.strand e).queue ++ [fiber]) = some fiber := by
          rw [tipOf, List.getLast?_concat]
          rfl
        have notFiber : f ≠ fiber := fun isF => notTip (isF ▸ isTip)
        have has' : (s₁.strand e).place ≠ .dropped ∧ (s₁.strand e).fiberSelf = some f ∨
          f ∈ (s₁.strand e).queue := by
          apply has.imp_right
          intro member
          exact (List.mem_append.1 member).resolve_right fun last => notFiber (List.mem_singleton.1 last)
        by_cases wasTip : tipOf (s₁.strand e).fiberSelf (s₁.strand e).queue = some f
        · right
          right
          rw [strand₁, ← inv.workers.current e w on, isCurrent] at wasTip
          exact ⟨rfl, (Option.some.inj wasTip).symm⟩
        · exact .inl ⟨has', wasTip⟩
      | child e h =>
        obtain ⟨frame, found, isChild⟩ := held
        simp only [CactusStrand.push, atHeight] at found
        split at found
        · cases found
          cases isChild
        · exact .inl ⟨frame, found, isChild⟩
      | _ => exact .inl held
  exact back.imp_left (only p f)

omit [DecidableEq ω] [DecidableEq δ] [DecidableEq β] in
/-- The fiber that a worker is on is not in its pool. -/
theorem CactusInv.current_not_pool (inv : CactusInv s) (isCurrent : s.current w = some f) :
    ¬s.Holds (.pool w) f := by
  intro held
  have same : FiberPosition.current w = FiberPosition.pool w := inv.at_unique (s := s) (f := f) isCurrent held
  cases same

/-- A future returns: its fiber goes to a cache or a pool, and its parent goes on. -/
theorem at_futureReturn (inv : CactusInv s) (taken : cactusStep s (.futureReturn d) = some s') :
    ∃ w initial current, (s.strand d).place = .on w ∧ s.current w = some current ∧
      s'.current w = some initial ∧ s.At (.inner d) initial ∧ (∀ v, v ≠ w → s'.current v = s.current v) ∧
      ∀ p f, s'.At p f → s.At p f ∨ p = .current w ∧ f = initial ∨ p = returnPosition s w ∧ f = current := by
  unfold cactusStep at taken
  split at taken
  · cases taken
  simp only at taken
  split at taken
  case h_2 => cases taken
  rename_i w frame below on isFrames
  split at taken
  case h_2 => cases taken
  rename_i fiber initial current isFuture isCurrent
  split at taken
  case isFalse => cases taken
  rename_i returns
  have ok := inv.fibersOk on
  have isQueue := ok.queue
  have initials := ok.initials
  rw [isFrames] at isQueue initials
  have isQueue : (s.strand d).queue = queuedFibers below ++ [fiber] := by
    rw [isQueue, queuedFibers, isFuture]
    rfl
  have isInitial : tipOf (s.strand d).fiberSelf (queuedFibers below) = some initial :=
    initials.1 fiber initial isFuture
  have isTip : tipOf (s.strand d).fiberSelf (s.strand d).queue = some fiber := by
    rw [isQueue, tipOf, List.getLast?_concat]
    rfl
  obtain rfl : current = fiber := by
    rw [inv.workers.current d w on, isTip] at isCurrent
    exact (Option.some.inj isCurrent).symm
  have nodup := inv.res.queue d
  rw [isQueue, List.nodup_append] at nodup
  have notDropped : (s.strand d).place ≠ .dropped := by
    rw [on]
    intro same
    cases same
  have inQueue : s.Holds (.queue d) current := by
    rw [CactusState.Holds, isQueue]
    exact List.mem_append_right _ List.mem_cons_self
  -- what is in the queue below the fiber of the future, or is that of the full frame, is another fiber
  have below_inner : ∀ g, (s.strand d).fiberSelf = some g ∨ g ∈ queuedFibers below → s.At (.inner d) g := by
    intro g has
    refine ⟨has.imp (fun isSelf => ⟨notDropped, isSelf⟩) fun member => ?_, ?_⟩
    · rw [isQueue]
      exact List.mem_append_left _ member
    · rw [isTip]
      intro same
      obtain rfl := Option.some.inj same
      rcases has with isSelf | member
      · have same := inv.res.exclusive (.self d) (.queue d) current ⟨notDropped, isSelf⟩ inQueue
        cases same
      · exact nodup.2.2 current member current List.mem_cons_self rfl
  have hasInitial : (s.strand d).fiberSelf = some initial ∨ initial ∈ queuedFibers below := by
    rw [tipOf] at isInitial
    cases isLast : (queuedFibers below).getLast? with
    | none =>
      rw [isLast] at isInitial
      exact .inl isInitial
    | some last =>
      rw [isLast] at isInitial
      cases isInitial
      exact .inr (List.mem_of_getLast? isLast)
  generalize isNext : (s.setStrand d { s.strand d with
    frames := below, queue := (s.strand d).queue.dropLast }).setCurrent w (some initial) = next at taken
  have caches : SameCaches s next := by
    rw [← isNext]
    exact ⟨rfl, rfl, rfl, rfl, rfl⟩
  obtain ⟨same, only⟩ := at_of_returnFiber inv.res caches (inv.current_not_pool isCurrent) taken
  have nextCurrent : next.current = setAt s.current w (some initial) := by rw [← isNext]
  refine ⟨w, initial, current, on, isCurrent, ?_, below_inner initial hasInitial, fun v other => ?_,
    fun p f now => ?_⟩
  · rw [same.current, nextCurrent, setAt_self]
  · rw [same.current, nextCurrent, setAt_other other]
  have back : next.At p f → s.At p f ∨ p = .current w ∧ f = initial := by
    intro before
    refine at_of_set (s := s) (P := fun q => q = .current w ∧ f = initial) before caches (by rw [← isNext])
      (by rw [← isNext]) ?_ ?_
    · intro v isCurrent'
      rw [← isNext] at isCurrent'
      rcases of_setCurrent isCurrent' with ⟨rfl, isFiber⟩ | was
      · exact .inr ⟨rfl, (Option.some.inj isFiber).symm⟩
      · exact .inl was
    · intro q isStrand held
      cases q with
      | inner e =>
        obtain rfl := Option.some.inj isStrand
        left
        apply below_inner f
        apply held.1.imp And.right
        intro member
        simpa [isQueue] using member
      | child e h =>
        obtain ⟨frame', found, isChild⟩ := held
        refine .inl ⟨frame', ?_, isChild⟩
        rw [isFrames]
        exact (atHeight_cons (lt_of_atHeight found)).trans found
      | _ => exact .inl held
  rcases only p f now with before | ⟨isP, isF⟩
  · exact (back before).imp_right .inl
  · exact .inr (.inr ⟨isP, isF⟩)

/-- A thief allocates a fiber. -/
theorem at_allocate {heap heapOfParent : Option β}
    (taken : cactusStep s (.allocate u heap heapOfParent) = some s') :
    s'.current = s.current ∧ ∀ p f, s'.At p f → s.At p f ∨ p = .spare u ∧ IsSpare s u f := by
  unfold cactusStep at taken
  split at taken
  · cases taken
  simp only at taken
  split at taken
  case isFalse => cases taken
  rw [Option.map_eq_some_iff] at taken
  obtain ⟨⟨fiber, s₁⟩, isTaken, rfl⟩ := taken
  obtain ⟨same, only, source⟩ := at_of_cilkFiberAllocate isTaken
  refine ⟨same.current, fun p f now => ?_⟩
  have back : s₁.At p f ∨ p = .spare u ∧ IsSpare s u f := by
    refine at_only (s := s₁) (P := fun q => q = .spare u ∧ IsSpare s u f) now ⟨rfl, rfl, rfl, rfl, rfl⟩
      (fun q e isStrand held => .inl ((at_iff_strand isStrand).2 held)) (fun v isCurrent => .inl isCurrent) ?_
    intro v isSpare
    by_cases isU : v = u
    · simp only [isU, setAt_self] at isSpare
      exact .inr ⟨by rw [isU], source f isSpare⟩
    · simp only [setAt_other isU] at isSpare
      exact .inl isSpare
  exact back.imp_left (only p f)

/-- A thief gives its fiber back. -/
theorem at_giveBack (inv : CactusInv s) (taken : cactusStep s (.giveBack u) = some s') :
    s'.current = s.current ∧ ∃ g, s.spare u = some g ∧ ∀ p f, s'.At p f → s.At p f ∨ p = .pool u ∧ f = g := by
  unfold cactusStep at taken
  split at taken
  · cases taken
  simp only at taken
  split at taken
  case h_2 => cases taken
  rename_i g isSpare
  have out : ¬s.Holds (.pool u) g := by
    intro held
    have same : FiberPosition.spare u = FiberPosition.pool u := inv.at_unique (s := s) (f := g) isSpare held
    cases same
  obtain ⟨same, only⟩ := at_of_cilkFiberRemoveReference (s := { s with spare := setAt s.spare u none }) inv.res
    ⟨rfl, rfl, rfl, rfl, rfl⟩ out taken
  refine ⟨same.current, g, isSpare, fun p f now => (only p f now).imp_left fun before => ?_⟩
  refine (at_only (s := s) (P := fun _ => False) before ⟨rfl, rfl, rfl, rfl, rfl⟩
    (fun q e isStrand held => .inl ((at_iff_strand isStrand).2 held)) (fun v isCurrent => .inl isCurrent)
    ?_).resolve_right id
  intro v isSpare'
  by_cases isU : v = u
  · simp only [isU, setAt_self] at isSpare'
    cases isSpare'
  · simp only [setAt_other isU] at isSpare'
    exact .inl isSpare'

omit [DecidableEq β] in
/-- A worker leaves its strand, whose fiber goes to a pool or to no place. -/
theorem at_of_stop {x : CactusStrand ω δ β} {P : FiberPosition ω δ → Prop}
    (now : ((s.setStrand d x).setCurrent w none).At p f)
    (own : ∀ q : FiberPosition ω δ, q.strand? = some d → x.At q f → (s.strand d).At q f ∨ P q) :
    s.At p f ∨ P p := by
  refine at_of_set (s := s) now ⟨rfl, rfl, rfl, rfl, rfl⟩ rfl rfl ?_ own
  intro v isCurrent
  rcases of_setCurrent isCurrent with ⟨-, isNone⟩ | was
  · cases isNone
  · exact .inl was

omit [DecidableEq ω] [DecidableEq δ] [DecidableEq β] in
/-- A strand that has ended has no fibers. -/
theorem not_at_ended {q : FiberPosition ω δ} : ¬(CactusStrand.ended ω δ β).At q f := by
  intro held
  cases q with
  | inner e => simp [CactusStrand.At, CactusStrand.ended] at held
  | suspended e => simp [CactusStrand.At, CactusStrand.ended] at held
  | child e h => simp [CactusStrand.At, CactusStrand.ended, atHeight] at held
  | _ => exact held

/-- The end of a future whose continuation was stolen. -/
theorem at_futureReturnStolen (inv : CactusInv s) (taken : cactusStep s (.futureReturnStolen d) = some s') :
    ∃ w g, (s.strand d).place = .on w ∧ s.current w = some g ∧ s'.current w = none ∧
      (∀ v, v ≠ w → s'.current v = s.current v) ∧ ∀ p f, s'.At p f → s.At p f ∨ p = .pool w ∧ f = g := by
  unfold cactusStep at taken
  split at taken
  · cases taken
  simp only at taken
  split at taken
  case h_2 => cases taken
  rename_i w frame on isFrames
  split at taken
  case h_2 => cases taken
  rename_i fiber fiberSelf isFuture isSelf
  split at taken
  case isFalse => cases taken
  have noQueue : (s.strand d).queue = [] := by
    rw [(inv.fibersOk on).queue, isFrames, queuedFibers, isFuture]
    rfl
  have isCurrent : s.current w = some fiberSelf := by
    rw [inv.workers.current d w on, noQueue, isSelf]
    rfl
  obtain ⟨same, only⟩ := at_of_cilkFiberRemoveReference
    (s := (s.setStrand d (.ended ω δ β)).setCurrent w none) inv.res ⟨rfl, rfl, rfl, rfl, rfl⟩
    (inv.current_not_pool isCurrent) taken
  refine ⟨w, fiberSelf, on, isCurrent, ?_, fun v other => ?_, fun p f now => ?_⟩
  · rw [same.current]
    exact setAt_self _ _ _
  · rw [same.current]
    exact setAt_other other _ _
  · rcases only p f now with before | given
    · exact .inl ((at_of_stop (P := fun _ => False) before fun q _ held =>
        absurd held not_at_ended).resolve_right id)
    · exact .inr given

/-- A function waits at its sync. -/
theorem at_stall (inv : CactusInv s) (taken : cactusStep s (.stall d) = some s') :
    ∃ w g, (s.strand d).place = .on w ∧ s.current w = some g ∧ s'.current w = none ∧
      (∀ v, v ≠ w → s'.current v = s.current v) ∧ ∀ p f, s'.At p f → s.At p f ∨ p = .pool w ∧ f = g := by
  unfold cactusStep at taken
  split at taken
  · cases taken
  simp only at taken
  split at taken
  case h_2 => cases taken
  rename_i w frame below fiberSelf on isFrames isSelf
  split at taken
  case isTrue => cases taken
  rename_i unsynced
  have live : (s.strand d).place.live := by rw [on]; rfl
  have noQueue := (inv.outside live isFrames unsynced).2
  have isCurrent : s.current w = some fiberSelf := by
    rw [inv.workers.current d w on, noQueue, isSelf]
    rfl
  obtain ⟨same, only⟩ := at_of_cilkFiberRemoveReference
    (s := (s.setStrand d { s.strand d with place := .stalled, fiberSelf := none }).setCurrent w none) inv.res
    ⟨rfl, rfl, rfl, rfl, rfl⟩ (inv.current_not_pool isCurrent) taken
  refine ⟨w, fiberSelf, on, isCurrent, ?_, fun v other => ?_, fun p f now => ?_⟩
  · rw [same.current]
    exact setAt_self _ _ _
  · rw [same.current]
    exact setAt_other other _ _
  rcases only p f now with before | given
  · left
    refine (at_of_stop (P := fun _ => False) before fun q isStrand held => ?_).resolve_right id
    cases q with
    | inner e =>
      obtain ⟨⟨-, isSelf'⟩ | member, -⟩ := held
      · cases isSelf'
      · change f ∈ (s.strand d).queue at member
        rw [noQueue] at member
        cases member
    | _ => exact .inl held
  · exact .inr given

/-- A strand is suspended. -/
theorem at_suspend (inv : CactusInv s) (taken : cactusStep s (.suspend d) = some s') :
    ∃ w g, (s.strand d).place = .on w ∧ s.current w = some g ∧ s'.current w = none ∧
      (∀ v, v ≠ w → s'.current v = s.current v) ∧ ∀ p f, s'.At p f → s.At p f ∨ p = .suspended d ∧ f = g := by
  unfold cactusStep at taken
  split at taken
  · cases taken
  simp only at taken
  split at taken <;> cases taken
  rename_i w on
  obtain ⟨g, isCurrent⟩ := inv.current_isSome on
  refine ⟨w, g, on, isCurrent, setAt_self _ _ _, fun v other => setAt_other other _ _, fun p f now => ?_⟩
  have notDropped : (s.strand d).place ≠ .dropped := by simp [on]
  refine at_of_stop (P := fun q => q = .suspended d ∧ f = g) now fun q isStrand held => ?_
  cases q with
  | suspended e =>
    obtain rfl := Option.some.inj isStrand
    have isFiber : s.current w = some f := held
    rw [isCurrent] at isFiber
    exact .inr ⟨rfl, (Option.some.inj isFiber).symm⟩
  | inner e => exact .inl ⟨held.1.imp_left fun isSelf => ⟨notDropped, isSelf.2⟩, held.2⟩
  | _ => exact .inl held

omit [DecidableEq β] in
/-- A worker goes on with a strand that nobody runs. -/
theorem at_of_start {x : CactusStrand ω δ β} {g : β} (now : ((s.setStrand d x).setCurrent u (some g)).At p f)
    (own : ∀ q : FiberPosition ω δ, q.strand? = some d → x.At q f → (s.strand d).At q f) :
    s.At p f ∨ p = .current u ∧ f = g := by
  refine at_of_set (s := s) (P := fun q => q = .current u ∧ f = g) now ⟨rfl, rfl, rfl, rfl, rfl⟩ rfl rfl ?_
    fun q isStrand held => .inl (own q isStrand held)
  intro v isCurrent
  rcases of_setCurrent isCurrent with ⟨rfl, isG⟩ | was
  · exact .inr ⟨rfl, (Option.some.inj isG).symm⟩
  · exact .inl was

/-- A worker goes on with a suspended strand. -/
theorem at_resume (taken : cactusStep s (.resume u d) = some s') :
    ∃ g, s.At (.suspended d) g ∧ s'.current u = some g ∧ (∀ v, v ≠ u → s'.current v = s.current v) ∧
      ∀ p f, s'.At p f → s.At p f ∨ p = .current u ∧ f = g := by
  unfold cactusStep at taken
  split at taken
  · cases taken
  simp only at taken
  split at taken
  case h_2 => cases taken
  rename_i g suspended isFiber
  split at taken <;> cases taken
  refine ⟨g, isFiber, setAt_self _ _ _, fun v other => setAt_other other _ _, fun p f now => ?_⟩
  have notDropped : (s.strand d).place ≠ .dropped := by simp [suspended]
  refine at_of_start now fun q isStrand held => ?_
  cases q with
  | suspended e => cases held
  | inner e => exact ⟨held.1.imp_left fun isSelf => ⟨notDropped, isSelf.2⟩, held.2⟩
  | _ => exact held

/-- A function that waited goes on, on the fiber that its leftmost child left. -/
theorem at_resumeStalled (inv : CactusInv s) (taken : cactusStep s (.resumeStalled u d) = some s') :
    ∃ g, s.At (.child d ((s.strand d).frames.length - 1)) g ∧ s'.current u = some g ∧
      (∀ v, v ≠ u → s'.current v = s.current v) ∧
      ∀ p f, s'.At p f → s.At p f ∨ p = .current u ∧ f = g := by
  unfold cactusStep at taken
  split at taken
  · cases taken
  simp only at taken
  split at taken
  case h_2 => cases taken
  rename_i frame below stalled isFrames
  split at taken
  case h_2 => cases taken
  rename_i g isChild
  split at taken <;> cases taken
  have live : (s.strand d).place.live := by rw [stalled]; rfl
  have unsynced : ¬frame.synced := fun synced => by
    rw [synced.2] at isChild
    cases isChild
  have noQueue := (inv.outside live isFrames unsynced).2
  refine ⟨g, ⟨frame, ?_, isChild⟩, setAt_self _ _ _, fun v other => setAt_other other _ _, fun p f now => ?_⟩
  · rw [isFrames]
    exact atHeight_length
  refine at_of_start now fun q isStrand held => ?_
  cases q with
  | inner e =>
    obtain ⟨has, notTip⟩ := held
    simp only [noQueue, tipOf, List.getLast?_nil, Option.none_or] at has notTip
    rcases has with isSelf | member
    · exact absurd isSelf.2 notTip
    · cases member
  | child e h =>
    obtain ⟨frame', found, isChild'⟩ := held
    rcases atHeight_push found with ⟨rfl, -⟩ | foundBelow
    · cases isChild'
    · refine ⟨frame', ?_, isChild'⟩
      rw [isFrames]
      exact (atHeight_cons (lt_of_atHeight foundBelow)).trans foundBelow
  | suspended e => exact held
  | _ => cases isStrand

/-- A function that a future's end hands over to goes on; the fiber of the future goes to a cache or a pool. -/
theorem at_handOff (inv : CactusInv s) (taken : cactusStep s (.handOff d e) = some s') :
    ∃ w g current, (s.strand d).place = .on w ∧ s.current w = some current ∧ s.At (.suspended e) g ∧
      s'.current w = some g ∧ (∀ v, v ≠ w → s'.current v = s.current v) ∧
      ∀ p f, s'.At p f → s.At p f ∨ p = .current w ∧ f = g ∨ p = returnPosition s w ∧ f = current := by
  unfold cactusStep at taken
  split at taken
  · cases taken
  simp only at taken
  split at taken
  case h_2 => cases taken
  rename_i w frame below g on isFrames suspended isFiber
  split at taken
  case h_2 => cases taken
  rename_i future current isFuture isCurrent
  split at taken
  case isFalse => cases taken
  rename_i ends
  have outside : ∀ other ∈ (s.strand d).frames, other.invocation.inDeque = false := by
    rw [isFrames]
    simpa using ends.2
  have noQueue : (s.strand d).queue = [] := (inv.fibersOk on).queue.trans (queuedFibers_eq_nil outside)
  have notD : e ≠ d := by
    rintro rfl
    cases on.symm.trans suspended
  generalize isNext : ((s.setStrand d { s.strand d with place := .dropped }).setStrand e
    { s.strand e with place := .on w, fiber := none }).setCurrent w (some g) = next at taken
  have caches : SameCaches s next := by
    rw [← isNext]
    exact ⟨rfl, rfl, rfl, rfl, rfl⟩
  obtain ⟨same, only⟩ := at_of_returnFiber inv.res caches (inv.current_not_pool isCurrent) taken
  have nextCurrent : next.current = setAt s.current w (some g) := by rw [← isNext]
  refine ⟨w, g, current, on, isCurrent, isFiber, ?_, fun v other => ?_, fun p f now => ?_⟩
  · rw [same.current, nextCurrent, setAt_self]
  · rw [same.current, nextCurrent, setAt_other other]
  have at_e : (s.setStrand d { s.strand d with place := .dropped }).strand e = s.strand e :=
    setAt_other notD _ _
  have notDropped : (s.strand e).place ≠ .dropped := by simp [suspended]
  have back : next.At p f → s.At p f ∨ p = .current w ∧ f = g := by
    intro before
    rw [← isNext] at before
    have resumed := at_of_start (s := s.setStrand d { s.strand d with place := .dropped }) before ?_
    · apply resumed.imp_left
      intro dropped
      refine (at_of_set (s := s) (P := fun _ => False) dropped ⟨rfl, rfl, rfl, rfl, rfl⟩ rfl rfl
        (fun v isCurrent => .inl isCurrent) fun q isStrand held => ?_).resolve_right id
      cases q with
      | inner e' =>
        obtain ⟨isSelf | member, -⟩ := held
        · exact absurd rfl isSelf.1
        · change f ∈ (s.strand d).queue at member
          rw [noQueue] at member
          cases member
      | _ => exact .inl held
    · intro q isStrand held
      rw [at_e]
      cases q with
      | suspended e' => cases held
      | inner e' => exact ⟨held.1.imp_left fun isSelf => ⟨notDropped, isSelf.2⟩, held.2⟩
      | _ => exact held
  rcases only p f now with before | given
  · exact (back before).imp_right .inl
  · exact .inr (.inr given)

/-- `finish_spawn_return_on_user_stack` passes the fiber up to the parent. -/
def PassesFiberUp (d : δ) (parent : CactusFrame δ β) : Prop :=
  parent.children.head? = some d ∧ parent.fiberChild = none

/-- A spawned function returns to a parent that was stolen: its fiber becomes that of the parent's child, or
    goes to a pool. -/
theorem at_childReturn (inv : CactusInv s) (taken : cactusStep s (.childReturn d) = some s') :
    ∃ w h e g parent frame, (s.strand d).place = .on w ∧ (s.strand d).frames = [frame] ∧
      frame.invocation = .spawnedStolen e h ∧ atHeight h (s.strand e).frames = some parent ∧
      s.current w = some g ∧ s'.current w = none ∧ (∀ v, v ≠ w → s'.current v = s.current v) ∧
      ∀ p f, s'.At p f → s.At p f ∨
        PassesFiberUp d parent ∧ p = .child e h ∧ f = g ∨ ¬PassesFiberUp d parent ∧ p = .pool w ∧ f = g := by
  unfold cactusStep at taken
  split at taken
  · cases taken
  simp only at taken
  split at taken
  case h_2 => cases taken
  rename_i w frame on isFrames
  split at taken
  case h_2 => cases taken
  rename_i e h fiberSelf isSpawned isSelf
  split at taken
  case isFalse => cases taken
  unfold CactusState.finishSpawnReturn at taken
  split at taken
  case h_2 => cases taken
  rename_i parent found
  simp only at taken
  have noQueue : (s.strand d).queue = [] := by
    rw [(inv.fibersOk on).queue, isFrames, queuedFibers, isSpawned]
    rfl
  have isCurrent : s.current w = some fiberSelf := by
    rw [inv.workers.current d w on, noQueue, isSelf]
    rfl
  have passes : ¬(parent.children.head? ≠ some d ∨ parent.fiberChild ≠ none) ↔ PassesFiberUp d parent := by
    rw [not_or, not_not, not_not, PassesFiberUp]
  generalize isNext : (((s.setStrand e { s.strand e with
    frames := modifyHeight h (fun parent' : CactusFrame δ β => { parent' with
      children := parent'.children.erase d
      fiberChild := if parent.children.head? ≠ some d ∨ parent.fiberChild ≠ none then parent'.fiberChild
        else some fiberSelf }) (s.strand e).frames }).setStrand d (.ended ω δ β)).setCurrent
          w none) = next at taken
  have caches : SameCaches s next := by
    rw [← isNext]
    exact ⟨rfl, rfl, rfl, rfl, rfl⟩
  have nextCurrent : next.current = setAt s.current w none := by rw [← isNext]
  have back : ∀ p f, next.At p f → s.At p f ∨ PassesFiberUp d parent ∧ p = .child e h ∧ f = fiberSelf := by
    intro p f before
    rw [← isNext] at before
    have stopped := (at_of_stop (P := fun _ => False) before fun q _ held =>
      absurd held not_at_ended).resolve_right id
    refine at_of_set (s := s) (P := fun q => PassesFiberUp d parent ∧ q = .child e h ∧ f = fiberSelf) stopped
      ⟨rfl, rfl, rfl, rfl, rfl⟩ rfl rfl (fun v isCurrent => .inl isCurrent) fun q isStrand held => ?_
    cases q with
    | child e' k =>
      obtain rfl := Option.some.inj isStrand
      obtain ⟨other, foundOther, isChild⟩ := held
      by_cases isH : k = h
      · rw [isH, atHeight_modifyHeight found] at foundOther
        obtain rfl := Option.some.inj foundOther
        simp only at isChild
        split at isChild
        · exact .inl ⟨parent, isH ▸ found, isChild⟩
        · rename_i leftmost
          exact .inr ⟨passes.1 leftmost, by rw [isH], (Option.some.inj isChild).symm⟩
      · rw [atHeight_modifyHeight_other isH] at foundOther
        exact .inl ⟨other, foundOther, isChild⟩
    | _ => exact .inl held
  split at taken
  · rename_i notLeftmost
    have notPasses : ¬PassesFiberUp d parent := fun up => passes.2 up notLeftmost
    obtain ⟨same, only⟩ := at_of_cilkFiberRemoveReference inv.res caches (inv.current_not_pool isCurrent) taken
    refine ⟨w, h, e, fiberSelf, parent, frame, on, isFrames, isSpawned, found, isCurrent, ?_, fun v other => ?_,
      fun p f now => ?_⟩
    · rw [same.current, nextCurrent, setAt_self]
    · rw [same.current, nextCurrent, setAt_other other]
    · rcases only p f now with before | given
      · exact (back p f before).imp_right .inl
      · exact .inr (.inr ⟨notPasses, given⟩)
  · cases taken
    refine ⟨w, h, e, fiberSelf, parent, frame, on, isFrames, isSpawned, found, isCurrent, ?_, fun v other => ?_,
      fun p f now => (back p f now).imp_right .inl⟩
    · rw [nextCurrent, setAt_self]
    · rw [nextCurrent, setAt_other other]

/-- What is left of a position of `d` after its oldest continuation was stolen, where `c` goes on with the
rest. -/
structure Stolen (s : CactusState ω δ β) (xc xd : CactusStrand ω δ β) (d c : δ) : Prop where
  innerC : ∀ f : β, xc.At (.inner c : FiberPosition ω δ) f → s.At (.inner d) f
  suspendedC : xc.fiber = (s.strand d).fiber
  childC : ∀ h (f : β), ¬xc.At (.child c h : FiberPosition ω δ) f
  innerD : ∀ f : β, ¬xd.At (.inner d : FiberPosition ω δ) f
  suspendedD : xd.fiber = none
  childD : ∀ h (f : β), xd.At (.child d h : FiberPosition ω δ) f → s.At (.child d h) f

omit [DecidableEq β] in
/-- The positions after a theft. -/
theorem at_of_stolen {xc xd : CactusStrand ω δ β} {spare : ω → Option β}
    (now : CactusState.At { ((s.setStrand c xc).setStrand d xd).setCurrent u (some g) with spare := spare } p f)
    (keeps : ∀ v f, spare v = some f → s.spare v = some f) (stolen : Stolen s xc xd d c) :
    s.At p f ∧ p ≠ .suspended d ∨ p = .current u ∧ f = g ∨ p = .inner c ∧ s.At (.inner d) f ∨
      p = .suspended c ∧ s.At (.suspended d) f := by
  have notSuspended : p ≠ .suspended d := by
    rintro rfl
    simp only [CactusState.At, CactusStrand.At, setAt_self, stolen.suspendedD] at now
    cases now
  have back : s.At p f ∨ p = .current u ∧ f = g ∨ p = .inner c ∧ s.At (.inner d) f ∨
      p = .suspended c ∧ s.At (.suspended d) f := by
    refine at_only (s := s) (P := fun q => q = .current u ∧ f = g ∨ q = .inner c ∧ s.At (.inner d) f ∨
      q = .suspended c ∧ s.At (.suspended d) f) now ⟨rfl, rfl, rfl, rfl, rfl⟩ ?_ ?_ fun v isSpare =>
        .inl (keeps v f isSpare)
    · intro q e isStrand held
      by_cases isD : e = d
      · rw [isD] at held isStrand
        simp only [setAt_self] at held
        cases q with
        | inner e' => cases isStrand; exact absurd held (stolen.innerD f)
        | suspended e' =>
          rw [CactusStrand.At, stolen.suspendedD] at held
          cases held
        | child e' h => cases isStrand; exact .inl (stolen.childD h f held)
        | _ => cases isStrand
      · simp only [setAt_other isD] at held
        by_cases isC : e = c
        · rw [isC] at held isStrand
          simp only [setAt_self] at held
          cases q with
          | inner e' => cases isStrand; exact .inr (.inr (.inl ⟨rfl, stolen.innerC f held⟩))
          | suspended e' =>
            rw [CactusStrand.At, stolen.suspendedC] at held
            cases isStrand
            exact .inr (.inr (.inr ⟨rfl, held⟩))
          | child e' h => cases isStrand; exact absurd held (stolen.childC h f)
          | _ => cases isStrand
        · simp only [setAt_other isC] at held
          exact .inl ((at_iff_strand isStrand).2 held)
    · intro v isCurrent
      rcases of_setCurrent (s := (s.setStrand c xc).setStrand d xd) isCurrent with ⟨rfl, isG⟩ | was
      · exact .inr (.inl ⟨rfl, (Option.some.inj isG).symm⟩)
      · exact .inl was
  exact back.imp_left fun was => ⟨was, notSuspended⟩

/-- A thief goes on with a stolen continuation: on the fiber that it had allocated, or on the one that the
parent of a future was left on. -/
theorem at_steal (inv : CactusInv s) (taken : cactusStep s (.steal u d c) = some s') :
    (s.strand c).place = .unused ∧ ∃ g, s.current u = none ∧ s'.current u = some g ∧
      (s.At (.spare u) g ∨ s.At (.inner d) g) ∧ (∀ v, v ≠ u → s'.current v = s.current v) ∧
      ∀ p f, s'.At p f → s.At p f ∧ p ≠ .suspended d ∨ p = .current u ∧ f = g ∨
        p = .inner c ∧ s.At (.inner d) f ∨
        p = .suspended c ∧ s.At (.suspended d) f := by
  unfold cactusStep at taken
  split at taken
  · cases taken
  simp only at taken
  split at taken
  case isFalse => cases taken
  rename_i thief
  obtain ⟨none_current, unused⟩ := thief
  refine ⟨unused, ?_⟩
  have steals : ∀ {younger child parent below}, splitOldest (s.strand d).frames =
      some (younger, child, parent :: below) → (s.strand d).place.live → (s.strand d).place ≠ .stalled →
      s.detachForSteal u d c younger child parent below = some s' →
      ∃ g, s.current u = none ∧ s'.current u = some g ∧ (s.At (.spare u) g ∨ s.At (.inner d) g) ∧
        (∀ v, v ≠ u → s'.current v = s.current v) ∧ ∀ p f, s'.At p f → s.At p f ∧ p ≠ .suspended d ∨
          p = .current u ∧ f = g ∨ p = .inner c ∧ s.At (.inner d) f ∨
          p = .suspended c ∧ s.At (.suspended d) f := by
    intro younger child parent below isSplit live notStalled taken
    obtain ⟨isFrames, inDeque, outside⟩ := splitOldest_spec isSplit
    have ok := (inv.kept d).live live
    have noChild : ∀ {invocation : Invocation δ β} h (f : β), ¬∃ frame, atHeight h (younger ++
        [{ child with invocation := invocation }]) = some frame ∧ frame.fiberChild = some f := by
      rintro invocation h f ⟨frame, found, isChild⟩
      rw [inv.upper_has live isFrames inDeque found] at isChild
      cases isChild
    have oldChild : ∀ {children : List δ} {home : Option β} h (f : β),
        (∃ frame, atHeight h ({ parent with children := children, home := home } :: below) = some frame ∧
          frame.fiberChild = some f) → s.At (.child d h) f := by
      rintro children home h f ⟨frame, found, isChild⟩
      rw [atHeight] at found
      split at found
      · rename_i isLength
        cases found
        refine ⟨parent, ?_, isChild⟩
        rw [isFrames, List.append_cons, atHeight_append (by simp only [List.length_cons]; omega), ← isLength]
        exact atHeight_length
      · refine ⟨frame, ?_, isChild⟩
        have low := lt_of_atHeight found
        rw [isFrames, List.append_cons, atHeight_append (by simp only [List.length_cons]; omega),
          atHeight_cons low]
        exact found
    unfold CactusState.detachForSteal at taken
    simp only at taken
    split at taken
    · rename_i isSpawned
      split at taken <;> cases taken
      rename_i fiber isSpare
      refine ⟨fiber, none_current, setAt_self _ _ _, .inl isSpare, fun v other => setAt_other other _ _,
        fun p f now => at_of_stolen now (fun v f isSpare' => ?_)
          ⟨fun f held => held, rfl, fun h f => noChild h f,
          fun f held => ?_, rfl, fun h f held => oldChild h f held⟩⟩
      · by_cases isU : v = u
        · rw [isU, setAt_self] at isSpare'
          cases isSpare'
        · rwa [setAt_other isU] at isSpare'
      · obtain ⟨isSelf | member, notTip⟩ := held
        · exact notTip isSelf.2
        · cases member
    · rename_i fiber initial isFuture
      split at taken <;> cases taken
      rename_i popped queue fiberSelf isQueue' isSelf
      have notDropped : (s.strand d).place ≠ .dropped := by
        intro isDropped
        rw [isDropped] at live
        cases live
      refine ⟨fiberSelf, none_current, setAt_self _ _ _, .inr ⟨.inl ⟨notDropped, isSelf⟩, fun isTip => ?_⟩,
        fun v other => setAt_other other _ _, fun p f now => at_of_stolen now (fun v f isSpare => isSpare)
          ⟨fun f held => ?_, rfl, fun h f => noChild h f, fun f held => ?_, rfl,
            fun h f held => oldChild h f held⟩⟩
      · -- the fiber of the full frame is not in the queue
        rw [isQueue', tipOf_cons, tipOf] at isTip
        have member : fiberSelf ∈ (s.strand d).queue := by
          rw [isQueue']
          cases isLast : queue.getLast? with
          | none =>
            rw [isLast] at isTip
            cases isTip
            exact List.mem_cons_self
          | some last =>
            rw [isLast] at isTip
            cases isTip
            exact List.mem_cons_of_mem _ (List.mem_of_getLast? isLast)
        have same := inv.res.exclusive (.self d) (.queue d) fiberSelf ⟨notDropped, isSelf⟩ member
        cases same
      · obtain ⟨has, notTip⟩ := held
        change tipOf (some popped) queue ≠ some f at notTip
        rw [← @tipOf_cons β (s.strand d).fiberSelf, ← isQueue'] at notTip
        refine ⟨.inr ?_, notTip⟩
        rw [isQueue']
        rcases has with isPopped | member
        · cases isPopped.2
          exact List.mem_cons_self
        · exact List.mem_cons_of_mem _ member
      · obtain ⟨isSelf' | member, notTip⟩ := held
        · exact notTip isSelf'.2
        · cases member
    · cases taken
  split at taken
  · rename_i on isSplit
    exact steals isSplit (by rw [on]; rfl) (by simp [on]) taken
  · rename_i suspended isSplit
    exact steals isSplit (by rw [suspended]; rfl) (by simp [suspended]) taken
  · cases taken

/-! ### Suspended strands -/

/-- A strand stays used, and suspended with its fiber. -/
structure CactusStrand.Persists (x x' : CactusStrand ω δ β) : Prop where
  used : x.place ≠ .unused → x'.place ≠ .unused
  suspended : x.place = .suspended → x'.place = .suspended ∧ x'.fiber = x.fiber

namespace CactusStrand.Persists

omit [DecidableEq ω] [DecidableEq δ] [DecidableEq β] in
theorem refl (x : CactusStrand ω δ β) : x.Persists x := ⟨id, fun suspended => ⟨suspended, rfl⟩⟩

omit [DecidableEq ω] [DecidableEq δ] [DecidableEq β] in
/-- A strand that is not suspended. -/
theorem of_other {x x' : CactusStrand ω δ β} (other : x.place ≠ .suspended) (used : x'.place ≠ .unused) :
    x.Persists x' := ⟨fun _ => used, fun suspended => absurd suspended other⟩

omit [DecidableEq ω] [DecidableEq β] in
/-- One strand changes. -/
theorem set {T : δ → CactusStrand ω δ β} (persists : (T d).Persists x) (e : δ) :
    (T e).Persists (setAt T d x e) := by
  by_cases isD : e = d
  · rw [isD, setAt_self]
    exact persists
  · rw [setAt_other isD]
    exact refl _

omit [DecidableEq ω] [DecidableEq β] in
/-- Another strand changes. -/
theorem away {T : δ → CactusStrand ω δ β} (other : e ≠ d) : (T e).Persists (setAt T d x e) := by
  rw [setAt_other other]
  exact refl _

omit [DecidableEq ω] [DecidableEq δ] [DecidableEq β] in
theorem trans {x x' x'' : CactusStrand ω δ β} (first : x.Persists x')
    (second : x'.Persists x'') : x.Persists x'' where
  used used := second.used (first.used used)
  suspended suspended := by
    obtain ⟨still, sameFiber⟩ := first.suspended suspended
    obtain ⟨still', sameFiber'⟩ := second.suspended still
    exact ⟨still', sameFiber'.trans sameFiber⟩

end CactusStrand.Persists

/-- A step goes on with a suspended strand, or takes its oldest continuation. -/
def TakesOver (label : CactusLabel ω δ β) (e : δ) : Prop :=
  (∃ u, label = .resume u e) ∨ (∃ d, label = .handOff d e) ∨ ∃ u c, label = .steal u e c

omit [DecidableEq δ] [DecidableEq β] in
theorem returnFiber_strand (isGiven : s.returnFiber w g = some s') : s'.strand = s.strand := by
  unfold CactusState.returnFiber at isGiven
  simp only at isGiven
  split at isGiven
  · cases isGiven
    rfl
  · rw [CactusState.cilkFiberRemoveReference, Option.map_eq_some_iff] at isGiven
    obtain ⟨pool, -, rfl⟩ := isGiven
    rfl

omit [DecidableEq δ] [DecidableEq β] in
theorem cilkFiberRemoveReference_strand (isGiven : s.cilkFiberRemoveReference w g = some s') :
    s'.strand = s.strand := by
  rw [CactusState.cilkFiberRemoveReference, Option.map_eq_some_iff] at isGiven
  obtain ⟨pool, -, rfl⟩ := isGiven
  rfl

/-- What a step leaves of the strands. -/
theorem strand_of_step {label : CactusLabel ω δ β} (taken : cactusStep s label = some s') {e : δ}
    (leaves : ¬TakesOver label e) : (s.strand e).Persists (s'.strand e) := by
  unfold cactusStep at taken
  split at taken
  · cases taken
  have onUsed : ∀ {d : δ} {w : ω} {x : CactusStrand ω δ β}, (s.strand d).place = .on w → x.place ≠ .unused →
      (s.strand d).Persists x := fun {d w x} on used => .of_other (by simp [on]) used
  cases label with
  | call d =>
    simp only at taken
    split at taken <;> cases taken
    rename_i w on
    exact .set (onUsed on (by simp [CactusStrand.push, on])) e
  | spawn d =>
    simp only at taken
    split at taken <;> cases taken
    rename_i w on
    exact .set (onUsed on (by simp [CactusStrand.push, on])) e
  | spawnFuture d heap heapOfParent =>
    simp only at taken
    split at taken
    case h_2 => cases taken
    rename_i w on
    split at taken <;> cases taken
    rename_i fiber s₁ initial isTaken isCurrent
    have same := (at_of_takeFiber isTaken).1
    have strands := CactusStrand.Persists.set (T := s.strand) (x := CactusStrand.push
      { s₁.strand d with queue := (s₁.strand d).queue ++ [fiber] } (.future fiber initial))
      (onUsed on (by simp [CactusStrand.push, same.strand, on])) e
    rw [← same.strand] at strands
    rw [← same.strand]
    exact strands
  | leave d =>
    simp only at taken
    split at taken
    case h_2 => cases taken
    split at taken <;> cases taken
    rename_i w frame below on isFrames leaves
    exact .set (onUsed on (by simp [on])) e
  | futureReturn d =>
    simp only at taken
    split at taken
    case h_2 => cases taken
    rename_i w frame below on isFrames
    split at taken
    case h_2 => cases taken
    split at taken
    case isFalse => cases taken
    rw [returnFiber_strand taken]
    exact .set (onUsed on (by simp [on])) e
  | allocate u heap heapOfParent =>
    simp only at taken
    split at taken
    case isFalse => cases taken
    rw [Option.map_eq_some_iff] at taken
    obtain ⟨⟨fiber, s₁⟩, isTaken, rfl⟩ := taken
    rw [(at_of_cilkFiberAllocate isTaken).1.strand]
    exact .refl _
  | giveBack u =>
    simp only at taken
    split at taken
    case h_2 => cases taken
    rw [cilkFiberRemoveReference_strand taken]
    exact .refl _
  | steal u d c =>
    simp only at taken
    split at taken
    case isFalse => cases taken
    rename_i thief
    have notD : e ≠ d := fun same => leaves (.inr (.inr ⟨u, c, by rw [same]⟩))
    have steals : ∀ {younger child parent below}, (s.strand d).place ≠ .unused →
        s.detachForSteal u d c younger child parent below = some s' → (s.strand e).Persists (s'.strand e) := by
      intro younger child parent below used taken
      have persists : ∀ xc xd : CactusStrand ω δ β, xc.place ≠ .unused →
          (s.strand e).Persists (setAt (setAt s.strand c xc) d xd e) := by
        intro xc xd usedC
        rw [setAt_other notD]
        exact .set (.of_other (by simp [thief.2]) usedC) e
      unfold CactusState.detachForSteal at taken
      simp only at taken
      split at taken
      · split at taken <;> cases taken
        exact persists _ _ used
      · split at taken <;> cases taken
        exact persists _ _ used
      · cases taken
    split at taken
    · rename_i on isSplit
      exact steals (by simp [on]) taken
    · rename_i suspended isSplit
      exact steals (by simp [suspended]) taken
    · cases taken
  | childReturn d =>
    simp only at taken
    split at taken
    case h_2 => cases taken
    rename_i w frame on isFrames
    split at taken
    case h_2 => cases taken
    rename_i p h fiberSelf isSpawned isSelf
    split at taken
    case isFalse => cases taken
    have persists : ∀ frames : List (CactusFrame δ β), (s.strand e).Persists
        (setAt (setAt s.strand p { s.strand p with frames := frames }) d (.ended ω δ β) e) := by
      intro frames
      have first := CactusStrand.Persists.set (T := s.strand) (d := p)
        (x := { s.strand p with frames := frames })
        ⟨id, fun suspended => ⟨suspended, rfl⟩⟩ e
      by_cases isD : e = d
      · rw [isD, setAt_self]
        exact onUsed on (by simp [CactusStrand.ended])
      · rw [setAt_other isD]
        exact first
    unfold CactusState.finishSpawnReturn at taken
    split at taken
    case h_2 => cases taken
    simp only at taken
    split at taken
    · rw [cilkFiberRemoveReference_strand taken]
      exact persists _
    · cases taken
      exact persists _
  | futureReturnStolen d =>
    simp only at taken
    split at taken
    case h_2 => cases taken
    rename_i w frame on isFrames
    split at taken
    case h_2 => cases taken
    split at taken
    case isFalse => cases taken
    rw [cilkFiberRemoveReference_strand taken]
    exact .set (onUsed on (by simp [CactusStrand.ended])) e
  | stall d =>
    simp only at taken
    split at taken
    case h_2 => cases taken
    rename_i w frame below fiberSelf on isFrames isSelf
    split at taken
    case isTrue => cases taken
    rw [cilkFiberRemoveReference_strand taken]
    exact .set (onUsed on (by simp)) e
  | resumeStalled u d =>
    simp only at taken
    split at taken
    case h_2 => cases taken
    rename_i frame below stalled isFrames
    split at taken
    case h_2 => cases taken
    split at taken <;> cases taken
    exact .set (.of_other (by simp [stalled]) (by simp)) e
  | suspend d =>
    simp only at taken
    split at taken <;> cases taken
    rename_i w on
    exact .set (onUsed on (by simp)) e
  | resume u d =>
    simp only at taken
    split at taken
    case h_2 => cases taken
    split at taken <;> cases taken
    exact .away fun same => leaves (.inl ⟨u, by rw [same]⟩)
  | handOff d e' =>
    simp only at taken
    split at taken
    case h_2 => cases taken
    rename_i w frame below g on isFrames suspended isFiber
    split at taken
    case h_2 => cases taken
    split at taken
    case isFalse => cases taken
    rw [returnFiber_strand taken]
    exact .trans (.set (T := s.strand) (onUsed on (by simp)) e)
      (.away fun same => leaves (.inr (.inl ⟨d, by rw [same]⟩)))
  | throw d =>
    simp only at taken
    split at taken
    case h_2 => cases taken
    rename_i w frame below on isFrames
    split at taken <;> cases taken
    exact .set (onUsed on (by simp [on])) e

/-- The strand that goes on with the rest of a stolen deque. -/
theorem strand_of_steal (taken : cactusStep s (.steal u d c) = some s') :
    (s'.strand c).place ≠ .unused ∧ ((s.strand d).place = .suspended →
      (s'.strand c).place = .suspended ∧ (s'.strand c).fiber = (s.strand d).fiber) := by
  unfold cactusStep at taken
  split at taken
  · cases taken
  simp only at taken
  split at taken
  case isFalse => cases taken
  rename_i thief
  have steals : ∀ {younger child parent below}, (s.strand d).place ≠ .unused →
      s.detachForSteal u d c younger child parent below = some s' →
      (s'.strand c).place = (s.strand d).place ∧ (s'.strand c).fiber = (s.strand d).fiber := by
    intro younger child parent below used taken
    have notD : c ≠ d := fun same => used (same ▸ thief.2)
    unfold CactusState.detachForSteal at taken
    simp only at taken
    split at taken
    · split at taken <;> cases taken
      simp only [setAt_other notD, setAt_self, and_self]
    · split at taken <;> cases taken
      simp only [setAt_other notD, setAt_self, and_self]
    · cases taken
  split at taken
  · rename_i on isSplit
    obtain ⟨place, fiber⟩ := steals (by simp [on]) taken
    rw [place, fiber, on]
    exact ⟨by simp, fun suspended => ⟨suspended, rfl⟩⟩
  · rename_i suspended isSplit
    obtain ⟨place, fiber⟩ := steals (by simp [suspended]) taken
    rw [place, fiber, suspended]
    exact ⟨by simp, fun suspended => ⟨suspended, rfl⟩⟩
  · cases taken

end Steps

end CilkL
