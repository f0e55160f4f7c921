/-
Module: CilkL.Proofs.RandomSteal
Layer: Proofs
Purpose: A `random_steal` that returns without work has undone what it did. The memory is at each step the
  one that the stores of the others alone would make, but for the lock that the thief holds and the `exc`
  that it raised; these commute with the stores of the others, which the lock keeps away from them. The one
  effect that stays is a `deque_mug` of an empty suspended deque, with both its stores.
Imports: CilkL.Proofs.DequePoolArray, CilkL.Proofs.FiberPool, CilkL.Runtime.RandomSteal
Trusted boundary: none
Main exports: StealMemory.disturb, StealFiberInv, StealMemoryInv, MuggedEmpty, FailedSteal,
  failed_random_steal_undone
Open obligations: none
-/
import CilkL.Proofs.DequePoolArray
import CilkL.Proofs.FiberPool
import CilkL.Runtime.RandomSteal

namespace CilkL

variable {ω δ φ ψ β F G : Type}

variable [DecidableEq ω] [DecidableEq δ] [DecidableEq φ] {s t : StealState ω δ φ ψ β F G}
  {w : ω} {isUser : Bool}

/-! ### The thief's fiber -/

/-- The thief's fiber is out of its pool until it is given back. -/
structure StealFiberInv (s : StealState ω δ φ ψ β F G) : Prop where
  nodup : s.pool.fibers.Nodup
  size : s.pool.size ≤ s.pool.maxSize.toNat
  fresh : s.pc = .picking → s.fiber = none
  out : s.pc.outside = false → ∀ fiber, s.fiber = some fiber → fiber ∉ s.pool.fibers
  back : s.pc = .returned → ∀ fiber, s.fiber = some fiber → fiber ∈ s.pool.fibers

omit [DecidableEq ω] [DecidableEq δ] [DecidableEq φ] in
/-- A step that leaves the pool and the fiber alone. -/
theorem StealFiberInv.keep (inv : StealFiberInv s) (pool : t.pool = s.pool) (fiber : t.fiber = s.fiber)
    (inside : s.pc.outside = false) (notPicking : t.pc ≠ .picking) (notReturned : t.pc ≠ .returned) :
    StealFiberInv t where
  nodup := by rw [pool]; exact inv.nodup
  size := by rw [pool]; exact inv.size
  fresh picking := absurd picking notPicking
  out _ := by
    rw [pool, fiber]
    exact inv.out inside
  back returned := absurd returned notReturned

theorem StealFiberInv.step [DecidableEq β] [Fintype ω] (inv : StealFiberInv s)
    {label : StealLabel ω δ φ ψ β F G}
    (taken : stealStep w isUser s label = some t) : StealFiberInv t := by
  cases label with
  | others stores =>
    simp only [stealStep, Option.ite_none_right_eq_some, Option.some.injEq] at taken
    obtain ⟨-, rfl⟩ := taken
    exact ⟨inv.nodup, inv.size, inv.fresh, inv.out, inv.back⟩
  | call stealingDisabled =>
    simp only [stealStep, Option.ite_none_right_eq_some, Option.some.injEq] at taken
    obtain ⟨-, rfl⟩ := taken
    exact ⟨inv.nodup, inv.size, fun _ => rfl, (by rintro _ _ ⟨⟩), by rintro _ _ ⟨⟩⟩
  | pickVictim v =>
    simp only [stealStep] at taken
    split at taken <;> cases taken
    · rename_i picking
      exact inv.keep rfl rfl (by rw [picking]; rfl) (by rintro ⟨⟩) (by rintro ⟨⟩)
    · rename_i picking
      have noFiber := inv.fresh picking
      exact ⟨inv.nodup, inv.size, (by rintro ⟨⟩), (by rintro ⟨⟩), fun _ => by rw [noFiber]; rintro _ ⟨⟩⟩
  | tryLock =>
    simp only [stealStep] at taken
    split at taken
    · rename_i v locking
      split at taken <;> cases taken <;> exact inv.keep rfl rfl (by rw [locking]; rfl) (by rintro ⟨⟩) (by rintro ⟨⟩)
    · cases taken
  | chooseDeque rand =>
    simp only [stealStep] at taken
    split at taken
    · rename_i v choosing
      split at taken <;> cases taken <;> exact inv.keep rfl rfl (by rw [choosing]; rfl) (by rintro ⟨⟩) (by rintro ⟨⟩)
    · cases taken
  | testResumable =>
    simp only [stealStep] at taken
    split at taken
    · rename_i v d chosen
      split at taken
      · cases taken
        exact inv.keep rfl rfl (by rw [chosen]; rfl) (by rintro ⟨⟩) (by rintro ⟨⟩)
      · split at taken <;> cases taken <;> exact inv.keep rfl rfl (by rw [chosen]; rfl) (by rintro ⟨⟩) (by rintro ⟨⟩)
    · cases taken
  | testTail =>
    simp only [stealStep] at taken
    split at taken
    · rename_i v d dekker testing
      split at taken <;> cases taken <;> refine inv.keep rfl rfl (by rw [testing]; rfl) ?_ ?_ <;>
        cases dekker <;> rintro ⟨⟩
    · cases taken
  | testProtected =>
    simp only [stealStep] at taken
    split at taken
    · rename_i v d dekker testing
      split at taken <;> cases taken <;> refine inv.keep rfl rfl (by rw [testing]; rfl) ?_ ?_ <;>
        cases dekker <;> rintro ⟨⟩
    · cases taken
  | mug =>
    simp only [stealStep] at taken
    split at taken
    · rename_i v d failedTest
      have keep : ∀ {t : StealState ω δ φ ψ β F G}, t.pool = s.pool → t.fiber = s.fiber →
          t.pc ≠ .picking → t.pc ≠ .returned → StealFiberInv t := fun pool fiber =>
        inv.keep pool fiber (by rw [failedTest]; rfl)
      split at taken
      · cases taken
        exact keep rfl rfl (by rintro ⟨⟩) (by rintro ⟨⟩)
      · split at taken
        · split at taken
          · split at taken <;> cases taken
            exact keep rfl rfl (by rintro ⟨⟩) (by rintro ⟨⟩)
          · cases taken
        · cases taken
    · cases taken
  | claim =>
    simp only [stealStep] at taken
    split at taken
    · rename_i v d mugged
      split at taken
      · split at taken <;> cases taken
        exact inv.keep rfl rfl (by rw [mugged]; rfl) (by rintro ⟨⟩) (by rintro ⟨⟩)
      · cases taken
    · cases taken
  | allocate heap parent =>
    simp only [stealStep] at taken
    split at taken
    · rename_i v d allocating
      split at taken
      · rename_i fiber fibers isSlots
        cases taken
        have nodup := inv.nodup
        have size := inv.size
        rw [isSlots, List.nodup_cons] at nodup
        rw [FiberPool.size, isSlots] at size
        refine ⟨nodup.2, Nat.le_of_succ_le size, (by rintro ⟨⟩), fun _ fiber' isFiber => ?_, by rintro ⟨⟩⟩
        obtain rfl := Option.some.inj isFiber
        exact nodup.1
      · rename_i noSlots
        have notIn : ∀ fiber : β, fiber ∉ s.pool.fibers := by simp [noSlots]
        split at taken <;> cases taken
        · exact ⟨inv.nodup, inv.size, (by rintro ⟨⟩), fun _ fiber _ => notIn fiber, by rintro ⟨⟩⟩
        · exact ⟨inv.nodup, inv.size, (by rintro ⟨⟩), fun _ fiber _ => notIn fiber, by rintro ⟨⟩⟩
        · exact ⟨inv.nodup, inv.size, (by rintro ⟨⟩), fun _ fiber _ => notIn fiber, by rintro ⟨⟩⟩
    · cases taken
  | testTeam =>
    simp only [stealStep] at taken
    split at taken
    · rename_i v d allocated
      split at taken
      · cases taken
        exact inv.keep rfl rfl (by rw [allocated]; rfl) (by rintro ⟨⟩) (by rintro ⟨⟩)
      · split at taken <;> cases taken <;> exact inv.keep rfl rfl (by rw [allocated]; rfl) (by rintro ⟨⟩) (by rintro ⟨⟩)
    · cases taken
  | incrementE =>
    simp only [stealStep] at taken
    split at taken <;> cases taken
    rename_i v d incrementing
    exact inv.keep rfl rfl (by rw [incrementing]; rfl) (by rintro ⟨⟩) (by rintro ⟨⟩)
  | decrementE =>
    simp only [stealStep] at taken
    split at taken <;> cases taken
    rename_i v d decrementing
    exact inv.keep rfl rfl (by rw [decrementing]; rfl) (by rintro ⟨⟩) (by rintro ⟨⟩)
  | matchPedigree isMatch =>
    simp only [stealStep] at taken
    split at taken <;> cases taken
    rename_i v d matching
    refine inv.keep rfl rfl (by rw [matching]; rfl) ?_ ?_ <;> cases isMatch <;> rintro ⟨⟩
  | unlock =>
    simp only [stealStep] at taken
    split at taken
    · rename_i v done
      split at taken <;> cases taken <;> exact inv.keep rfl rfl (by rw [done]; rfl) (by rintro ⟨⟩) (by rintro ⟨⟩)
    · cases taken
  | giveFiberBack =>
    simp only [stealStep] at taken
    split at taken
    · rename_i unlocked
      split at taken
      · rename_i fiber isFiber
        simp only [Option.map_eq_some_iff] at taken
        obtain ⟨pool, given, rfl⟩ := taken
        obtain ⟨nodup, size, member, -⟩ := FiberPool.deallocateSelf_spec inv.nodup inv.size
          (inv.out (by rw [unlocked]; rfl) fiber isFiber) given
        refine ⟨nodup, size, (by rintro ⟨⟩), (by rintro ⟨⟩), fun _ fiber' isFiber' => ?_⟩
        obtain rfl := Option.some.inj (isFiber.symm.trans isFiber')
        exact member
      · rename_i noFiber
        cases taken
        exact ⟨inv.nodup, inv.size, (by rintro ⟨⟩), (by rintro ⟨⟩), fun _ => by rw [noFiber]; rintro _ ⟨⟩⟩
    · cases taken
  | goOn memory pool =>
    simp only [stealStep, Option.ite_none_right_eq_some, Option.some.injEq] at taken
    obtain ⟨⟨-, -, nodup, size⟩, rfl⟩ := taken
    exact ⟨nodup, size, (by rintro ⟨⟩), (by rintro ⟨⟩), by rintro ⟨⟩⟩

/-! ### What a step does -/

namespace StealPc

/-- The deque whose `exc` the thief raised. -/
def raised : StealPc ω δ → Option δ
  | .testTail _ d true | .testProtected _ d true | .matching _ d | .decrementing _ d => some d
  | _ => none

/-- The lock that the thief has; at `done` it may have none. -/
def Locked (locked : Option ω) : StealPc ω δ → Prop
  | .done v => locked = none ∨ locked = some v
  | pc => locked = pc.holds

omit [DecidableEq ω] [DecidableEq δ] in
theorem deque_of_raised {pc : StealPc ω δ} {d : δ} (isRaised : d ∈ pc.raised) : d ∈ pc.deque := by
  unfold raised at isRaised
  split at isRaised <;> cases isRaised <;> rfl

/-- The thief has not mugged yet. -/
def beforeMug : StealPc ω δ → Bool
  | .idle | .stole | .mugged _ _ | .done _ | .unlocked | .returned => false
  | _ => true

end StealPc

/-- A move of the thief that stores nothing. -/
inductive StealRead (m : StealMemory ω δ φ ψ β F G) : StealPc ω δ → StealPc ω δ → Prop where
  | victim (v : ω) : StealRead m .picking (.locking v)
  | noVictim : StealRead m .picking .returned
  | busy (v : ω) : StealRead m (.locking v) (.done v)
  | choose (v : ω) (d : δ) : StealRead m (.choosing v) (.chosen v d)
  | test (v : ω) (d : δ) (kind : m.activeDeque v = some d ∨ m.deques.resumable d = false) :
      StealRead m (.chosen v d) (.testTail v d false)
  | tail (v : ω) (d : δ) (dekker : Bool) : StealRead m (.testTail v d dekker) (.testProtected v d dekker)
  | failTail (v : ω) (d : δ) (empty : ¬m.head d < m.tail d) :
      StealRead m (.testTail v d false) (.failedTest v d)
  | failProtected (v : ω) (d : δ) (empty : ¬m.head d < m.protectedTail d) :
      StealRead m (.testProtected v d false) (.failedTest v d)
  | pass (v : ω) (d : δ) : StealRead m (.testProtected v d false) (.allocating v d)
  | allocate (v : ω) (d : δ) : StealRead m (.allocating v d) (.allocated v d)
  | team (v : ω) (d : δ) : StealRead m (.allocated v d) (.incrementing v d)
  | won (v : ω) (d : δ) : StealRead m (.testProtected v d true) (.matching v d)
  | lost (pc : StealPc ω δ) (v : ω) (d : δ) (had : pc.raised = some d) (at_v : pc.holds = some v) :
      StealRead m pc (.decrementing v d)
  | giveUp (pc : StealPc ω δ) (v : ω) (had : pc.raised = none) (at_v : pc.holds = some v)
      (notMugged : pc.beforeMug) : StealRead m pc (.done v)
  | free : StealRead m .unlocked .returned

omit [DecidableEq ω] [DecidableEq δ] [DecidableEq φ] in
/-- Such a move is made inside of `random_steal`. -/
theorem StealRead.inside {m : StealMemory ω δ φ ψ β F G} {pc pc' : StealPc ω δ} (move : StealRead m pc pc') :
    pc ≠ .idle ∧ pc ≠ .stole ∧ pc' ≠ .idle := by
  cases move with
  | lost _ v d had at_v => exact ⟨(by rintro rfl; cases had), (by rintro rfl; cases had), nofun⟩
  | giveUp _ v had at_v notMugged => exact ⟨(by rintro rfl; cases at_v), (by rintro rfl; cases at_v), nofun⟩
  | _ => exact ⟨nofun, nofun, nofun⟩

/-- What one step does to the memory, and where it leaves the thief. -/
inductive StealMove (w : ω) (s t : StealState ω δ φ ψ β F G) : Prop where
  | others (stores : Stores ω δ φ ψ β F G) (allowed : stores.Allowed w s)
      (isNext : t = { s with memory := s.memory.store stores, effects := s.effects ++ [.others stores] })
  | call (outside : s.pc = .idle ∨ s.pc = .returned) (memory : t.memory = s.memory)
      (history : t.before = s.memory ∧ t.effects = [] ∧ t.taken = 0 ∧ t.released = 0)
      (pc : t.pc = .picking ∨ t.pc = .returned)
  | read (memory : t.memory = s.memory) (before : t.before = s.before) (effects : t.effects = s.effects)
      (taken : t.taken = s.taken) (released : t.released = s.released)
      (move : StealRead s.memory s.pc t.pc)
  | lock (v : ω) (locking : s.pc = .locking v) (isFree : s.memory.deques.lock v = none)
      (isNext : t = { s with
        memory := { s.memory with
          deques := { s.memory.deques with lock := setAt s.memory.deques.lock v (some w) } }
        taken := s.taken + 1, pc := .choosing v })
  | mug (v : ω) (d : δ) (failedTest : s.pc = .failedTest v d) (inactive : s.memory.activeDeque v ≠ some d)
      (owner : ω) (locked : s.memory.deques.lock owner = some w) (moved : δ) (kind : PoolKind)
      (isKind : kind = .of (s.memory.deques.resumable d))
      (inSlot : (s.memory.deques.pools owner kind).array[(s.memory.deques.self d).toNat]? = some (.item d))
      (isNext : t = { s with
        memory := s.memory.effect (.removed owner kind d moved)
        effects := s.effects ++ [.removed owner kind d moved], pc := .mugged v d })
  | claim (v : ω) (d : δ) (mugged : s.pc = .mugged v d) (sf : φ)
      (isFrame : s.memory.callStack d = some sf)
      (isNext : t = { s with
        memory := s.memory.effect (.claimed sf w)
        effects := s.effects ++ [.claimed sf w], pc := .done v })
  | raise (v : ω) (d : δ) (incrementing : s.pc = .incrementing v d)
      (isNext : t = { s with
        memory := { s.memory with exc := setAt s.memory.exc d (addE (s.memory.exc d) 1) }
        pc := .testTail v d true })
  | lower (v : ω) (d : δ) (decrementing : s.pc = .decrementing v d)
      (isNext : t = { s with
        memory := { s.memory with exc := setAt s.memory.exc d (addE (s.memory.exc d) (-1)) }
        pc := .done v })
  | unlock (v : ω) (done : s.pc = .done v) (locked : s.memory.deques.lock v = some w)
      (isNext : t = { s with
        memory := { s.memory with deques := { s.memory.deques with lock := setAt s.memory.deques.lock v none } }
        released := s.released + 1, pc := .unlocked })
  | noLock (v : ω) (done : s.pc = .done v) (locked : s.memory.deques.lock v ≠ some w)
      (isNext : t = { s with pc := .unlocked })
  | stole (stole : t.pc = .stole)
  | goOn (idle : t.pc = .idle) (locks : ∀ v, t.memory.deques.lock v ≠ some w)

omit [DecidableEq φ] in
/-- What `deque_pool_remove` requires and stores. -/
theorem dequePoolRemove_spec {deques deques' : DequePoolsState ω δ} {owner : ω} {kind : PoolKind} {d moved : δ}
    (removed : deques.dequePoolRemove owner kind d = some deques')
    (last : (deques.pools owner kind).array[(deques.pools owner kind).size - 1]? = some (.item moved)) :
    (deques.pools owner kind).array[(deques.self d).toNat]? = some (.item d) ∧
      deques' = deques.storeRemoved owner kind d moved := by
  simp only [DequePoolsState.dequePoolRemove, Option.ite_none_right_eq_some] at removed
  obtain ⟨⟨-, -, inSlot⟩, removed⟩ := removed
  refine ⟨inSlot, ?_⟩
  split at removed
  · rename_i moved' owner' last' _
    simp only [last, Option.some.injEq, Cell.item.injEq] at last'
    simp only [Option.ite_none_right_eq_some, Option.some.injEq] at removed
    rw [last', removed.2]
  · cases removed

/-- Each step is one of the moves. -/
theorem stealMove_of_step [DecidableEq β] [Fintype ω] {label : StealLabel ω δ φ ψ β F G}
    (taken : stealStep w isUser s label = some t) : StealMove w s t := by
  cases label with
  | others stores =>
    simp only [stealStep, Option.ite_none_right_eq_some, Option.some.injEq] at taken
    exact .others stores taken.1 taken.2.symm
  | call stealingDisabled =>
    simp only [stealStep, Option.ite_none_right_eq_some, Option.some.injEq] at taken
    obtain ⟨outside, rfl⟩ := taken
    exact .call outside rfl ⟨rfl, rfl, rfl, rfl⟩ (by cases stealingDisabled <;> simp)
  | pickVictim v =>
    simp only [stealStep] at taken
    split at taken <;> cases taken
    · rename_i victim picking
      exact .read rfl rfl rfl rfl rfl (by rw [picking]; exact .victim victim)
    · rename_i picking
      exact .read rfl rfl rfl rfl rfl (by rw [picking]; exact .noVictim)
  | tryLock =>
    simp only [stealStep] at taken
    split at taken
    · rename_i v locking
      split at taken <;> cases taken
      · rename_i isFree
        exact .lock v locking isFree rfl
      · exact .read rfl rfl rfl rfl rfl (by rw [locking]; exact .busy v)
    · cases taken
  | chooseDeque rand =>
    simp only [stealStep] at taken
    split at taken
    · rename_i v choosing
      split at taken <;> cases taken
      · exact .read rfl rfl rfl rfl rfl (by rw [choosing]; exact .choose v _)
      · exact .read rfl rfl rfl rfl rfl (by rw [choosing]; exact .choose v _)
      · exact .read rfl rfl rfl rfl rfl (by rw [choosing]; exact .giveUp _ v rfl rfl rfl)
    · cases taken
  | testResumable =>
    simp only [stealStep] at taken
    split at taken
    · rename_i v d chosen
      split at taken
      · cases taken
        exact .stole rfl
      · rename_i notResumable
        split at taken <;> cases taken
        · exact .read rfl rfl rfl rfl rfl (by rw [chosen]; exact .giveUp _ v rfl rfl rfl)
        · have kind : s.memory.activeDeque v = some d ∨ s.memory.deques.resumable d = false := by
            by_cases isActive : s.memory.activeDeque v = some d
            · exact .inl isActive
            · exact .inr (by simpa [isActive] using notResumable)
          exact .read rfl rfl rfl rfl rfl (by rw [chosen]; exact .test v d kind)
    · cases taken
  | testTail =>
    simp only [stealStep] at taken
    split at taken
    · rename_i v d dekker testing
      split at taken <;> cases taken
      · exact .read rfl rfl rfl rfl rfl (by rw [testing]; exact .tail v d dekker)
      · rename_i empty
        cases dekker
        · exact .read rfl rfl rfl rfl rfl (by rw [testing]; exact .failTail v d empty)
        · exact .read rfl rfl rfl rfl rfl (by rw [testing]; exact .lost _ v d rfl rfl)
    · cases taken
  | testProtected =>
    simp only [stealStep] at taken
    split at taken
    · rename_i v d dekker testing
      split at taken <;> cases taken
      · cases dekker
        · exact .read rfl rfl rfl rfl rfl (by rw [testing]; exact .pass v d)
        · exact .read rfl rfl rfl rfl rfl (by rw [testing]; exact .won v d)
      · rename_i empty
        cases dekker
        · exact .read rfl rfl rfl rfl rfl (by rw [testing]; exact .failProtected v d empty)
        · exact .read rfl rfl rfl rfl rfl (by rw [testing]; exact .lost _ v d rfl rfl)
    · cases taken
  | mug =>
    simp only [stealStep] at taken
    split at taken
    · rename_i v d failedTest
      split at taken
      · cases taken
        exact .read rfl rfl rfl rfl rfl (by rw [failedTest]; exact .giveUp _ v rfl rfl rfl)
      · rename_i inactive
        split at taken
        · rename_i owner _
          split at taken
          · rename_i asserted
            split at taken <;> cases taken
            rename_i deques moved removed last
            obtain ⟨inSlot, rfl⟩ := dequePoolRemove_spec removed last
            exact .mug v d failedTest inactive owner asserted.1 moved _ rfl inSlot rfl
          · cases taken
        · cases taken
    · cases taken
  | claim =>
    simp only [stealStep] at taken
    split at taken
    · rename_i v d mugged
      split at taken
      · rename_i sf isFrame
        split at taken <;> cases taken
        exact .claim v d mugged sf isFrame rfl
      · cases taken
    · cases taken
  | allocate heap parent =>
    simp only [stealStep] at taken
    split at taken
    · rename_i v d allocating
      split at taken
      · cases taken
        exact .read rfl rfl rfl rfl rfl (by rw [allocating]; exact .allocate v d)
      · split at taken <;> cases taken
        · exact .read rfl rfl rfl rfl rfl (by rw [allocating]; exact .allocate v d)
        · exact .read rfl rfl rfl rfl rfl (by rw [allocating]; exact .allocate v d)
        · exact .read rfl rfl rfl rfl rfl (by rw [allocating]; exact .giveUp _ v rfl rfl rfl)
    · cases taken
  | testTeam =>
    simp only [stealStep] at taken
    split at taken
    · rename_i v d allocated
      split at taken
      · cases taken
        exact .read rfl rfl rfl rfl rfl (by rw [allocated]; exact .giveUp _ v rfl rfl rfl)
      · split at taken <;> cases taken
        · exact .read rfl rfl rfl rfl rfl (by rw [allocated]; exact .giveUp _ v rfl rfl rfl)
        · exact .read rfl rfl rfl rfl rfl (by rw [allocated]; exact .team v d)
    · cases taken
  | incrementE =>
    simp only [stealStep] at taken
    split at taken <;> cases taken
    rename_i v d incrementing
    exact .raise v d incrementing rfl
  | decrementE =>
    simp only [stealStep] at taken
    split at taken <;> cases taken
    rename_i v d decrementing
    exact .lower v d decrementing rfl
  | matchPedigree isMatch =>
    simp only [stealStep] at taken
    split at taken <;> cases taken
    rename_i v d matching
    cases isMatch
    · exact .read rfl rfl rfl rfl rfl (by rw [matching]; exact .lost _ v d rfl rfl)
    · exact .stole rfl
  | unlock =>
    simp only [stealStep] at taken
    split at taken
    · rename_i v done
      split at taken <;> cases taken
      · rename_i locked
        exact .unlock v done locked rfl
      · rename_i locked
        exact .noLock v done locked rfl
    · cases taken
  | giveFiberBack =>
    simp only [stealStep] at taken
    split at taken
    · rename_i unlocked
      split at taken
      · simp only [Option.map_eq_some_iff] at taken
        obtain ⟨pool, -, rfl⟩ := taken
        exact .read rfl rfl rfl rfl rfl (by rw [unlocked]; exact .free)
      · cases taken
        exact .read rfl rfl rfl rfl rfl (by rw [unlocked]; exact .free)
    · cases taken
  | goOn memory pool =>
    simp only [stealStep, Option.ite_none_right_eq_some, Option.some.injEq] at taken
    obtain ⟨⟨-, locks, -, -⟩, rfl⟩ := taken
    exact .goOn rfl locks

/-! ### What is undone -/

/-- Memory after effects. -/
def StealMemory.effects (m : StealMemory ω δ φ ψ β F G) (effects : List (StealEffect ω δ φ ψ β F G)) :
    StealMemory ω δ φ ψ β F G :=
  effects.foldl StealMemory.effect m

theorem StealMemory.effects_concat (m : StealMemory ω δ φ ψ β F G)
    (effects : List (StealEffect ω δ φ ψ β F G)) (effect : StealEffect ω δ φ ψ β F G) :
    m.effects (effects ++ [effect]) = (m.effects effects).effect effect := by
  rw [StealMemory.effects, List.foldl_append]
  rfl

/-- The memory that the effects since the last call make. -/
def StealState.ideal (s : StealState ω δ φ ψ β F G) : StealMemory ω δ φ ψ β F G :=
  s.before.effects s.effects

/-- Memory with the lock that the thief holds and the `exc` that it raised. -/
def StealMemory.disturb (m : StealMemory ω δ φ ψ β F G) (w : ω) (locked : Option ω)
    (raised : Option δ) : StealMemory ω δ φ ψ β F G :=
  { m with
    deques := { m.deques with
      lock := match locked with
        | some v => setAt m.deques.lock v (some w)
        | none => m.deques.lock }
    exc := match raised with
      | some d => setAt m.exc d (addE (m.exc d) 1)
      | none => m.exc }

section Disturb

variable {m : StealMemory ω δ φ ψ β F G} {locked : Option ω} {raised : Option δ}

/-- Stores into a family of places commute with a store of the thief into a place that they leave alone. -/
theorem overlay_setAt {α γ : Type} [DecidableEq α] {stores : α → Option γ} {a : α} (g : α → γ) (c : γ)
    (untouched : stores a = none) : overlay stores (setAt g a c) = setAt (overlay stores g) a c := by
  funext x
  by_cases isPlace : x = a
  · rw [isPlace, overlay, untouched, setAt_self, setAt_self]
    rfl
  · rw [overlay, setAt_other isPlace, setAt_other isPlace, overlay]

omit [DecidableEq φ] in
/-- What the thief has not yet undone commutes with the stores of the others. -/
theorem StealMemory.disturb_store {stores : Stores ω δ φ ψ β F G}
    (keepsLock : ∀ v ∈ locked, stores.lock v = none) (keepsExc : ∀ d ∈ raised, stores.exc d = none) :
    (m.disturb w locked raised).store stores = (m.store stores).disturb w locked raised := by
  have lock : ((m.disturb w locked raised).store stores).deques.lock =
      ((m.store stores).disturb w locked raised).deques.lock := by
    cases locked with
    | none => rfl
    | some v => exact overlay_setAt _ _ (keepsLock v rfl)
  have exc : ((m.disturb w locked raised).store stores).exc =
      ((m.store stores).disturb w locked raised).exc := by
    cases raised with
    | none => rfl
    | some d =>
      have untouched : (m.store stores).exc d = m.exc d := by
        simp [StealMemory.store, overlay, keepsExc d rfl]
      exact (overlay_setAt _ _ (keepsExc d rfl)).trans (by simp only [StealMemory.disturb, untouched]; rfl)
  simp only [StealMemory.store, StealMemory.disturb] at lock exc ⊢
  rw [lock, exc]

omit [DecidableEq φ] in
/-- A lock that the thief did not take is as it was. -/
theorem StealMemory.disturb_lock {v : ω} (other : locked ≠ some v) :
    (m.disturb w locked raised).deques.lock v = m.deques.lock v := by
  cases locked with
  | none => rfl
  | some u => exact setAt_other (fun same => other (congrArg some same.symm)) _ _

end Disturb

/-- The memory is what the effects make, but for the lock of the victim and a raised `exc`. -/
structure Undone (w : ω) (s : StealState ω δ φ ψ β F G) (locked : Option ω) : Prop where
  memory : s.memory = s.ideal.disturb w locked s.pc.raised
  at_pc : s.pc.Locked locked
  free : ∀ v, s.ideal.deques.lock v ≠ some w
  was : ∀ v ∈ locked, s.ideal.deques.lock v = none
  count : s.taken = s.released + locked.toList.length

/-- Inside of `random_steal` all is undone but what the thief holds. -/
structure StealMemoryInv (w : ω) (s : StealState ω δ φ ψ β F G) : Prop where
  idle : s.pc = .idle → ∀ v, s.memory.deques.lock v ≠ some w
  undone : s.pc ≠ .idle → s.pc ≠ .stole → ∃ locked, Undone w s locked

section Undone

variable {locked : Option ω}

/-- The thief has the locks that the memory says. -/
theorem Undone.locked_iff (undone : Undone w s locked) (v : ω) :
    s.memory.deques.lock v = some w ↔ locked = some v := by
  constructor
  · intro isLocked
    by_contra other
    rw [undone.memory, StealMemory.disturb_lock other] at isLocked
    exact undone.free v isLocked
  · rintro rfl
    rw [undone.memory]
    exact setAt_self _ _ _

/-- At `returned` nothing is left to undo. -/
theorem Undone.returned (undone : Undone w s locked) (returned : s.pc = .returned) :
    s.memory = s.ideal ∧ s.taken = s.released := by
  have memory := undone.memory
  have at_pc := undone.at_pc
  have count := undone.count
  rw [returned] at memory at_pc
  obtain rfl : locked = none := at_pc
  exact ⟨memory, count⟩

omit [DecidableEq ω] [DecidableEq δ] in
/-- Where the thief works with a victim it has that lock. -/
theorem StealPc.Locked.of_holds {pc : StealPc ω δ} {v : ω} (at_pc : pc.Locked locked)
    (at_v : pc.holds = some v) : locked = some v := by
  cases pc <;> first | exact Eq.trans at_pc at_v | cases at_v

omit [DecidableEq ω] [DecidableEq δ] [DecidableEq φ] in
/-- A move that stores nothing keeps the lock and a raised `exc`. -/
theorem StealRead.keeps {m : StealMemory ω δ φ ψ β F G} {pc pc' : StealPc ω δ} (move : StealRead m pc pc')
    (at_pc : pc.Locked locked) : pc'.Locked locked ∧ pc'.raised = pc.raised := by
  cases move with
  | victim v => exact ⟨at_pc, rfl⟩
  | noVictim => exact ⟨at_pc, rfl⟩
  | busy v => exact ⟨.inl at_pc, rfl⟩
  | choose v d => exact ⟨at_pc, rfl⟩
  | test v d kind => exact ⟨at_pc, rfl⟩
  | tail v d dekker => exact ⟨at_pc, by cases dekker <;> rfl⟩
  | failTail v d empty => exact ⟨at_pc, rfl⟩
  | failProtected v d empty => exact ⟨at_pc, rfl⟩
  | pass v d => exact ⟨at_pc, rfl⟩
  | allocate v d => exact ⟨at_pc, rfl⟩
  | team v d => exact ⟨at_pc, rfl⟩
  | won v d => exact ⟨at_pc, rfl⟩
  | lost _ v d had at_v => exact ⟨at_pc.of_holds at_v, had.symm⟩
  | giveUp _ v had at_v notMugged => exact ⟨.inr (at_pc.of_holds at_v), had.symm⟩
  | free => exact ⟨at_pc, rfl⟩

/-- Stores of the others that leave alone what the thief protects. -/
theorem Undone.others (undone : Undone w s locked) {stores : Stores ω δ φ ψ β F G}
    (allowed : stores.Allowed w s) :
    Undone w { s with memory := s.memory.store stores, effects := s.effects ++ [.others stores] }
      locked := by
  obtain ⟨notMine, protected_, forDeque⟩ := allowed
  have keepsLock : ∀ v ∈ locked, stores.lock v = none := fun v isLocked =>
    (protected_ v ((undone.locked_iff v).2 isLocked)).1
  have keepsExc : ∀ d ∈ s.pc.raised, stores.exc d = none := fun d raised =>
    (forDeque d (StealPc.deque_of_raised raised)).1
  refine ⟨?_, undone.at_pc, fun v => ?_, fun v isLocked => ?_, undone.count⟩
  · rw [StealState.ideal, StealMemory.effects_concat]
    exact (congrArg (·.store stores) undone.memory).trans (StealMemory.disturb_store keepsLock keepsExc)
  · rw [StealState.ideal, StealMemory.effects_concat]
    have free := undone.free v
    change (stores.lock v).getD _ ≠ some w
    cases isStored : stores.lock v with
    | none => exact free
    | some owner => exact fun same => notMine v (isStored.trans (congrArg some same))
  · rw [StealState.ideal, StealMemory.effects_concat]
    change (stores.lock v).getD _ = none
    rw [keepsLock v isLocked]
    exact undone.was v isLocked

/-- A move that stores nothing. -/
theorem Undone.read (undone : Undone w s locked) (memory : t.memory = s.memory) (before : t.before = s.before)
    (effects : t.effects = s.effects) (taken : t.taken = s.taken) (released : t.released = s.released)
    (move : StealRead s.memory s.pc t.pc) : Undone w t locked := by
  obtain ⟨keepsLock, keepsRaised⟩ := move.keeps undone.at_pc
  have ideal : t.ideal = s.ideal := by
    rw [StealState.ideal, before, effects]
    rfl
  refine ⟨?_, keepsLock, ?_, ?_, ?_⟩
  · rw [memory, keepsRaised, ideal, ← undone.memory]
  · rw [ideal]
    exact undone.free
  · rw [ideal]
    exact undone.was
  · rw [taken, released, undone.count]

/-- The two stores of `deque_mug` touch neither a lock nor an `exc`. -/
theorem Undone.effect (undone : Undone w s locked) {effect : StealEffect ω δ φ ψ β F G} {pc : StealPc ω δ}
    (commutes : ∀ m : StealMemory ω δ φ ψ β F G,
      (m.disturb w locked none).effect effect = (m.effect effect).disturb w locked none)
    (keepsLocks : ∀ m : StealMemory ω δ φ ψ β F G, (m.effect effect).deques.lock = m.deques.lock)
    (notRaised : s.pc.raised = none) (notRaised' : pc.raised = none) (at_pc : pc.Locked locked) :
    Undone w { s with memory := s.memory.effect effect, effects := s.effects ++ [effect], pc := pc }
      locked := by
  have memory := undone.memory
  rw [notRaised] at memory
  refine ⟨?_, at_pc, ?_, ?_, undone.count⟩
  · rw [StealState.ideal, StealMemory.effects_concat, notRaised', memory, commutes]
    rfl
  · rw [StealState.ideal, StealMemory.effects_concat]
    intro v
    change (s.ideal.effect effect).deques.lock v ≠ some w
    rw [keepsLocks]
    exact undone.free v
  · rw [StealState.ideal, StealMemory.effects_concat]
    intro v isLocked
    change (s.ideal.effect effect).deques.lock v = none
    rw [keepsLocks]
    exact undone.was v isLocked

/-- `increment_E` and `decrement_E` cancel. -/
theorem addE_cancel (exc : Option Int) : addE (addE exc 1) (-1) = exc := by
  cases exc with
  | none => rfl
  | some e => exact congrArg some (Int.add_neg_cancel_right e 1)

/-- Storing what was there undoes a store. -/
theorem setAt_undo {α γ : Type} [DecidableEq α] {g : α → γ} {a : α} {b c : γ} (was : g a = c) :
    setAt (setAt g a b) a c = g := by
  funext x
  by_cases isPlace : x = a
  · rw [isPlace, setAt_self, was]
  · rw [setAt_other isPlace, setAt_other isPlace]

end Undone

/-- Each step of the thief and of the others keeps the record of what there is to undo. -/
theorem StealMemoryInv.move (inv : StealMemoryInv w s) (move : StealMove w s t) : StealMemoryInv w t := by
  cases move with
  | others stores allowed isNext =>
    subst isNext
    refine ⟨fun idle v isLocked => ?_, fun inside notStole => ?_⟩
    · have free := inv.idle idle v
      cases isStored : stores.lock v with
      | none =>
        simp only [StealMemory.store, overlay, isStored] at isLocked
        exact free isLocked
      | some owner =>
        simp only [StealMemory.store, overlay, isStored] at isLocked
        exact allowed.1 v (isStored.trans (congrArg some isLocked))
    · obtain ⟨locked, undone⟩ := inv.undone inside notStole
      exact ⟨locked, undone.others allowed⟩
  | call outside memory history pc =>
    obtain ⟨before, effects, taken, released⟩ := history
    have free : ∀ v, s.memory.deques.lock v ≠ some w := by
      rcases outside with idle | returned
      · exact inv.idle idle
      · obtain ⟨locked, undone⟩ := inv.undone (by simp [returned]) (by simp [returned])
        rw [(undone.returned returned).1]
        exact undone.free
    have ideal : t.ideal = s.memory := by
      rw [StealState.ideal, before, effects]
      rfl
    have count : t.taken = t.released + 0 := by rw [taken, released]
    rcases pc with pc | pc
    · refine ⟨by simp [pc], fun _ _ => ⟨none, ?_, ?_, ideal ▸ free, nofun, count⟩⟩
      · rw [memory, ideal, pc]
        rfl
      · rw [pc]
        rfl
    · refine ⟨by simp [pc], fun _ _ => ⟨none, ?_, ?_, ideal ▸ free, nofun, count⟩⟩
      · rw [memory, ideal, pc]
        rfl
      · rw [pc]
        rfl
  | read memory before effects taken released read =>
    obtain ⟨notIdle, notStole, notIdle'⟩ := read.inside
    obtain ⟨locked, undone⟩ := inv.undone notIdle notStole
    exact ⟨fun idle => absurd idle notIdle', fun _ _ =>
      ⟨locked, undone.read memory before effects taken released read⟩⟩
  | lock v locking isFree isNext =>
    subst isNext
    obtain ⟨locked, undone⟩ := inv.undone (by simp [locking]) (by simp [locking])
    have memory := undone.memory
    have at_pc := undone.at_pc
    rw [locking] at memory at_pc
    obtain rfl : locked = none := at_pc
    have same : s.memory = s.ideal := memory
    refine ⟨nofun, fun _ _ => ⟨some v, ?_, rfl, undone.free, fun u isVictim => ?_, ?_⟩⟩
    · rw [same]
      rfl
    · cases isVictim
      exact same ▸ isFree
    · exact congrArg (· + 1) undone.count
  | mug v d failedTest inactive owner _ moved kind _ _ isNext =>
    subst isNext
    obtain ⟨locked, undone⟩ := inv.undone (by simp [failedTest]) (by simp [failedTest])
    have at_pc := undone.at_pc
    rw [failedTest] at at_pc
    exact ⟨nofun, fun _ _ => ⟨locked, undone.effect (fun _ => rfl) (fun _ => rfl) (by rw [failedTest]; rfl) rfl
      at_pc⟩⟩
  | claim v d mugged sf isFrame isNext =>
    subst isNext
    obtain ⟨locked, undone⟩ := inv.undone (by simp [mugged]) (by simp [mugged])
    have at_pc := undone.at_pc
    rw [mugged] at at_pc
    exact ⟨nofun, fun _ _ => ⟨locked, undone.effect (fun _ => rfl) (fun _ => rfl) (by rw [mugged]; rfl) rfl
      (.inr at_pc)⟩⟩
  | raise v d incrementing isNext =>
    subst isNext
    obtain ⟨locked, undone⟩ := inv.undone (by simp [incrementing]) (by simp [incrementing])
    have memory := undone.memory
    have at_pc := undone.at_pc
    rw [incrementing] at memory at_pc
    refine ⟨nofun, fun _ _ => ⟨locked, ?_, at_pc, undone.free, undone.was, undone.count⟩⟩
    rw [memory]
    rfl
  | lower v d decrementing isNext =>
    subst isNext
    obtain ⟨locked, undone⟩ := inv.undone (by simp [decrementing]) (by simp [decrementing])
    have memory := undone.memory
    have at_pc := undone.at_pc
    rw [decrementing] at memory at_pc
    refine ⟨nofun, fun _ _ => ⟨locked, ?_, .inr at_pc, undone.free, undone.was, undone.count⟩⟩
    have exc : setAt (setAt s.ideal.exc d (addE (s.ideal.exc d) 1)) d
        (addE (setAt s.ideal.exc d (addE (s.ideal.exc d) 1) d) (-1)) = s.ideal.exc :=
      setAt_undo (by rw [setAt_self, addE_cancel])
    rw [memory]
    exact congrArg (fun exc => { s.ideal.disturb w locked none with exc := exc }) exc
  | unlock v done isLocked isNext =>
    subst isNext
    obtain ⟨locked, undone⟩ := inv.undone (by simp [done]) (by simp [done])
    obtain rfl := (undone.locked_iff v).1 isLocked
    have memory := undone.memory
    rw [done] at memory
    refine ⟨nofun, fun _ _ => ⟨none, ?_, rfl, undone.free, nofun, undone.count⟩⟩
    have lock : setAt (setAt s.ideal.deques.lock v (some w)) v none = s.ideal.deques.lock :=
      setAt_undo (undone.was v rfl)
    rw [memory]
    exact congrArg (fun lock => { s.ideal with deques := { s.ideal.deques with lock := lock } }) lock
  | noLock v done isLocked isNext =>
    subst isNext
    obtain ⟨locked, undone⟩ := inv.undone (by simp [done]) (by simp [done])
    have memory := undone.memory
    have at_pc := undone.at_pc
    rw [done] at memory at_pc
    obtain rfl := at_pc.resolve_right (mt (undone.locked_iff v).2 isLocked)
    exact ⟨nofun, fun _ _ => ⟨none, memory, rfl, undone.free, nofun, undone.count⟩⟩
  | stole stole => exact ⟨by simp [stole], fun _ notStole => absurd stole notStole⟩
  | goOn idle locks => exact ⟨fun _ => locks, fun inside => absurd idle inside⟩

/-! ### What stays -/

/-- Only the others stored. -/
def Quiet (effects : List (StealEffect ω δ φ ψ β F G)) : Prop :=
  ∀ effect ∈ effects, ∃ stores, effect = .others stores

/-- At some time the deque had nothing to steal. -/
def FoundEmpty (before : StealMemory ω δ φ ψ β F G) (effects : List (StealEffect ω δ φ ψ β F G))
    (d : δ) : Prop :=
  ∃ earlier, earlier <+: effects ∧ let m := before.effects earlier
    ¬(m.head d < m.tail d ∧ m.head d < m.protectedTail d)

/-- After stores of the others the thief removed a deque that had nothing to steal, and was not the active
deque of its owner, from the owner's pool of suspended deques. -/
structure TakenOut (before : StealMemory ω δ φ ψ β F G) (effects : List (StealEffect ω δ φ ψ β F G))
    (owner : ω) (d moved : δ) (first second : List (StealEffect ω δ φ ψ β F G)) : Prop where
  isSplit : effects = first ++ .removed owner .suspended d moved :: second
  quiet : Quiet first ∧ Quiet second
  empty : FoundEmpty before first d
  inactive : (before.effects first).activeDeque owner ≠ some d
  inPool : (((before.effects first).deques.pools owner .suspended).array[
    ((before.effects first).deques.self d).toNat]?) = some (.item d)

/-- A `deque_mug` of an empty suspended deque, among stores of the others: the deque leaves its pool, and
the thief becomes the worker of its frame. -/
def MuggedEmpty (w : ω) (before : StealMemory ω δ φ ψ β F G)
    (effects : List (StealEffect ω δ φ ψ β F G)) : Prop :=
  ∃ owner d moved first second sf third,
    effects = first ++ .removed owner .suspended d moved :: second ++ .claimed sf w :: third ∧
      TakenOut before (first ++ .removed owner .suspended d moved :: second) owner d moved first second ∧
      (before.effects (first ++ .removed owner .suspended d moved :: second)).callStack d = some sf ∧
      Quiet third

/-- What the effects are where the thief is. -/
def EffectsAt (w : ω) (before : StealMemory ω δ φ ψ β F G) (effects : List (StealEffect ω δ φ ψ β F G)) :
    StealPc ω δ → Prop
  | .idle | .stole => True
  | .testTail v d false | .testProtected v d false =>
      Quiet effects ∧ ((before.effects effects).activeDeque v = some d ∨
        (before.effects effects).deques.resumable d = false)
  | .failedTest v d =>
      Quiet effects ∧ ((before.effects effects).activeDeque v = some d ∨
        (before.effects effects).deques.resumable d = false) ∧ FoundEmpty before effects d
  | .mugged v d => ∃ moved first second, TakenOut before effects v d moved first second
  | .done _ | .unlocked | .returned => Quiet effects ∨ MuggedEmpty w before effects
  | _ => Quiet effects

section Effects

variable {before : StealMemory ω δ φ ψ β F G} {effects : List (StealEffect ω δ φ ψ β F G)} {d : δ}

omit [DecidableEq ω] [DecidableEq δ] [DecidableEq φ] in
theorem Quiet.concat (quiet : Quiet effects) (stores : Stores ω δ φ ψ β F G) :
    Quiet (effects ++ [.others stores]) := by
  intro effect member
  rcases List.mem_append.1 member with member | member
  · exact quiet effect member
  · exact ⟨stores, List.mem_singleton.1 member⟩

theorem FoundEmpty.concat (found : FoundEmpty before effects d) (effect : StealEffect ω δ φ ψ β F G) :
    FoundEmpty before (effects ++ [effect]) d := by
  obtain ⟨earlier, isPrefix, empty⟩ := found
  exact ⟨earlier, isPrefix.trans (List.prefix_append _ _), empty⟩

theorem TakenOut.concat {owner : ω} {moved : δ} {first second : List (StealEffect ω δ φ ψ β F G)}
    (takenOut : TakenOut before effects owner d moved first second) (stores : Stores ω δ φ ψ β F G) :
    TakenOut before (effects ++ [.others stores]) owner d moved first (second ++ [.others stores]) where
  isSplit := by simp [takenOut.isSplit]
  quiet := ⟨takenOut.quiet.1, takenOut.quiet.2.concat stores⟩
  empty := takenOut.empty
  inactive := takenOut.inactive
  inPool := takenOut.inPool

theorem MuggedEmpty.concat (mugged : MuggedEmpty w before effects) (stores : Stores ω δ φ ψ β F G) :
    MuggedEmpty w before (effects ++ [.others stores]) := by
  obtain ⟨owner, d, moved, first, second, sf, third, rfl, takenOut, isFrame, quiet⟩ := mugged
  exact ⟨owner, d, moved, first, second, sf, third ++ [.others stores], by simp, takenOut, isFrame,
    quiet.concat stores⟩

/-- What the thief knows of its deque while it tests it stays: it has the lock of the victim. -/
theorem Undone.kind {locked : Option ω} (undone : Undone w s locked) {stores : Stores ω δ φ ψ β F G}
    (allowed : stores.Allowed w s) {v : ω} (at_v : s.pc.holds = some v) (at_d : s.pc.deque = some d)
    (kind : s.ideal.activeDeque v = some d ∨ s.ideal.deques.resumable d = false) :
    (s.ideal.store stores).activeDeque v = some d ∨ (s.ideal.store stores).deques.resumable d = false := by
  have keepsActive : stores.activeDeque v = none :=
    (allowed.2.1 v ((undone.locked_iff v).2 (undone.at_pc.of_holds at_v))).2
  have active : (s.ideal.store stores).activeDeque v = s.ideal.activeDeque v := by
    simp only [StealMemory.store, overlay, keepsActive, Option.getD_none]
  by_cases isActive : s.ideal.activeDeque v = some d
  · exact .inl (active.trans isActive)
  · have keepsResumable : stores.resumable d = none := by
      refine (allowed.2.2 d at_d).2 fun u at_u => ?_
      obtain rfl := Option.some.inj (at_v.symm.trans at_u)
      rw [undone.memory]
      exact isActive
    refine .inr ?_
    simp only [StealMemory.store, overlay, keepsResumable, Option.getD_none]
    exact kind.resolve_left isActive

/-- Stores of the others leave the record as it is. -/
theorem EffectsAt.others {locked : Option ω} (undone : Undone w s locked) {stores : Stores ω δ φ ψ β F G}
    (allowed : stores.Allowed w s) (at_pc : EffectsAt w s.before s.effects s.pc) :
    EffectsAt w s.before (s.effects ++ [.others stores]) s.pc := by
  have kind : ∀ {v d}, s.pc.holds = some v → s.pc.deque = some d →
      (s.ideal.activeDeque v = some d ∨ s.ideal.deques.resumable d = false) →
      ((s.before.effects (s.effects ++ [.others stores])).activeDeque v = some d ∨
        (s.before.effects (s.effects ++ [.others stores])).deques.resumable d = false) := by
    intro v d at_v at_d kind
    rw [StealMemory.effects_concat]
    exact undone.kind allowed at_v at_d kind
  cases isPc : s.pc with
  | testTail v d dekker =>
    rw [isPc] at at_pc kind
    cases dekker with
    | false => exact ⟨at_pc.1.concat stores, kind rfl rfl at_pc.2⟩
    | true => exact at_pc.concat stores
  | testProtected v d dekker =>
    rw [isPc] at at_pc kind
    cases dekker with
    | false => exact ⟨at_pc.1.concat stores, kind rfl rfl at_pc.2⟩
    | true => exact at_pc.concat stores
  | failedTest v d =>
    rw [isPc] at at_pc kind
    exact ⟨at_pc.1.concat stores, kind rfl rfl at_pc.2.1, at_pc.2.2.concat _⟩
  | mugged v d =>
    rw [isPc] at at_pc
    obtain ⟨moved, first, second, takenOut⟩ := at_pc
    exact ⟨moved, first, _, takenOut.concat stores⟩
  | done v | unlocked | returned =>
    rw [isPc] at at_pc
    exact at_pc.imp (·.concat stores) (·.concat stores)
  | idle | stole => trivial
  | _ =>
    rw [isPc] at at_pc
    exact Quiet.concat at_pc stores

/-- A move that stores nothing. -/
theorem EffectsAt.read {m : StealMemory ω δ φ ψ β F G} {pc pc' : StealPc ω δ} (move : StealRead m pc pc')
    (deques : m.deques.resumable = (before.effects effects).deques.resumable)
    (active : m.activeDeque = (before.effects effects).activeDeque)
    (head : m.head = (before.effects effects).head) (tail : m.tail = (before.effects effects).tail)
    (protectedTail : m.protectedTail = (before.effects effects).protectedTail)
    (at_pc : EffectsAt w before effects pc) : EffectsAt w before effects pc' := by
  cases move with
  | victim v => exact at_pc
  | noVictim => exact .inl at_pc
  | busy v => exact .inl at_pc
  | choose v d => exact at_pc
  | test v d kind => exact ⟨at_pc, by rwa [← deques, ← active]⟩
  | tail v d dekker => cases dekker <;> exact at_pc
  | failTail v d empty =>
    refine ⟨at_pc.1, at_pc.2, effects, List.prefix_rfl, fun both => empty ?_⟩
    rw [head, tail]
    exact both.1
  | failProtected v d empty =>
    refine ⟨at_pc.1, at_pc.2, effects, List.prefix_rfl, fun both => empty ?_⟩
    rw [head, protectedTail]
    exact both.2
  | pass v d => exact at_pc.1
  | allocate v d => exact at_pc
  | team v d => exact at_pc
  | won v d => exact at_pc
  | lost _ v d had at_v =>
    unfold StealPc.raised at had
    split at had <;> cases had <;> exact at_pc
  | giveUp _ v had at_v notMugged =>
    cases pc with
    | testTail u d dekker => cases dekker <;> cases had; exact .inl at_pc.1
    | testProtected u d dekker => cases dekker <;> cases had; exact .inl at_pc.1
    | failedTest u d => exact .inl at_pc.1
    | mugged u d => cases notMugged
    | choosing u | chosen u d | allocating u d | allocated u d | incrementing u d => exact .inl at_pc
    | matching u d | decrementing u d => cases had
    | _ => cases at_v
  | free => exact at_pc

/-- Each step keeps the record of the effects. -/
theorem EffectsAt.move (inv : StealMemoryInv w s) (at_pc : EffectsAt w s.before s.effects s.pc)
    (move : StealMove w s t) : EffectsAt w t.before t.effects t.pc := by
  cases move with
  | others stores allowed isNext =>
    subst isNext
    by_cases inside : s.pc ≠ .idle ∧ s.pc ≠ .stole
    · obtain ⟨locked, undone⟩ := inv.undone inside.1 inside.2
      exact at_pc.others undone allowed
    · rcases not_and_or.1 inside with idle | stole
      · rw [not_not.1 idle]
        trivial
      · rw [not_not.1 stole]
        trivial
  | call outside memory history pc =>
    obtain ⟨-, effects, -⟩ := history
    have quiet : Quiet t.effects := by
      rw [effects]
      nofun
    rcases pc with pc | pc <;> rw [pc]
    · exact quiet
    · exact .inl quiet
  | read memory before effects taken released read =>
    obtain ⟨notIdle, notStole, -⟩ := read.inside
    obtain ⟨locked, undone⟩ := inv.undone notIdle notStole
    have ideal : s.memory = (s.before.effects s.effects).disturb w locked s.pc.raised := undone.memory
    rw [before, effects]
    refine at_pc.read read ?_ ?_ ?_ ?_ ?_ <;> rw [ideal] <;> rfl
  | lock v locking isFree isNext =>
    subst isNext
    rw [locking] at at_pc
    exact at_pc
  | mug v d failedTest inactive owner isLocked moved kind isKind inSlot isNext =>
    subst isNext
    obtain ⟨locked, undone⟩ := inv.undone (by simp [failedTest]) (by simp [failedTest])
    have ideal : s.memory = (s.before.effects s.effects).disturb w locked s.pc.raised := undone.memory
    rw [failedTest] at at_pc
    obtain ⟨quiet, known, empty⟩ := at_pc
    -- the owner is the victim, whose lock is the one that the thief has
    have isVictim : locked = some v := undone.at_pc.of_holds (by rw [failedTest]; rfl)
    obtain rfl := Option.some.inj (((undone.locked_iff owner).1 isLocked).symm.trans isVictim)
    rw [ideal] at inactive
    have notResumable : s.memory.deques.resumable d = false := by
      rw [ideal]
      exact known.resolve_left inactive
    have isSuspended : kind = .suspended := by rw [isKind, notResumable]; rfl
    subst isSuspended
    rw [ideal] at inSlot
    exact ⟨moved, s.effects, [], rfl, ⟨quiet, nofun⟩, empty, inactive, inSlot⟩
  | claim v d mugged sf isFrame isNext =>
    subst isNext
    obtain ⟨locked, undone⟩ := inv.undone (by simp [mugged]) (by simp [mugged])
    have ideal : s.memory = (s.before.effects s.effects).disturb w locked s.pc.raised := undone.memory
    rw [mugged] at at_pc
    obtain ⟨moved, first, second, takenOut⟩ := at_pc
    have isSplit := takenOut.isSplit
    refine .inr ⟨v, d, moved, first, second, sf, [], by rw [isSplit], isSplit ▸ takenOut, ?_, nofun⟩
    rw [← isSplit]
    rw [ideal] at isFrame
    exact isFrame
  | raise v d incrementing isNext =>
    subst isNext
    rw [incrementing] at at_pc
    exact at_pc
  | lower v d decrementing isNext =>
    subst isNext
    rw [decrementing] at at_pc
    exact .inl at_pc
  | unlock v done locked isNext =>
    subst isNext
    rw [done] at at_pc
    exact at_pc
  | noLock v done locked isNext =>
    subst isNext
    rw [done] at at_pc
    exact at_pc
  | stole stole =>
    rw [stole]
    trivial
  | goOn idle locks =>
    rw [idle]
    trivial

/-- The stores of the others. -/
def StealEffect.isOthers : StealEffect ω δ φ ψ β F G → Bool
  | .others _ => true
  | _ => false

/-- The memories agree in all that a `deque_mug` does not store into. -/
def AgreeButMug (m m' : StealMemory ω δ φ ψ β F G) : Prop :=
  ∃ pools self worker history frameWorker,
    m = { m' with
      deques := { m'.deques with pools := pools, self := self, worker := worker, history := history }
      frameWorker := frameWorker }

/-- Up to what a `deque_mug` stores, the effects are those of the others. -/
theorem StealMemory.effects_agree {m m' : StealMemory ω δ φ ψ β F G} (agree : AgreeButMug m m')
    (effects : List (StealEffect ω δ φ ψ β F G)) :
    AgreeButMug (m.effects effects) (m'.effects (effects.filter StealEffect.isOthers)) := by
  induction effects generalizing m m' with
  | nil => exact agree
  | cons effect effects ih =>
    obtain ⟨pools, self, worker, history, frameWorker, rfl⟩ := agree
    cases effect with
    | others stores => exact ih ⟨_, _, _, _, _, rfl⟩
    | removed owner kind d moved => exact ih ⟨_, _, _, _, _, rfl⟩
    | claimed sf w => exact ih ⟨_, _, _, _, _, rfl⟩

end Effects

/-! ### A failed attempt -/

variable [DecidableEq β]

/-- What a `random_steal` without work leaves behind. -/
structure FailedSteal (w : ω) (s : StealState ω δ φ ψ β F G) : Prop where
  memory : s.memory = s.before.effects s.effects
  effects : Quiet s.effects ∨ MuggedEmpty w s.before s.effects
  /-- What a `deque_mug` does not store into is as the others left it. -/
  rest : AgreeButMug s.memory (s.before.effects (s.effects.filter StealEffect.isOthers))
  lock : s.taken = s.released ∧ ∀ v, s.memory.deques.lock v ≠ some w
  fiber : ∀ fiber, s.fiber = some fiber → s.pool.fibers.count fiber = 1

/-- What holds between any two steps. -/
structure StealInv (w : ω) (s : StealState ω δ φ ψ β F G) : Prop where
  fiber : StealFiberInv s
  memory : StealMemoryInv w s
  effects : EffectsAt w s.before s.effects s.pc

omit [DecidableEq β] in
theorem StealInv.initial (isInitial : s.Initial w) : StealInv w s := by
  obtain ⟨idle, locks, nodup, size⟩ := isInitial
  refine ⟨⟨nodup, size, ?_, ?_, ?_⟩, ⟨fun _ => locks, fun inside => absurd idle inside⟩, ?_⟩ <;> rw [idle]
  · nofun
  · nofun
  · nofun
  · trivial

theorem StealInv.step [Fintype ω] (inv : StealInv w s) {label : StealLabel ω δ φ ψ β F G}
    (taken : stealStep w isUser s label = some t) : StealInv w t where
  fiber := inv.fiber.step taken
  memory := inv.memory.move (stealMove_of_step taken)
  effects := inv.effects.move inv.memory (stealMove_of_step taken)

/-- At `returned` the attempt has failed and is undone. -/
theorem StealInv.failed (inv : StealInv w s) (returned : s.pc = .returned) : FailedSteal w s := by
  obtain ⟨locked, undone⟩ := inv.memory.undone (by simp [returned]) (by simp [returned])
  obtain ⟨memory, count⟩ := undone.returned returned
  have effects := inv.effects
  rw [returned] at effects
  refine ⟨memory, effects, ?_, ⟨count, memory ▸ undone.free⟩, fun fiber isFiber => ?_⟩
  · rw [memory]
    exact StealMemory.effects_agree ⟨_, _, _, _, _, rfl⟩ s.effects
  · exact List.count_eq_one_of_mem inv.fiber.nodup (inv.fiber.back returned fiber isFiber)

/-- A `random_steal` that returns without work has changed nothing but that it may have mugged an empty
suspended deque, for any victim, any exit and any stores of the others meanwhile; and `choose_deque` returns
the active deque of the victim or a deque in a slot in use of one of its pools. -/
theorem failed_random_steal_undone [Fintype ω] (w : ω) (isUser : Bool) :
    (∀ s, (stealMachine δ φ ψ β F G w isUser).Reachable s → s.pc = .returned → FailedSteal w s) ∧
      ∀ (ltqsize : Nat) (deques : DequePoolsState ω δ), 0 < ltqsize →
        (poolArrayMachine ω δ ltqsize).GuardedRun CallersKeep deques →
        ∀ (victim : ω) (rand : Nat), deques.lock victim = some w →
          deques.chooseDeque w victim rand = some .active ∨
            ∃ d kind i, deques.chooseDeque w victim rand = some (.pooled d) ∧
              i < (deques.pools victim kind).size ∧ (deques.pools victim kind).array[i]? = some (.item d) := by
  constructor
  · intro s reachable returned
    have inv : StealInv w s := by
      refine @Machine.Reachable.invariant _ _ _ (StealInv w) ?_ ?_ _ reachable
      · exact fun s isInitial => StealInv.initial isInitial
      · exact fun s label t _ inv taken => inv.step taken
    exact inv.failed returned
  · intro ltqsize deques slots run victim rand locked
    rcases chooseDeque_mem slots run locked rand with active | ⟨d, kind, pooled, -, i, inside, at_i⟩
    · exact .inl active
    · exact .inr ⟨d, kind, i, pooled, inside, at_i⟩

/-- Two workers without deques in their pools. -/
def noSuspended : DequePoolsState (Fin 2) (Fin 3) where
  pools := fun _ _ => ⟨[.null], 0, 1⟩
  self := fun _ => activeDequeIndex
  worker := fun _ => none
  resumable := fun _ => false
  lock := fun _ => none
  history := fun _ => .outside

theorem noSuspended_start : (poolArrayMachine (Fin 2) (Fin 3) 1).start noSuspended :=
  ⟨fun _ _ => rfl, fun _ => rfl, fun _ => rfl⟩

/-- Worker 0 suspends the deque 1. -/
def suspendOne : List (PoolArrayLabel (Fin 2) (Fin 3)) :=
  [.lock 0 0, .add 0 0 .suspended 1, .unlock 0]

/-- Worker 0 works on the deque 0, where a frame may be stolen, and has suspended the empty deque 1. The
thief is worker 1; its deque is 2. -/
def oneSuspended : StealMemory (Fin 2) (Fin 3) (Fin 3) (Fin 3) Unit Unit Unit where
  deques := (poolArrayMachine (Fin 2) (Fin 3) 1).after noSuspended suspendOne
  activeDeque := fun w => some (if w = 0 then 0 else 2)
  head := fun _ => 0
  tail := fun d => if d = 0 then 1 else 0
  protectedTail := fun _ => 5
  exc := fun _ => some 0
  frameFf := some
  callStack := some
  fiber := fun _ => some ()
  team := fun _ => some 0
  frameWorker := fun _ => some 0
  frame := fun _ => ()
  joinCounter := fun _ => 0
  full := fun _ => ()
  activeWorkers := 2

/-- The thief before it tries to steal. -/
def beforeSteal : StealState (Fin 2) (Fin 3) (Fin 3) (Fin 3) Unit Unit Unit where
  memory := oneSuspended
  pc := .idle
  pool := ⟨[], 4, 0, 0, 0⟩
  fiber := none
  before := oneSuspended
  effects := []
  taken := 0
  released := 0

theorem beforeSteal_start : beforeSteal.Initial 1 :=
  ⟨rfl, by decide, List.nodup_nil, Nat.zero_le _⟩

/-- A steal from the active deque that fails at the match of the pedigrees. -/
def mismatch : List (StealLabel (Fin 2) (Fin 3) (Fin 3) (Fin 3) Unit Unit Unit) :=
  [.call false, .pickVictim (some 0), .tryLock, .chooseDeque 0, .testResumable, .testTail, .testProtected,
    .allocate (some ()) none, .testTeam, .incrementE, .testTail, .testProtected, .matchPedigree false,
    .decrementE, .unlock, .giveFiberBack]

/-- A steal that finds the suspended deque empty. -/
def mugEmpty : List (StealLabel (Fin 2) (Fin 3) (Fin 3) (Fin 3) Unit Unit Unit) :=
  [.call false, .pickVictim (some 0), .tryLock, .chooseDeque 1, .testResumable, .testTail, .mug, .claim,
    .unlock, .giveFiberBack]

/-- The machine of the thief in these runs. -/
abbrev oneThief := stealMachine (Fin 3) (Fin 3) (Fin 3) Unit Unit Unit (1 : Fin 2) false

theorem failed_random_steal_undone_mismatch :
    FailedSteal 1 (oneThief.after beforeSteal mismatch) ∧
      (oneThief.after beforeSteal mismatch).pool.fibers.count () = 1 ∧
      (((poolArrayMachine (Fin 2) (Fin 3) 1).after noSuspended (suspendOne ++ [.lock 1 0])).chooseDeque 1 0 1 =
          some .active ∨
        ∃ d kind i, ((poolArrayMachine (Fin 2) (Fin 3) 1).after noSuspended
            (suspendOne ++ [.lock 1 0])).chooseDeque 1 0 1 = some (.pooled d) ∧
          i < (((poolArrayMachine (Fin 2) (Fin 3) 1).after noSuspended (suspendOne ++ [.lock 1 0])).pools 0
            kind).size ∧
          (((poolArrayMachine (Fin 2) (Fin 3) 1).after noSuspended (suspendOne ++ [.lock 1 0])).pools 0
            kind).array[i]? = some (.item d)) :=
  ⟨(failed_random_steal_undone 1 false).1 _ (.after (.start beforeSteal_start) mismatch) (by decide), by decide,
    (@failed_random_steal_undone _ _ (Fin 3) (Fin 3) Unit Unit Unit _ _ _ _ _ 1 false).2 1 _ (by decide)
      (.after (.start noSuspended_start) (suspendOne ++ [.lock 1 0]) (by decide)) 0 1 (by decide)⟩

/-- A mugged deque is not all that a failed attempt leaves: the frame of that deque has another worker. -/
theorem failed_random_steal_claims_frame :
    ¬∀ s, oneThief.Reachable s → s.pc = .returned → s.effects.filter StealEffect.isOthers = [] →
      s.memory.frameWorker = s.before.frameWorker := by
  intro unchanged
  have same := unchanged _ (.after (.start beforeSteal_start) mugEmpty) (by decide) (by decide)
  exact absurd (congrFun same 1) (by decide)

end CilkL
