/-
Module: CilkL.Proofs.FiberPool
Layer: Proofs
Purpose: The pools of fibers neither lose nor duplicate a fiber, as long as none is given back to a pool
  without slots. One equation carries it: the fibers in the slots of all pools, those in use and those in
  the hands of the workers are together the fibers that the heap gave out, each once. A pass that puts a
  fiber back finds room, as `max_size - 1` slots are kept; for a pool without slots the bound wraps and the
  assertion fails. The loops end by a rank that the steps of the other workers do not raise.
Imports: CilkL.Library.MemoryLists, CilkL.Runtime.FiberPool, Mathlib
Trusted boundary: none
Main exports: FiberPoolState.fibers, FiberPoolInv, loopRank, FibersKept, fiber_pools_keep_fibers
Open obligations: none
-/
import CilkL.Library.MemoryLists
import CilkL.Runtime.FiberPool
import Mathlib

namespace CilkL

variable {φ : Type}

/-! ### The loops over a pool -/

namespace FiberPool

/-- The loop takes slots and leaves the others. -/
theorem grabFibers_append (numToKeep : UInt32) (room : Nat) (fibers : List φ) :
    (grabFibers numToKeep room fibers).1 ++ (grabFibers numToKeep room fibers).2 = fibers := by
  induction room generalizing fibers with
  | zero => rfl
  | succ room ih =>
    cases fibers with
    | nil => rfl
    | cons fiber fibers =>
      rw [grabFibers]
      split
      · rw [List.cons_append, ih]
      · rfl

theorem grabFibers_length (numToKeep : UInt32) (room : Nat) (fibers : List φ) :
    (grabFibers numToKeep room fibers).1.length ≤ room := by
  induction room generalizing fibers with
  | zero => exact Nat.le_refl _
  | succ room ih =>
    cases fibers with
    | nil => exact Nat.zero_le _
    | cons fiber fibers =>
      rw [grabFibers]
      split
      · exact Nat.succ_le_succ (ih fibers)
      · exact Nat.zero_le _

/-- The loop ends when enough slots are free, or when it has taken all that it may. -/
theorem grabFibers_full {numToKeep : UInt32} {room : Nat} {fibers : List φ}
    (above : numToKeep.toNat < (grabFibers numToKeep room fibers).2.length) :
    (grabFibers numToKeep room fibers).1.length = room := by
  induction room generalizing fibers with
  | zero => rfl
  | succ room ih =>
    cases fibers with
    | nil => exact absurd above (Nat.not_lt_zero _)
    | cons fiber fibers =>
      rw [grabFibers] at above ⊢
      split
      · rename_i more
        rw [if_pos more] at above
        exact congrArg Nat.succ (ih above)
      · rename_i few
        rw [if_neg few] at above
        exact absurd above few

/-- What one pass does: it takes at most ten fibers; the last pass leaves at most the slots that are kept,
and puts the fiber back. -/
theorem freePass_spec {pool pool' : FiberPool φ} {numToKeep : UInt32} {fiberToReturn : Option φ}
    {fibersToFree : List φ} {last : Bool}
    (passed : pool.freePass numToKeep fiberToReturn = some (pool', fibersToFree, last)) :
    ∃ kept, pool.fibers = fibersToFree ++ kept ∧ fibersToFree.length ≤ 10 ∧ pool'.maxSize = pool.maxSize ∧
      pool'.allocMax = pool.allocMax ∧
      (last = true → kept.length ≤ numToKeep.toNat ∧ pool'.fibers = fiberToReturn.toList ++ kept ∧
        (fiberToReturn ≠ none → pool'.size ≤ pool.maxSize.toNat)) ∧
      (last = false → numToKeep.toNat < kept.length ∧ fibersToFree.length = 10 ∧ pool'.fibers = kept) := by
  have split := grabFibers_append numToKeep 10 pool.fibers
  have few := grabFibers_length numToKeep 10 pool.fibers
  refine ⟨(grabFibers numToKeep 10 pool.fibers).2, ?_⟩
  simp only [freePass] at passed
  split at passed
  · rename_i enough
    have enough : (grabFibers numToKeep 10 pool.fibers).2.length ≤ numToKeep.toNat := enough
    cases fiberToReturn with
    | some fiber =>
      simp only [Option.ite_none_right_eq_some, Option.some.injEq, Prod.mk.injEq] at passed
      obtain ⟨room, rfl, rfl, rfl⟩ := passed
      exact ⟨split.symm, few, rfl, rfl, fun _ => ⟨enough, rfl, fun _ => room⟩, nofun⟩
    | none =>
      simp only [Option.some.injEq, Prod.mk.injEq] at passed
      obtain ⟨rfl, rfl, rfl⟩ := passed
      exact ⟨split.symm, few, rfl, rfl, fun _ => ⟨enough, rfl, nofun⟩, nofun⟩
  · rename_i more
    have more : numToKeep.toNat < (grabFibers numToKeep 10 pool.fibers).2.length := Nat.not_le.1 more
    simp only [Option.some.injEq, Prod.mk.injEq] at passed
    obtain ⟨rfl, rfl, rfl⟩ := passed
    exact ⟨split.symm, few, rfl, rfl, nofun, fun _ => ⟨more, grabFibers_full more, rfl⟩⟩

/-- A pass fails only where it puts a fiber back and keeps all slots. -/
theorem freePass_isSome {pool : FiberPool φ} {numToKeep : UInt32} {fiberToReturn : Option φ}
    (room : fiberToReturn ≠ none → numToKeep.toNat < pool.maxSize.toNat) :
    ∃ passed, pool.freePass numToKeep fiberToReturn = some passed := by
  simp only [freePass]
  split
  · rename_i enough
    cases fiberToReturn with
    | some fiber => exact ⟨_, if_pos (Nat.lt_of_le_of_lt enough (room nofun))⟩
    | none => exact ⟨_, rfl⟩
  · exact ⟨_, rfl⟩

/-- All slots but one are kept. -/
theorem toNat_sub_one {n : UInt32} (nonzero : n ≠ 0) : (n - 1).toNat + 1 = n.toNat := by
  have positive : 1 ≤ n.toNat := Nat.one_le_iff_ne_zero.2 fun zero =>
    nonzero (UInt32.toNat_inj.1 zero)
  have le : (1 : UInt32) ≤ n := UInt32.le_iff_toNat_le.2 positive
  rw [UInt32.toNat_sub_of_le _ _ le]
  exact Nat.sub_add_cancel positive

/-- A fiber that is given back to a pool is in it once, if it was not in it before, and the pool gets no
other fiber. -/
theorem deallocateSelf_spec {pool pool' : FiberPool φ} {fiber : φ} (nodup : pool.fibers.Nodup)
    (size : pool.size ≤ pool.maxSize.toNat) (out : fiber ∉ pool.fibers)
    (given : pool.deallocateSelf fiber = some pool') :
    pool'.fibers.Nodup ∧ pool'.size ≤ pool'.maxSize.toNat ∧ fiber ∈ pool'.fibers ∧
      ∀ other ∈ pool'.fibers, other = fiber ∨ other ∈ pool.fibers := by
  rw [deallocateSelf] at given
  split at given
  · rename_i room
    cases given
    exact ⟨List.nodup_cons.2 ⟨out, nodup⟩, room, List.mem_cons_self, fun _ => List.mem_cons.1⟩
  · rename_i full
    rw [freeFibersFromPool] at given
    split at given
    · rename_i freed fibersToFree passed
      cases given
      obtain ⟨kept, isSplit, -, maxSize, -, atLast, -⟩ := freePass_spec passed
      obtain ⟨-, slots, bound⟩ := atLast rfl
      have isKept : ∀ {other}, other ∈ kept → other ∈ pool.fibers := fun member =>
        isSplit ▸ List.mem_append_right _ member
      rw [isSplit, List.nodup_append] at nodup
      refine ⟨?_, ?_, ?_, ?_⟩
      · rw [slots]
        exact List.nodup_cons.2 ⟨fun member => out (isKept member), nodup.2.1⟩
      · rw [maxSize]
        exact bound nofun
      · rw [slots]
        exact List.mem_cons_self
      · rw [slots]
        exact fun other member => (List.mem_cons.1 member).imp_right isKept
    · rename_i freed fibersToFree passed
      -- the pool is not so full that more than one pass is needed
      obtain ⟨kept, isSplit, -, -, -, -, before⟩ := freePass_spec passed
      obtain ⟨more, ten, -⟩ := before rfl
      have length : pool.size = fibersToFree.length + kept.length := by
        rw [FiberPool.size, isSplit, List.length_append]
      by_cases zero : pool.maxSize = 0
      · rw [zero] at size
        have empty : pool.size ≤ 0 := size
        omega
      · have keep := toNat_sub_one zero
        omega
    · cases given

/-- The fibers move from one pool to the other, which does not get more than it may hold. -/
theorem moveFibers_spec (parentMax numToKeep : UInt32) (fibers parent : List φ) :
    ∃ moved, fibers = moved ++ (moveFibers parentMax numToKeep fibers parent).1 ∧
      (moveFibers parentMax numToKeep fibers parent).2 = moved.reverse ++ parent ∧
      (parent.length ≤ parentMax.toNat → moved.length + parent.length ≤ parentMax.toNat) := by
  induction fibers generalizing parent with
  | nil => exact ⟨[], rfl, rfl, fun bound => by simpa using bound⟩
  | cons fiber fibers ih =>
    rw [moveFibers]
    split
    · rename_i more
      obtain ⟨moved, left, right, bound⟩ := ih (fiber :: parent)
      refine ⟨fiber :: moved, by rw [List.cons_append, ← left], by rw [right]; simp, fun _ => ?_⟩
      have := bound more.1
      simp only [List.length_cons] at this ⊢
      omega
    · exact ⟨[], rfl, rfl, fun bound => by simpa using bound⟩

theorem moveFibersToParentPool_spec (pool parentPool : FiberPool φ) (numToKeep : UInt32) :
    ∃ moved, pool.fibers = moved ++ (pool.moveFibersToParentPool parentPool numToKeep).1.fibers ∧
      (pool.moveFibersToParentPool parentPool numToKeep).2.fibers = moved.reverse ++ parentPool.fibers ∧
      (parentPool.size ≤ parentPool.maxSize.toNat →
        (pool.moveFibersToParentPool parentPool numToKeep).2.size ≤ parentPool.maxSize.toNat) ∧
      (pool.moveFibersToParentPool parentPool numToKeep).1.maxSize = pool.maxSize ∧
      (pool.moveFibersToParentPool parentPool numToKeep).2.maxSize = parentPool.maxSize ∧
      (pool.moveFibersToParentPool parentPool numToKeep).2.allocMax = parentPool.allocMax := by
  obtain ⟨moved, left, right, bound⟩ :=
    moveFibers_spec parentPool.maxSize numToKeep pool.fibers parentPool.fibers
  have size : parentPool.size ≤ parentPool.maxSize.toNat →
      (moveFibers parentPool.maxSize numToKeep pool.fibers parentPool.fibers).2.length ≤
        parentPool.maxSize.toNat := by
    intro few
    rw [right, List.length_append, List.length_reverse]
    exact bound few
  refine ⟨moved, ?_⟩
  simp only [moveFibersToParentPool]
  split <;> exact ⟨left, right, size, rfl, rfl, rfl⟩

end FiberPool

/-! ### Where the fibers are -/

variable {ω : Type}

/-- The fibers in the slots of a pool. -/
def slotsOf : Option (FiberPool φ) → Multiset φ
  | some pool => pool.fibers
  | none => 0

namespace FiberPc

/-- The fibers that a worker is about to put back or to free. -/
def fibers : FiberPc ω φ → Multiset φ
  | .freeing _ _ fiberToReturn _ => fiberToReturn.toList
  | .releasing _ _ fiberToReturn _ fibersToFree _ => fiberToReturn.toList + fibersToFree
  | _ => 0

/-- The worker is in the loop of `cilk_fiber_pool_free_fibers_from_pool`. -/
def inLoop : FiberPc ω φ → Bool
  | .freeing _ _ _ _ | .releasing _ _ _ _ _ _ => true
  | _ => false

/-- The worker destroys the global pool. -/
def destroysRoot : FiberPc ω φ → Bool
  | .freeing none _ _ destroys | .releasing none _ _ destroys _ _ => destroys
  | _ => false

end FiberPc

variable [Fintype ω] [DecidableEq ω] [DecidableEq φ]

/-- The fibers in the slots of all pools, those in use and those in the hands of the workers. -/
def FiberPoolState.fibers (s : FiberPoolState ω φ) : Multiset φ :=
  (∑ key, slotsOf (s.pools key)) + (s.inUse : Multiset φ) + ∑ a, (s.pc a).fibers

variable {s t : FiberPoolState ω φ}

omit [DecidableEq φ] in
/-- Where one pool and one worker change, the balance is decided by them. -/
theorem fibers_balance {key : PoolKey ω} {pool : Option (FiberPool φ)} {a : ω} {pc : FiberPc ω φ}
    (pools : t.pools = Function.update s.pools key pool) (pcs : t.pc = Function.update s.pc a pc)
    (balance : s.fibers = (s.live : Multiset φ))
    (moved : slotsOf pool + (t.inUse : Multiset φ) + pc.fibers + (s.live : Multiset φ) =
      slotsOf (s.pools key) + (s.inUse : Multiset φ) + (s.pc a).fibers + (t.live : Multiset φ)) :
    t.fibers = (t.live : Multiset φ) := by
  have slots := sum_update (fun _ => slotsOf) s.pools key pool
  have hands := sum_update (fun _ => FiberPc.fibers) s.pc a pc
  rw [← pools] at slots
  rw [← pcs] at hands
  have rest : t.fibers + slotsOf (s.pools key) + (s.pc a).fibers + (s.inUse : Multiset φ) =
      s.fibers + slotsOf pool + pc.fibers + (t.inUse : Multiset φ) := by
    calc t.fibers + slotsOf (s.pools key) + (s.pc a).fibers + (s.inUse : Multiset φ)
        = ((∑ key, slotsOf (t.pools key)) + slotsOf (s.pools key)) +
            ((∑ a, (t.pc a).fibers) + (s.pc a).fibers) + (t.inUse : Multiset φ) +
              (s.inUse : Multiset φ) := by rw [FiberPoolState.fibers]; abel
      _ = (slotsOf pool + ∑ key, slotsOf (s.pools key)) + (pc.fibers + ∑ a, (s.pc a).fibers) +
            (t.inUse : Multiset φ) + (s.inUse : Multiset φ) := by rw [slots, hands]
      _ = s.fibers + slotsOf pool + pc.fibers + (t.inUse : Multiset φ) := by
          rw [FiberPoolState.fibers]; abel
  rw [balance] at rest
  have all : t.fibers + (slotsOf (s.pools key) + (s.inUse : Multiset φ) + (s.pc a).fibers) =
      (t.live : Multiset φ) + (slotsOf (s.pools key) + (s.inUse : Multiset φ) + (s.pc a).fibers) := by
    calc t.fibers + (slotsOf (s.pools key) + (s.inUse : Multiset φ) + (s.pc a).fibers)
        = t.fibers + slotsOf (s.pools key) + (s.pc a).fibers + (s.inUse : Multiset φ) := by abel
      _ = (s.live : Multiset φ) + slotsOf pool + pc.fibers + (t.inUse : Multiset φ) := rest
      _ = slotsOf pool + (t.inUse : Multiset φ) + pc.fibers + (s.live : Multiset φ) := by abel
      _ = _ := by rw [moved]; abel
  exact add_right_cancel all

/-! ### The invariant -/

/-- A pass for a pool: the pool is that of the worker, or the global one to which a fiber is given back or
which is destroyed; a fiber finds room. -/
structure PassSound (a : ω) (key : PoolKey ω) (pool : FiberPool φ) (numToKeep : UInt32)
    (fiberToReturn : Option φ) (destroys : Bool) : Prop where
  mine : key = some a ∨ key = none ∧ (destroys = true ∨ fiberToReturn ≠ none)
  room : fiberToReturn ≠ none → numToKeep.toNat + 1 = pool.maxSize.toNat
  destroying : destroys = true → numToKeep = 0 ∧ fiberToReturn = none

/-- What holds where a worker is. -/
def FiberPoolState.PcSound (s : FiberPoolState ω φ) (a : ω) : FiberPc ω φ → Prop
  | .idle => True
  | .heapCall key | .heapFailed key => (key = some a ∨ key = none) ∧ s.pools key ≠ none
  | .searching => s.pools none ≠ none
  | .moving _ _ => s.pools (some a) ≠ none ∧ s.pools none ≠ none
  | .freeing key numToKeep fiberToReturn destroys => ∃ pool, s.pools key = some pool ∧
      PassSound a key pool numToKeep fiberToReturn destroys
  | .releasing key numToKeep fiberToReturn destroys fibersToFree last => ∃ pool, s.pools key = some pool ∧
      fibersToFree.length ≤ 10 ∧
      if last then (key = some a ∨ key = none) ∧ fiberToReturn = none ∧ (destroys = true → pool.fibers = [])
      else PassSound a key pool numToKeep fiberToReturn destroys ∧ (key = none → destroys = true)

/-- The pools, the heap and the workers. -/
structure FiberPoolInv (s : FiberPoolState ω φ) : Prop where
  sound : s.failed = false
  fibers : s.fibers = (s.live : Multiset φ)
  nodup : s.live.Nodup
  sizes : ∀ key pool, s.pools key = some pool → pool.size ≤ pool.maxSize.toNat
  parent : ∀ b, s.pools (some b) ≠ none → s.pools none ≠ none
  pcs : ∀ a, s.PcSound a (s.pc a)
  root : ∀ a, (s.pc a).destroysRoot = true →
    (∀ b, b ≠ a → s.pc b = .idle) ∧ ∀ b, s.pools (some b) = none

omit [Fintype ω] [DecidableEq ω] [DecidableEq φ] in
/-- The steps of the other workers keep what holds where a worker is: they leave its pool as it is, and of
the global pool at least the size. -/
theorem FiberPoolState.PcSound.frame {a : ω} {pc : FiberPc ω φ} (sound : s.PcSound a pc)
    (own : t.pools (some a) = s.pools (some a))
    (root : ∀ pool, s.pools none = some pool → ∃ pool', t.pools none = some pool' ∧
      pool'.maxSize = pool.maxSize ∧ (pc.destroysRoot = true → pool' = pool)) : t.PcSound a pc := by
  have kept : s.pools none ≠ none → t.pools none ≠ none := by
    intro exists_
    obtain ⟨pool, isPool⟩ := Option.ne_none_iff_exists'.1 exists_
    obtain ⟨pool', isPool', -⟩ := root pool isPool
    simp [isPool']
  have keptKey : ∀ key, key = some a ∨ key = none → s.pools key ≠ none → t.pools key ≠ none := by
    rintro key (rfl | rfl) exists_
    · rwa [own]
    · exact kept exists_
  cases pc with
  | idle => trivial
  | heapCall key => exact ⟨sound.1, keptKey key sound.1 sound.2⟩
  | heapFailed key => exact ⟨sound.1, keptKey key sound.1 sound.2⟩
  | searching => exact kept sound
  | moving numToKeep destroys => exact ⟨keptKey _ (.inl rfl) sound.1, kept sound.2⟩
  | freeing key numToKeep fiberToReturn destroys =>
    obtain ⟨pool, isPool, pass⟩ := sound
    rcases pass.mine with rfl | ⟨rfl, -⟩
    · exact ⟨pool, own.trans isPool, pass⟩
    · obtain ⟨pool', isPool', size, -⟩ := root pool isPool
      exact ⟨pool', isPool', pass.mine, fun returns => by rw [size]; exact pass.room returns,
        pass.destroying⟩
  | releasing key numToKeep fiberToReturn destroys fibersToFree last =>
    obtain ⟨pool, isPool, few, rest⟩ := sound
    cases last with
    | true =>
      obtain ⟨rfl | rfl, none, empty⟩ := rest
      · exact ⟨pool, own.trans isPool, few, .inl rfl, none, empty⟩
      · obtain ⟨pool', isPool', -, same⟩ := root pool isPool
        exact ⟨pool', isPool', few, .inr rfl, none, fun destroying => by
          rw [same destroying]; exact empty destroying⟩
    | false =>
      obtain ⟨pass, destroying⟩ := rest
      rcases pass.mine with rfl | ⟨rfl, -⟩
      · exact ⟨pool, own.trans isPool, few, pass, destroying⟩
      · obtain ⟨pool', isPool', size, -⟩ := root pool isPool
        exact ⟨pool', isPool', few, ⟨pass.mine, fun returns => by rw [size]; exact pass.room returns,
          pass.destroying⟩, destroying⟩

omit [DecidableEq φ] in
/-- A step of one worker that changes one pool and its own place. -/
theorem FiberPoolInv.update (inv : FiberPoolInv s) {a : ω} {key : PoolKey ω} {pool pool' : FiberPool φ}
    {pc : FiberPc ω φ} (isPool : s.pools key = some pool)
    (pools : t.pools = Function.update s.pools key (some pool'))
    (pcs : t.pc = Function.update s.pc a pc) (sound : t.failed = false)
    (mine : key = some a ∨ key = none ∧ ∀ b, b ≠ a → (s.pc b).destroysRoot = false)
    (maxSize : pool'.maxSize = pool.maxSize) (size : pool'.size ≤ pool.maxSize.toNat)
    (nodup : t.live.Nodup)
    (moved : slotsOf (some pool') + (t.inUse : Multiset φ) + pc.fibers + (s.live : Multiset φ) =
      slotsOf (s.pools key) + (s.inUse : Multiset φ) + (s.pc a).fibers + (t.live : Multiset φ))
    (pcSound : t.PcSound a pc) (destroys : pc.destroysRoot = true → (s.pc a).destroysRoot = true) :
    FiberPoolInv t := by
  have exists_ : ∀ key', t.pools key' ≠ none ↔ s.pools key' ≠ none := by
    intro key'
    rw [pools]
    by_cases same : key' = key
    · rw [same, Function.update_self, isPool]
      simp
    · rw [Function.update_of_ne same]
  refine ⟨sound, fibers_balance pools pcs inv.fibers moved, nodup, ?_, ?_, ?_, ?_⟩
  · intro key' pool'' isPool''
    rw [pools] at isPool''
    by_cases same : key' = key
    · rw [same, Function.update_self] at isPool''
      obtain rfl := Option.some.inj isPool''
      rwa [maxSize]
    · rw [Function.update_of_ne same] at isPool''
      exact inv.sizes key' pool'' isPool''
  · intro b
    rw [exists_, exists_]
    exact inv.parent b
  · intro b
    rw [pcs]
    by_cases same : b = a
    · rw [same, Function.update_self]
      exact pcSound
    · rw [Function.update_of_ne same]
      refine (inv.pcs b).frame ?_ ?_
      · rw [pools, Function.update_of_ne]
        rintro rfl
        rcases mine with isMine | ⟨isRoot, -⟩
        · exact same (Option.some.inj isMine)
        · cases isRoot
      · intro root isRoot
        rw [pools]
        by_cases sameKey : key = none
        · rw [sameKey] at isPool
          obtain rfl := Option.some.inj (isRoot.symm.trans isPool)
          refine ⟨pool', by rw [sameKey, Function.update_self], maxSize, fun destroying => ?_⟩
          rcases mine with isMine | ⟨-, notDestroyed⟩
          · rw [sameKey] at isMine
            cases isMine
          · rw [notDestroyed b same] at destroying
            cases destroying
        · exact ⟨root, by rw [Function.update_of_ne (Ne.symm sameKey)]; exact isRoot, rfl, fun _ => rfl⟩
  · intro b destroying
    have before : (s.pc b).destroysRoot = true := by
      rw [pcs] at destroying
      by_cases same : b = a
      · rw [same, Function.update_self] at destroying
        rw [same]
        exact destroys destroying
      · rwa [Function.update_of_ne same] at destroying
    obtain ⟨others, gone⟩ := inv.root b before
    -- nobody else is at work on a pool
    have isSelf : b = a := by
      by_contra other
      rcases mine with rfl | ⟨-, notDestroyed⟩
      · exact nomatch isPool.symm.trans (gone a)
      · exact nomatch before.symm.trans (notDestroyed b other)
    refine ⟨fun c other => ?_, fun c => ?_⟩
    · rw [pcs, Function.update_of_ne (by rwa [isSelf] at other)]
      exact others c other
    · by_contra more
      exact (exists_ _).1 more (gone c)

omit [DecidableEq φ] in
/-- A step of one worker that changes no pool. -/
theorem FiberPoolInv.updatePc (inv : FiberPoolInv s) {a : ω} {pc : FiberPc ω φ} (pools : t.pools = s.pools)
    (pcs : t.pc = Function.update s.pc a pc) (sound : t.failed = false) (nodup : t.live.Nodup)
    (moved : (t.inUse : Multiset φ) + pc.fibers + (s.live : Multiset φ) =
      (s.inUse : Multiset φ) + (s.pc a).fibers + (t.live : Multiset φ))
    (pcSound : t.PcSound a pc)
    (destroys : pc.destroysRoot = true → (s.pc a).destroysRoot = true ∨
      (∀ b, b ≠ a → s.pc b = .idle) ∧ ∀ b, s.pools (some b) = none)
    (busy : pc = .idle ∨ (∀ b, b ≠ a → (s.pc b).destroysRoot = false)) : FiberPoolInv t := by
  refine ⟨sound, ?_, nodup, ?_, ?_, ?_, ?_⟩
  · have same : t.pools = Function.update s.pools none (s.pools none) := by
      rw [pools, Function.update_eq_self]
    refine fibers_balance same pcs inv.fibers ?_
    rw [add_assoc (slotsOf _), add_assoc (slotsOf _), moved]
    abel
  · rw [pools]
    exact inv.sizes
  · rw [pools]
    exact inv.parent
  · intro b
    rw [pcs]
    by_cases same : b = a
    · rw [same, Function.update_self]
      exact pcSound
    · rw [Function.update_of_ne same]
      refine (inv.pcs b).frame (by rw [pools]) fun root isRoot => ⟨root, by rw [pools]; exact isRoot, rfl, fun _ => rfl⟩
  · intro b destroying
    rw [pools]
    rw [pcs] at destroying
    by_cases same : b = a
    · rw [same, Function.update_self] at destroying
      subst same
      have others : (∀ c, c ≠ b → s.pc c = .idle) ∧ ∀ c, s.pools (some c) = none :=
        (destroys destroying).elim (inv.root b) id
      refine ⟨fun c other => ?_, others.2⟩
      rw [pcs, Function.update_of_ne other]
      exact others.1 c other
    · rw [Function.update_of_ne same] at destroying
      obtain ⟨others, gone⟩ := inv.root b destroying
      refine ⟨fun c other => ?_, gone⟩
      rw [pcs]
      by_cases isActor : c = a
      · rw [isActor, Function.update_self]
        rcases busy with idle | notDestroyed
        · exact idle
        · exact nomatch destroying.symm.trans (notDestroyed b same)
      · rw [Function.update_of_ne isActor]
        exact others c other

/-! ### The steps -/

omit [DecidableEq ω] [DecidableEq φ] in
theorem FiberPoolState.Initial.inv (initial : s.Initial) : FiberPoolInv s := by
  obtain ⟨-, pools, live, inUse, idle, sound⟩ := initial
  refine ⟨sound, ?_, ?_, ?_, ?_, ?_, ?_⟩
  · simp [FiberPoolState.fibers, pools, live, inUse, idle, slotsOf, FiberPc.fibers]
  · simp [live]
  · simp [pools]
  · simp [pools]
  · intro a
    rw [idle]
    trivial
  · simp [idle, FiberPc.destroysRoot]

omit [Fintype ω] [DecidableEq ω] [DecidableEq φ] in
/-- A pool that a worker may use is not being destroyed. -/
theorem FiberPoolInv.usable [Fintype ω] (inv : FiberPoolInv s) {a : ω} {key : PoolKey ω}
    (usable : s.Usable a key) :
    key = some a ∨ key = none ∧ ∀ b, b ≠ a → (s.pc b).destroysRoot = false := by
  refine usable.imp_right fun ⟨isRoot, c, more⟩ => ⟨isRoot, fun b _ => ?_⟩
  by_contra destroying
  exact more ((inv.root b (by simpa using destroying)).2 c)

omit [DecidableEq ω] [DecidableEq φ] in
/-- A worker in the middle of an operation does not run beside the destruction of the global pool. -/
theorem FiberPoolInv.busy (inv : FiberPoolInv s) {a : ω} (busy : s.pc a ≠ .idle) :
    ∀ b, b ≠ a → (s.pc b).destroysRoot = false := by
  intro b other
  by_contra destroying
  exact busy ((inv.root b (by simpa using destroying)).1 a other.symm)

omit [Fintype ω] [DecidableEq ω] [DecidableEq φ] in
/-- A fiber is taken off, or put back: the lists that it moves between. -/
theorem coe_cons (fiber : φ) (fibers : List φ) :
    ((fiber :: fibers : List φ) : Multiset φ) = {fiber} + (fibers : Multiset φ) := by
  rw [← Multiset.cons_coe, Multiset.singleton_add]

omit [Fintype ω] [DecidableEq ω] in
theorem coe_erase {fiber : φ} {fibers : List φ} (member : fiber ∈ fibers) :
    (fibers : Multiset φ) = {fiber} + (fibers.erase fiber : List φ) := by
  rw [← coe_cons]
  exact Multiset.coe_eq_coe.2 (List.perm_cons_erase member)

/-- `allocate` takes a fiber off the pool, or counts one that the heap is to give. -/
theorem FiberPoolInv.allocate (inv : FiberPoolInv s) {a : ω} {key : PoolKey ω}
    (taken : fiberPoolStep s (.allocate a key) = some t) : FiberPoolInv t := by
  simp only [fiberPoolStep, Option.ite_none_right_eq_some] at taken
  obtain ⟨⟨sound, where_⟩, taken⟩ := taken
  have mine : key = some a ∨ key = none ∧ ∀ b, b ≠ a → (s.pc b).destroysRoot = false := by
    rcases where_ with ⟨-, usable⟩ | ⟨searching, isRoot⟩
    · exact inv.usable usable
    · exact .inr ⟨isRoot, inv.busy (by rw [searching]; rintro ⟨⟩)⟩
  have noFibers : (s.pc a).fibers = 0 := by
    rcases where_ with ⟨idle, -⟩ | ⟨searching, -⟩
    · rw [idle]; rfl
    · rw [searching]; rfl
  split at taken
  · rename_i pool isPool
    have size := inv.sizes key pool isPool
    split at taken
    · rename_i fiber fibers isSlots
      cases taken
      refine inv.update isPool rfl rfl sound mine rfl ?_ inv.nodup ?_ trivial (by rintro ⟨⟩)
      · simp only [FiberPool.size, isSlots, List.length_cons] at size ⊢
        omega
      · rw [noFibers, isPool]
        simp only [slotsOf, isSlots, coe_cons, FiberPc.fibers]
        abel
    · rename_i isSlots
      cases taken
      refine inv.update isPool rfl rfl sound mine rfl size inv.nodup ?_ ?_ (by rintro ⟨⟩)
      · rw [noFibers, isPool]
        rfl
      · exact ⟨mine.imp_right And.left, by simp⟩
  · cases taken

/-- The heap gives a fiber that nobody has. -/
theorem FiberPoolInv.allocateFromHeap (inv : FiberPoolInv s) {a : ω} {fiber : Option φ}
    (taken : fiberPoolStep s (.allocateFromHeap a fiber) = some t) : FiberPoolInv t := by
  simp only [fiberPoolStep] at taken
  split at taken
  · rename_i key fiber sound calls
    simp only [Option.ite_none_right_eq_some, Option.some.injEq] at taken
    obtain ⟨fresh, rfl⟩ := taken
    refine inv.updatePc rfl rfl sound (List.nodup_cons.2 ⟨fresh, inv.nodup⟩) ?_ trivial nofun (.inl rfl)
    simp only [calls, coe_cons, FiberPc.fibers]
    abel
  · rename_i key sound calls
    cases taken
    have pc := inv.pcs a
    rw [calls] at pc
    refine inv.updatePc rfl rfl sound inv.nodup ?_ pc nofun (.inr (inv.busy (by rw [calls]; nofun)))
    simp only [calls, FiberPc.fibers]
  · cases taken

/-- `allocate` goes on after the heap failed. -/
theorem FiberPoolInv.undoTotal (inv : FiberPoolInv s) {a : ω}
    (taken : fiberPoolStep s (.undoTotal a) = some t) : FiberPoolInv t := by
  simp only [fiberPoolStep] at taken
  split at taken
  · rename_i key sound failed
    split at taken
    · rename_i pool isPool
      cases taken
      have pc := inv.pcs a
      rw [failed] at pc
      have busy := inv.busy (a := a) (by rw [failed]; nofun)
      refine inv.update isPool rfl rfl sound (pc.1.imp_right fun isRoot => ⟨isRoot, busy⟩) rfl
        (inv.sizes key pool isPool) inv.nodup ?_ ?_ ?_
      · rw [isPool, failed]
        split <;> rfl
      · split
        · trivial
        · rename_i notRoot
          rcases pc.1 with rfl | isRoot
          · have parent := inv.parent a pc.2
            simpa [FiberPoolState.PcSound] using parent
          · exact absurd isRoot notRoot
      · split <;> nofun
    · cases taken
  · cases taken

/-- A fiber is given back to a pool that has slots. -/
def FiberPoolState.HasSlots (s : FiberPoolState ω φ) : FiberPoolLabel ω φ → Prop
  | .removeReference _ key _ => (s.pools key).map (·.maxSize) ≠ some 0
  | _ => True

instance (s : FiberPoolState ω φ) : (label : FiberPoolLabel ω φ) → Decidable (s.HasSlots label)
  | .removeReference _ key _ => inferInstanceAs (Decidable ((s.pools key).map (·.maxSize) ≠ some 0))
  | .createPool _ _ | .allocate _ _ | .allocateFromHeap _ _ | .undoTotal _ | .deallocateToHeap _ _
  | .freeFibersFromPool _ _ | .freePass _ | .release _ | .moveFibersToParentPool _ _ _ | .moveLocked _
  | .destroyRoot _ => .isTrue trivial

/-- A fiber is put into a free slot, or its worker starts to make room for it. -/
theorem FiberPoolInv.removeReference (inv : FiberPoolInv s) {a : ω} {key : PoolKey ω} {fiber : φ}
    (slots : s.HasSlots (.removeReference a key fiber))
    (taken : fiberPoolStep s (.removeReference a key fiber) = some t) : FiberPoolInv t := by
  simp only [fiberPoolStep, Option.ite_none_right_eq_some] at taken
  obtain ⟨⟨sound, idle, usable, member⟩, taken⟩ := taken
  have mine := inv.usable usable
  have noFibers : (s.pc a).fibers = 0 := by
    rw [idle]
    rfl
  split at taken
  · rename_i pool isPool
    split at taken
    · rename_i room
      cases taken
      have stays : s.pc = Function.update s.pc a .idle := by rw [← idle, Function.update_eq_self]
      refine inv.update isPool rfl stays sound mine rfl room inv.nodup ?_ trivial (by rintro ⟨⟩)
      rw [noFibers, isPool, coe_erase member]
      simp only [slotsOf, coe_cons, FiberPc.fibers]
      abel
    · cases taken
      have nonzero : pool.maxSize ≠ 0 := by
        simpa [FiberPoolState.HasSlots, isPool] using slots
      refine inv.updatePc rfl rfl sound inv.nodup ?_ ⟨pool, isPool, ?_, fun _ => FiberPool.toNat_sub_one nonzero, by rintro ⟨⟩⟩
        ?_ ?_
      · rw [noFibers, coe_erase member]
        simp only [FiberPc.fibers, Option.toList_some, coe_cons]
        abel
      · exact mine.imp_right fun isRoot => ⟨isRoot.1, .inr (by rintro ⟨⟩)⟩
      · cases key <;> rintro ⟨⟩
      · refine .inr fun b other => ?_
        rcases mine with rfl | isRoot
        · by_contra destroying
          cases isPool.symm.trans ((inv.root b (by simpa using destroying)).2 a)
        · exact isRoot.2 b other
  · cases taken

/-- A fiber that is given back without a pool is freed. -/
theorem FiberPoolInv.deallocateToHeap (inv : FiberPoolInv s) {a : ω} {fiber : φ}
    (taken : fiberPoolStep s (.deallocateToHeap a fiber) = some t) : FiberPoolInv t := by
  simp only [fiberPoolStep, Option.ite_none_right_eq_some, Option.some.injEq] at taken
  obtain ⟨⟨sound, idle, member⟩, rfl⟩ := taken
  have isLive : fiber ∈ s.live := by
    have used : fiber ∈ s.fibers := by
      rw [FiberPoolState.fibers]
      exact Multiset.mem_add.2 (.inl (Multiset.mem_add.2 (.inr member)))
    rw [inv.fibers] at used
    exact used
  have stays : s.pc = Function.update s.pc a .idle := by rw [← idle, Function.update_eq_self]
  refine inv.updatePc rfl stays sound (inv.nodup.erase _) ?_ trivial nofun (.inl rfl)
  rw [idle, coe_erase member, coe_erase isLive]
  simp only [FiberPc.fibers]
  abel

/-- The owner of a pool starts to free some of its fibers. -/
theorem FiberPoolInv.freeFibersFromPool (inv : FiberPoolInv s) {a : ω} {numToKeep : UInt32}
    (taken : fiberPoolStep s (.freeFibersFromPool a numToKeep) = some t) : FiberPoolInv t := by
  simp only [fiberPoolStep, Option.ite_none_right_eq_some, Option.some.injEq] at taken
  obtain ⟨⟨sound, idle, exists_⟩, rfl⟩ := taken
  obtain ⟨pool, isPool⟩ := Option.ne_none_iff_exists'.1 exists_
  refine inv.updatePc rfl rfl sound inv.nodup ?_ ⟨pool, isPool, .inl rfl, nofun, nofun⟩ nofun (.inr ?_)
  · rw [idle]
    rfl
  · intro b _
    by_contra destroying
    exact exists_ ((inv.root b (by simpa using destroying)).2 a)

/-- A pass of the loop. -/
theorem FiberPoolInv.freePass (inv : FiberPoolInv s) {a : ω}
    (taken : fiberPoolStep s (.freePass a) = some t) : FiberPoolInv t := by
  simp only [fiberPoolStep] at taken
  split at taken
  · rename_i key numToKeep fiberToReturn destroys sound freeing
    obtain ⟨pool, isPool, pass⟩ : s.PcSound a (.freeing key numToKeep fiberToReturn destroys) :=
      freeing ▸ inv.pcs a
    have busy := inv.busy (a := a) (by rw [freeing]; rintro ⟨⟩)
    have room : fiberToReturn ≠ none → numToKeep.toNat < pool.maxSize.toNat := fun returns => by
      have := pass.room returns
      omega
    have size := inv.sizes key pool isPool
    simp only [isPool] at taken
    split at taken
    · rename_i pool' fibersToFree last passed
      cases taken
      obtain ⟨kept, isSplit, few, maxSize, -, atLast, before⟩ := FiberPool.freePass_spec passed
      have length : pool.size = fibersToFree.length + kept.length := by
        rw [FiberPool.size, isSplit, List.length_append]
      have slots : (pool.fibers : Multiset φ) = (fibersToFree : Multiset φ) + (kept : Multiset φ) := by
        rw [isSplit, Multiset.coe_add]
      refine inv.update isPool rfl rfl sound (pass.mine.imp_right fun isRoot => ⟨isRoot.1, busy⟩) maxSize ?_
        inv.nodup ?_ ?_ ?_
      · cases last with
        | true =>
          obtain ⟨-, slots', bound⟩ := atLast rfl
          cases fiberToReturn with
          | some fiber => exact bound (by rintro ⟨⟩)
          | none =>
            rw [FiberPool.size, slots']
            simp only [Option.toList_none, List.nil_append]
            omega
        | false =>
          rw [FiberPool.size, (before rfl).2.2]
          omega
      · rw [isPool, freeing]
        simp only [slotsOf, FiberPc.fibers, slots]
        cases last with
        | true =>
          rw [(atLast rfl).2.1, ← Multiset.coe_add]
          simp only [if_true, Option.toList_none, Multiset.coe_nil]
          abel
        | false =>
          rw [(before rfl).2.2]
          simp only [Bool.false_eq_true, if_false]
          abel
      · refine ⟨pool', Function.update_self .., few, ?_⟩
        cases last with
        | true =>
          refine ⟨pass.mine.imp_right And.left, rfl, fun destroying => ?_⟩
          obtain ⟨rfl, rfl⟩ := pass.destroying destroying
          obtain ⟨none, slots', -⟩ := atLast rfl
          rw [slots']
          exact List.length_eq_zero_iff.1 (Nat.le_zero.1 none)
        | false =>
          refine ⟨⟨pass.mine, fun returns => by rw [maxSize]; exact pass.room returns, pass.destroying⟩, ?_⟩
          rintro rfl
          rcases pass.mine with isMine | ⟨-, destroying | returns⟩
          · cases isMine
          · exact destroying
          · -- a fiber is put back in the first pass
            have := pass.room returns
            have := (before rfl).1
            have := (before rfl).2.1
            omega
      · rw [freeing]
        cases key <;> exact id
    · rename_i failed
      obtain ⟨passed, isPassed⟩ := FiberPool.freePass_isSome room
      cases failed.symm.trans isPassed
  · cases taken

omit [DecidableEq ω] [DecidableEq φ] in
/-- The fibers in the hands of a worker are live. -/
theorem FiberPoolInv.hand_live (inv : FiberPoolInv s) {a : ω} {fiber : φ} (inHand : fiber ∈ (s.pc a).fibers) :
    fiber ∈ s.live := by
  have somewhere : fiber ∈ s.fibers := by
    rw [FiberPoolState.fibers]
    exact Multiset.mem_add.2 (.inr (Multiset.mem_sum.2 ⟨a, Finset.mem_univ a, inHand⟩))
  rw [inv.fibers] at somewhere
  exact somewhere

omit [Fintype ω] [DecidableEq φ] in
theorem setPool_self (s : FiberPoolState ω φ) (key : PoolKey ω) (pool : Option (FiberPool φ)) :
    (s.setPool key pool).pools key = pool :=
  Function.update_self ..

omit [Fintype ω] [DecidableEq φ] in
theorem setPool_other (s : FiberPoolState ω φ) {key key' : PoolKey ω} (other : key' ≠ key)
    (pool : Option (FiberPool φ)) : (s.setPool key pool).pools key' = s.pools key' :=
  Function.update_of_ne other _ _

omit [Fintype ω] [DecidableEq φ] in
theorem setPc_other (s : FiberPoolState ω φ) {a b : ω} (other : b ≠ a) (pc : FiberPc ω φ) :
    (s.setPc a pc).pc b = s.pc b :=
  Function.update_of_ne other _ _

omit [DecidableEq φ] in
/-- An empty pool is destroyed: that of a worker, or the global one after all others. -/
theorem FiberPoolInv.destroyed (inv : FiberPoolInv s) {a : ω} {key : PoolKey ω} {pool : FiberPool φ}
    (isPool : s.pools key = some pool) (empty : pool.fibers = []) (noFibers : (s.pc a).fibers = 0)
    (mine : key = some a ∨ key = none ∧ (s.pc a).destroysRoot = true) (busy : s.pc a ≠ .idle) :
    FiberPoolInv ((s.setPool key none).setPc a .idle) := by
  have gone : (s.setPool key none).pools key = none := Function.update_self ..
  have idle : ((s.setPool key none).setPc a .idle).pc a = .idle := Function.update_self ..
  refine ⟨inv.sound, ?_, inv.nodup, ?_, ?_, ?_, ?_⟩
  · refine fibers_balance rfl rfl inv.fibers ?_
    rw [noFibers, isPool]
    simp only [slotsOf, empty, FiberPc.fibers, Multiset.coe_nil]
  · intro key' pool' isPool'
    have isPool' : (s.setPool key none).pools key' = some pool' := isPool'
    by_cases same : key' = key
    · rw [same, gone] at isPool'
      cases isPool'
    · rw [setPool_other s same] at isPool'
      exact inv.sizes key' pool' isPool'
  · intro b more
    have more : (s.setPool key none).pools (some b) ≠ none := more
    show (s.setPool key none).pools none ≠ none
    rcases mine with rfl | ⟨rfl, destroying⟩
    · rw [setPool_other s (Option.some_ne_none a).symm]
      refine inv.parent b ?_
      by_cases same : b = a
      · rw [same, isPool]
        nofun
      · rwa [setPool_other s fun eq => same (Option.some.inj eq)] at more
    · rw [setPool_other s (Option.some_ne_none b)] at more
      exact absurd ((inv.root a destroying).2 b) more
  · intro b
    by_cases same : b = a
    · rw [same, idle]
      trivial
    · rw [setPc_other _ same]
      show (s.setPool key none).PcSound b (s.pc b)
      rcases mine with rfl | ⟨rfl, destroying⟩
      · refine (inv.pcs b).frame (setPool_other s (fun eq => same (Option.some.inj eq)) _) fun root isRoot =>
          ⟨root, ?_, rfl, fun _ => rfl⟩
        rw [setPool_other s (Option.some_ne_none a).symm, isRoot]
      · rw [(inv.root a destroying).1 b same]
        trivial
  · intro b destroying
    by_cases same : b = a
    · rw [same, idle] at destroying
      cases destroying
    · rw [setPc_other _ same] at destroying
      exact absurd ((inv.root b destroying).1 a (Ne.symm same)) busy

/-- A fiber that was taken off a pool is freed, or the pass is over. -/
theorem FiberPoolInv.release (inv : FiberPoolInv s) {a : ω}
    (taken : fiberPoolStep s (.release a) = some t) : FiberPoolInv t := by
  simp only [fiberPoolStep] at taken
  split at taken
  · rename_i key numToKeep fiberToReturn destroys fiber fibersToFree last sound releasing
    cases taken
    obtain ⟨pool, isPool, few, rest⟩ :
        s.PcSound a (.releasing key numToKeep fiberToReturn destroys (fiber :: fibersToFree) last) :=
      releasing ▸ inv.pcs a
    have isLive : fiber ∈ s.live := inv.hand_live (a := a) (by
      rw [releasing]
      exact Multiset.mem_add.2 (.inr List.mem_cons_self))
    refine inv.updatePc rfl rfl sound (inv.nodup.erase _) ?_
      ⟨pool, isPool, Nat.le_of_succ_le few, rest⟩ ?_ (.inr (inv.busy (by rw [releasing]; nofun)))
    · rw [releasing, coe_erase isLive]
      simp only [FiberPc.fibers, coe_cons]
      abel
    · rw [releasing]
      cases key
      · exact .inl
      · nofun
  · rename_i key numToKeep fiberToReturn destroys last sound releasing
    obtain ⟨pool, isPool, few, rest⟩ :
        s.PcSound a (.releasing key numToKeep fiberToReturn destroys [] last) := releasing ▸ inv.pcs a
    have busy := inv.busy (a := a) (by rw [releasing]; nofun)
    cases last with
    | true =>
      obtain ⟨mine, rfl, empty⟩ := rest
      simp only [if_true] at taken
      cases destroys with
      | true =>
        cases taken
        refine inv.destroyed isPool (empty rfl) ?_ ?_ (by rw [releasing]; nofun)
        · rw [releasing]
          simp [FiberPc.fibers]
        · refine mine.imp_right fun isRoot => ⟨isRoot, ?_⟩
          rw [releasing, isRoot]
          rfl
      | false =>
        cases taken
        refine inv.updatePc rfl rfl sound inv.nodup ?_ trivial nofun (.inl rfl)
        rw [releasing]
        simp [FiberPc.fibers]
    | false =>
      obtain ⟨pass, destroying⟩ := rest
      cases taken
      refine inv.updatePc rfl rfl sound inv.nodup ?_ ⟨pool, isPool, pass⟩ ?_ (.inr busy)
      · rw [releasing]
        simp [FiberPc.fibers]
      · rw [releasing]
        cases key
        · exact .inl
        · nofun
  · cases taken

omit [DecidableEq ω] [DecidableEq φ] in
/-- A worker that has a pool is not beside the destruction of the global pool. -/
theorem FiberPoolInv.owns (inv : FiberPoolInv s) {a : ω} (owns : s.pools (some a) ≠ none) (b : ω) :
    (s.pc b).destroysRoot = false := by
  by_contra destroying
  exact owns ((inv.root b (by simpa using destroying)).2 a)

/-- The parent does not look full, or nothing is moved. -/
theorem FiberPoolInv.moveFibersToParentPool (inv : FiberPoolInv s) {a : ω} {numToKeep : UInt32}
    {destroys : Bool} (taken : fiberPoolStep s (.moveFibersToParentPool a numToKeep destroys) = some t) :
    FiberPoolInv t := by
  simp only [fiberPoolStep, Option.ite_none_right_eq_some] at taken
  obtain ⟨⟨sound, idle, owns⟩, taken⟩ := taken
  obtain ⟨pool, isPool⟩ := Option.ne_none_iff_exists'.1 owns
  have others : ∀ b, b ≠ a → (s.pc b).destroysRoot = false := fun b _ => inv.owns owns b
  split at taken
  · rename_i parentPool isParent
    split at taken
    · cases taken
      cases destroys with
      | true =>
        refine inv.updatePc rfl rfl sound inv.nodup ?_
          ⟨pool, isPool, .inl rfl, nofun, fun _ => ⟨rfl, rfl⟩⟩ nofun (.inr others)
        rw [idle]
        rfl
      | false => exact inv
    · cases taken
      refine inv.updatePc rfl rfl sound inv.nodup ?_ ⟨owns, by rw [isParent]; nofun⟩ nofun (.inr others)
      rw [idle]
      rfl
  · cases taken

/-- The fibers go from the one pool to the other. -/
theorem FiberPoolInv.moveLocked (inv : FiberPoolInv s) {a : ω}
    (taken : fiberPoolStep s (.moveLocked a) = some t) : FiberPoolInv t := by
  simp only [fiberPoolStep] at taken
  split at taken
  · rename_i numToKeep destroys sound moving
    split at taken
    · rename_i pool parentPool isPool isParent
      cases taken
      have busy := inv.busy (a := a) (by rw [moving]; nofun)
      obtain ⟨moved, left, right, bound, maxSize, parentMax, -⟩ :=
        FiberPool.moveFibersToParentPool_spec pool parentPool numToKeep
      generalize pool.moveFibersToParentPool parentPool numToKeep = after at left right bound maxSize parentMax ⊢
      have isOther : (none : PoolKey ω) ≠ some a := nofun
      have own : (s.setPool (some a) (some after.1)).pools (some a) = some after.1 := Function.update_self ..
      have root : (s.setPool (some a) (some after.1)).pools none = some parentPool := by
        rw [setPool_other s isOther, isParent]
      -- first the fibers leave the one pool
      have out : FiberPoolInv { s.setPool (some a) (some after.1) with inUse := moved ++ s.inUse } := by
        have stays : s.pc = Function.update s.pc a (s.pc a) := (Function.update_eq_self ..).symm
        refine inv.update isPool rfl stays sound (.inl rfl) maxSize ?_ inv.nodup ?_ ?_ id
        · have size := inv.sizes _ _ isPool
          rw [FiberPool.size, left, List.length_append] at size
          exact Nat.le_trans (Nat.le_add_left _ _) size
        · rw [isPool]
          simp only [slotsOf, left, ← Multiset.coe_add]
          abel
        · rw [moving]
          exact ⟨by rw [own]; nofun, by rw [root]; nofun⟩
      -- then they get into the other
      refine out.update root rfl rfl sound (.inr ⟨rfl, busy⟩) parentMax (bound (inv.sizes _ _ isParent))
        inv.nodup ?_ ?_ ?_
      · rw [root]
        simp only [slotsOf, right, moving, ← Multiset.coe_add, Multiset.coe_reverse]
        cases destroys <;> simp only [FiberPc.fibers, Bool.false_eq_true, if_false, if_true,
          Option.toList_none, Multiset.coe_nil] <;> abel
      · cases destroys with
        | true =>
          refine ⟨after.1, ?_, .inl rfl, nofun, fun _ => ⟨rfl, rfl⟩⟩
          rw [setPool_other _ isOther.symm]
          exact own
        | false => trivial
      · cases destroys <;> nofun
    · cases taken
  · cases taken

omit [DecidableEq ω] [DecidableEq φ] in
/-- Where nobody is at work, a change of the pools only has to keep the balance. -/
theorem FiberPoolInv.allIdle (sound : t.failed = false) (idle : ∀ a, t.pc a = .idle)
    (fibers : t.fibers = (t.live : Multiset φ)) (nodup : t.live.Nodup)
    (sizes : ∀ key pool, t.pools key = some pool → pool.size ≤ pool.maxSize.toNat)
    (parent : ∀ b, t.pools (some b) ≠ none → t.pools none ≠ none) : FiberPoolInv t := by
  refine ⟨sound, fibers, nodup, sizes, parent, ?_, ?_⟩
  · intro a
    rw [idle]
    trivial
  · simp [idle, FiberPc.destroysRoot]

/-- Three quarters of the slots are filled. -/
theorem preAllocateCount_le (bufferSize : UInt32) :
    FiberPool.preAllocateCount bufferSize ≤ bufferSize.toNat := by
  rw [FiberPool.preAllocateCount, UInt32.toNat_add, UInt32.toNat_div, UInt32.toNat_div]
  refine Nat.le_trans (Nat.mod_le _ _) ?_
  show bufferSize.toNat / 2 + bufferSize.toNat / 4 ≤ bufferSize.toNat
  omega

/-- A pool is created. -/
theorem FiberPoolInv.createPool (inv : FiberPoolInv s) {key : PoolKey ω} {blocks : List φ}
    (taken : fiberPoolStep s (.createPool key blocks) = some t) : FiberPoolInv t := by
  simp only [fiberPoolStep, Option.ite_none_right_eq_some, Option.some.injEq] at taken
  obtain ⟨⟨sound, noPool, parent, idle, count, distinct, fresh⟩, rfl⟩ := taken
  have slots : (s.createdPool key blocks).fibers = blocks := by cases key <;> rfl
  have maxSize : (s.createdPool key blocks).maxSize = s.bufferSize key := by cases key <;> rfl
  refine .allIdle sound idle ?_ ?_ ?_ ?_
  · have slotsSum := sum_update (fun _ => slotsOf) s.pools key (some (s.createdPool key blocks))
    have noSlots : slotsOf (s.pools key) = 0 := by rw [noPool]; rfl
    rw [noSlots, add_zero] at slotsSum
    have balance := inv.fibers
    rw [FiberPoolState.fibers] at balance ⊢
    have new : slotsOf (some (s.createdPool key blocks)) = (blocks : Multiset φ) := by
      rw [slotsOf, slots]
    rw [slotsSum, new, ← Multiset.coe_add, ← balance]
    abel
  · exact List.nodup_append.2 ⟨distinct, inv.nodup, fun x new y old same => fresh x new (same ▸ old)⟩
  · intro key' pool isPool
    have isPool : (s.setPool key (some (s.createdPool key blocks))).pools key' = some pool := isPool
    by_cases same : key' = key
    · rw [same, setPool_self] at isPool
      obtain rfl := Option.some.inj isPool
      rw [FiberPool.size, slots, maxSize, count]
      exact preAllocateCount_le _
    · rw [setPool_other s same] at isPool
      exact inv.sizes key' pool isPool
  · intro b more
    show (s.setPool key (some (s.createdPool key blocks))).pools none ≠ none
    by_cases isRoot : key = none
    · subst isRoot
      rw [setPool_self]
      nofun
    · rw [setPool_other s (Ne.symm isRoot)]
      exact parent.resolve_left isRoot

/-- The global pool starts to be destroyed. -/
theorem FiberPoolInv.destroyRoot (inv : FiberPoolInv s) {a : ω}
    (taken : fiberPoolStep s (.destroyRoot a) = some t) : FiberPoolInv t := by
  simp only [fiberPoolStep, Option.ite_none_right_eq_some, Option.some.injEq] at taken
  obtain ⟨⟨sound, idle, gone, exists_⟩, rfl⟩ := taken
  obtain ⟨pool, isPool⟩ := Option.ne_none_iff_exists'.1 exists_
  refine inv.updatePc rfl rfl sound inv.nodup ?_
    ⟨pool, isPool, .inr ⟨rfl, .inl rfl⟩, nofun, fun _ => ⟨rfl, rfl⟩⟩
    (fun _ => .inr ⟨fun b _ => idle b, gone⟩) (.inr fun b _ => ?_)
  · rw [idle]
    rfl
  · rw [idle]
    rfl

/-- Every step keeps the balance. -/
theorem FiberPoolInv.step (inv : FiberPoolInv s) {label : FiberPoolLabel ω φ} (slots : s.HasSlots label)
    (taken : fiberPoolStep s label = some t) : FiberPoolInv t := by
  cases label with
  | createPool key blocks => exact inv.createPool taken
  | allocate a key => exact inv.allocate taken
  | allocateFromHeap a fiber => exact inv.allocateFromHeap taken
  | undoTotal a => exact inv.undoTotal taken
  | removeReference a key fiber => exact inv.removeReference slots taken
  | deallocateToHeap a fiber => exact inv.deallocateToHeap taken
  | freeFibersFromPool a numToKeep => exact inv.freeFibersFromPool taken
  | freePass a => exact inv.freePass taken
  | release a => exact inv.release taken
  | moveFibersToParentPool a numToKeep destroys => exact inv.moveFibersToParentPool taken
  | moveLocked a => exact inv.moveLocked taken
  | destroyRoot a => exact inv.destroyRoot taken

/-! ### The loops end -/

/-- The passes that a worker in the loop has before it, at most. -/
def FiberPoolState.passes (s : FiberPoolState ω φ) (key : PoolKey ω) (numToKeep : UInt32) : Nat :=
  match s.pools key with
  | some pool => (pool.size - numToKeep.toNat) / 10 + 1
  | none => 1

/-- How far a worker is from the end of the loop. -/
def FiberPoolState.loopRank (s : FiberPoolState ω φ) : FiberPc ω φ → Nat
  | .freeing key numToKeep _ _ => 12 * s.passes key numToKeep
  | .releasing key numToKeep _ _ fibersToFree last =>
      (if last then 0 else 12 * s.passes key numToKeep) + fibersToFree.length + 1
  | _ => 0

/-- A worker in the loop can make its pass, or free a fiber. -/
theorem FiberPoolInv.loop_enabled (inv : FiberPoolInv s) {a : ω} (inLoop : (s.pc a).inLoop = true) :
    ∃ t, fiberPoolStep s (.freePass a) = some t ∨ fiberPoolStep s (.release a) = some t := by
  have pc := inv.pcs a
  cases isPc : s.pc a with
  | freeing key numToKeep fiberToReturn destroys =>
    rw [isPc] at pc
    obtain ⟨pool, isPool, pass⟩ := pc
    obtain ⟨⟨pool', fibersToFree, last⟩, passed⟩ := FiberPool.freePass_isSome fun returns =>
      Nat.lt_of_lt_of_eq (Nat.lt_succ_self _) (pass.room returns)
    have taken : fiberPoolStep s (.freePass a) = some ((s.setPool key (some pool')).setPc a
        (.releasing key numToKeep (if last then none else fiberToReturn) destroys fibersToFree last)) := by
      simp only [fiberPoolStep, inv.sound, isPc, isPool, passed]
    exact ⟨_, .inl taken⟩
  | releasing key numToKeep fiberToReturn destroys fibersToFree last =>
    have taken : ∃ t, fiberPoolStep s (.release a) = some t := by
      simp only [fiberPoolStep, inv.sound, isPc]
      cases fibersToFree with
      | cons fiber fibersToFree => exact ⟨_, rfl⟩
      | nil => cases last <;> cases destroys <;> exact ⟨_, rfl⟩
    exact taken.imp fun _ taken => .inr taken
  | _ =>
    rw [isPc] at inLoop
    cases inLoop

/-- A pass brings a worker nearer to the end. -/
theorem loop_freePass {a : ω} (taken : fiberPoolStep s (.freePass a) = some t) (sound : t.failed = false) :
    t.loopRank (t.pc a) < s.loopRank (s.pc a) := by
  simp only [fiberPoolStep] at taken
  split at taken
  · rename_i key numToKeep fiberToReturn destroys _ isPc
    split at taken
    · rename_i pool isPool
      split at taken
      · rename_i pool' fibersToFree last passed
        cases taken
        obtain ⟨kept, isSplit, few, -, -, -, before⟩ := FiberPool.freePass_spec passed
        have size : pool.size = fibersToFree.length + kept.length := by
          rw [FiberPool.size, isSplit, List.length_append]
        simp only [Function.update_self, isPc, FiberPoolState.loopRank, FiberPoolState.passes, isPool]
        cases last with
        | true =>
          simp only [if_true]
          omega
        | false =>
          obtain ⟨more, full, slots⟩ := before rfl
          simp only [Bool.false_eq_true, if_false, FiberPool.size, slots] at size ⊢
          omega
      · cases taken
        cases sound
    · cases taken
  · cases taken

/-- So does a fiber that is freed. -/
theorem loop_release {a : ω} (taken : fiberPoolStep s (.release a) = some t) :
    t.loopRank (t.pc a) < s.loopRank (s.pc a) := by
  simp only [fiberPoolStep] at taken
  split at taken
  · rename_i key numToKeep fiberToReturn destroys fiber fibersToFree last _ isPc
    cases taken
    simp only [Function.update_self, isPc, FiberPoolState.loopRank, FiberPoolState.passes, List.length_cons]
    omega
  · rename_i key numToKeep fiberToReturn destroys last _ isPc
    cases last <;> cases destroys <;> cases taken <;>
      simp [isPc, FiberPoolState.loopRank, FiberPoolState.passes]
  · cases taken

/-- The worker that takes a step. -/
def FiberPoolLabel.worker : FiberPoolLabel ω φ → Option ω
  | .createPool _ _ => none
  | .allocate a _ | .allocateFromHeap a _ | .undoTotal a | .removeReference a _ _ | .deallocateToHeap a _
  | .freeFibersFromPool a _ | .freePass a | .release a | .moveFibersToParentPool a _ _ | .moveLocked a
  | .destroyRoot a => some a

omit [Fintype ω] [DecidableEq φ] in
/-- A store into a pool that a worker may change: it is no other worker's, and not the global pool while
that is destroyed. -/
theorem setPool_frame {a b : ω} {key : PoolKey ω} {pool : Option (FiberPool φ)} {isFree : Prop}
    (mine : key = some b ∨ key = none ∧ isFree) (other : a ≠ b) :
    (s.setPool key pool).pools (some a) = s.pools (some a) ∧
      (¬ isFree → (s.setPool key pool).pools none = s.pools none) := by
  rcases mine with rfl | ⟨rfl, free⟩
  · exact ⟨setPool_other s (fun same => other (Option.some.inj same)) _,
      fun _ => setPool_other s (Option.some_ne_none b).symm _⟩
  · exact ⟨setPool_other s (Option.some_ne_none a) _, fun destroyed => absurd free destroyed⟩

/-- A step leaves the other workers where they are, with their pools, and the global pool to the worker that
destroys it. -/
theorem FiberPoolInv.step_frame (inv : FiberPoolInv s) {label : FiberPoolLabel ω φ}
    (taken : fiberPoolStep s label = some t) {a : ω} (other : label.worker ≠ some a)
    (busy : s.pc a ≠ .idle) : t.pc a = s.pc a ∧ t.pools (some a) = s.pools (some a) ∧
      ((s.pc a).destroysRoot = true → t.pools none = s.pools none) := by
  -- what a worker changes that is in the middle of an operation
  have acts : ∀ {b : ω} {key : PoolKey ω} (pool : Option (FiberPool φ)), a ≠ b → s.pc b ≠ .idle →
      (key = some b ∨ key = none) → (s.setPool key pool).pools (some a) = s.pools (some a) ∧
        ((s.pc a).destroysRoot = true → (s.setPool key pool).pools none = s.pools none) := by
    intro b key pool apart acting mine
    have free := inv.busy acting a apart
    refine (setPool_frame (mine.imp_right fun isRoot => ⟨isRoot, free⟩) apart).imp_right fun kept =>
      fun destroying => kept (by rw [destroying]; decide)
  have uses : ∀ {b : ω} {key : PoolKey ω} (pool : Option (FiberPool φ)), a ≠ b → s.Usable b key →
      (s.setPool key pool).pools (some a) = s.pools (some a) ∧
        ((s.pc a).destroysRoot = true → (s.setPool key pool).pools none = s.pools none) := by
    intro b key pool apart usable
    have mine : key = some b ∨ key = none ∧ (s.pc a).destroysRoot = false :=
      (inv.usable usable).imp_right fun ⟨isRoot, free⟩ => ⟨isRoot, free a apart⟩
    exact (setPool_frame mine apart).imp_right fun kept =>
      fun destroying => kept (by rw [destroying]; decide)
  cases label with
  | createPool key blocks =>
    simp only [fiberPoolStep, Option.ite_none_right_eq_some] at taken
    exact absurd (taken.1.2.2.2.1 a) busy
  | destroyRoot b =>
    simp only [fiberPoolStep, Option.ite_none_right_eq_some] at taken
    exact absurd (taken.1.2.1 a) busy
  | allocate b key =>
    have apart : a ≠ b := fun same => other (by rw [same]; rfl)
    simp only [fiberPoolStep, Option.ite_none_right_eq_some] at taken
    obtain ⟨⟨-, where_⟩, taken⟩ := taken
    have frame := fun pool => where_.elim (fun ⟨_, usable⟩ => uses pool apart usable)
      fun ⟨searching, isRoot⟩ => acts pool apart (by rw [searching]; nofun) (.inr isRoot)
    split at taken
    · split at taken <;> cases taken <;> exact ⟨setPc_other _ apart _, frame _⟩
    · cases taken
  | allocateFromHeap b fiber =>
    have apart : a ≠ b := fun same => other (by rw [same]; rfl)
    simp only [fiberPoolStep] at taken
    split at taken
    · simp only [Option.ite_none_right_eq_some, Option.some.injEq] at taken
      obtain ⟨-, rfl⟩ := taken
      exact ⟨setPc_other _ apart _, rfl, fun _ => rfl⟩
    · cases taken
      exact ⟨setPc_other _ apart _, rfl, fun _ => rfl⟩
    · cases taken
  | undoTotal b =>
    have apart : a ≠ b := fun same => other (by rw [same]; rfl)
    simp only [fiberPoolStep] at taken
    split at taken
    · rename_i key _ failed
      split at taken
      · cases taken
        have pc := inv.pcs b
        rw [failed] at pc
        exact ⟨setPc_other _ apart _, acts _ apart (by rw [failed]; nofun) pc.1⟩
      · cases taken
    · cases taken
  | removeReference b key fiber =>
    have apart : a ≠ b := fun same => other (by rw [same]; rfl)
    simp only [fiberPoolStep, Option.ite_none_right_eq_some] at taken
    obtain ⟨⟨-, -, usable, -⟩, taken⟩ := taken
    split at taken
    · split at taken <;> cases taken
      · exact ⟨rfl, uses _ apart usable⟩
      · exact ⟨setPc_other _ apart _, rfl, fun _ => rfl⟩
    · cases taken
  | deallocateToHeap b fiber =>
    simp only [fiberPoolStep, Option.ite_none_right_eq_some, Option.some.injEq] at taken
    obtain ⟨-, rfl⟩ := taken
    exact ⟨rfl, rfl, fun _ => rfl⟩
  | freeFibersFromPool b numToKeep =>
    have apart : a ≠ b := fun same => other (by rw [same]; rfl)
    simp only [fiberPoolStep, Option.ite_none_right_eq_some, Option.some.injEq] at taken
    obtain ⟨-, rfl⟩ := taken
    exact ⟨setPc_other _ apart _, rfl, fun _ => rfl⟩
  | freePass b =>
    have apart : a ≠ b := fun same => other (by rw [same]; rfl)
    simp only [fiberPoolStep] at taken
    split at taken
    · rename_i key numToKeep fiberToReturn destroys _ freeing
      obtain ⟨pool, isPool, pass⟩ : s.PcSound b (.freeing key numToKeep fiberToReturn destroys) :=
        freeing ▸ inv.pcs b
      split at taken
      · split at taken <;> cases taken
        · exact ⟨setPc_other _ apart _,
            acts _ apart (by rw [freeing]; nofun) (pass.mine.imp_right And.left)⟩
        · exact ⟨rfl, rfl, fun _ => rfl⟩
      · cases taken
    · cases taken
  | release b =>
    have apart : a ≠ b := fun same => other (by rw [same]; rfl)
    simp only [fiberPoolStep] at taken
    split at taken
    · cases taken
      exact ⟨setPc_other _ apart _, rfl, fun _ => rfl⟩
    · rename_i key numToKeep fiberToReturn destroys last _ releasing
      obtain ⟨pool, isPool, few, rest⟩ :
          s.PcSound b (.releasing key numToKeep fiberToReturn destroys [] last) := releasing ▸ inv.pcs b
      cases last with
      | true =>
        cases destroys with
        | true =>
          cases taken
          exact ⟨setPc_other _ apart _, acts _ apart (by rw [releasing]; nofun) rest.1⟩
        | false =>
          cases taken
          exact ⟨setPc_other _ apart _, rfl, fun _ => rfl⟩
      | false =>
        cases taken
        exact ⟨setPc_other _ apart _, rfl, fun _ => rfl⟩
    · cases taken
  | moveFibersToParentPool b numToKeep destroys =>
    have apart : a ≠ b := fun same => other (by rw [same]; rfl)
    simp only [fiberPoolStep, Option.ite_none_right_eq_some] at taken
    obtain ⟨-, taken⟩ := taken
    split at taken
    · split at taken
      · cases destroys <;> cases taken
        · exact ⟨rfl, rfl, fun _ => rfl⟩
        · exact ⟨setPc_other _ apart _, rfl, fun _ => rfl⟩
      · cases taken
        exact ⟨setPc_other _ apart _, rfl, fun _ => rfl⟩
    · cases taken
  | moveLocked b =>
    have apart : a ≠ b := fun same => other (by rw [same]; rfl)
    simp only [fiberPoolStep] at taken
    split at taken
    · rename_i numToKeep destroys _ moving
      split at taken
      · rename_i pool parentPool isPool isParent
        cases taken
        refine ⟨setPc_other _ apart _, ?_, fun destroying => ?_⟩
        · have first := (acts (some (pool.moveFibersToParentPool parentPool numToKeep).1) apart
            (by rw [moving]; nofun) (.inl rfl)).1
          exact (setPool_other (s.setPool (some b) (some (pool.moveFibersToParentPool parentPool
            numToKeep).1)) (Option.some_ne_none a)
              (some (pool.moveFibersToParentPool parentPool numToKeep).2)).trans first
        · exact nomatch isPool.symm.trans ((inv.root a destroying).2 b)
      · cases taken
    · cases taken

/-- The steps of the other workers keep a worker in the loop, and do not take it further from the end. -/
theorem FiberPoolInv.loop_other (inv : FiberPoolInv s) (after : FiberPoolInv t)
    {label : FiberPoolLabel ω φ} (taken : fiberPoolStep s label = some t) {a : ω}
    (other : label.worker ≠ some a) (inLoop : (s.pc a).inLoop = true) :
    t.pc a = s.pc a ∧ t.loopRank (s.pc a) ≤ s.loopRank (s.pc a) := by
  have busy : s.pc a ≠ .idle := fun idle => by
    rw [idle] at inLoop
    cases inLoop
  obtain ⟨stays, own, root⟩ := inv.step_frame taken other busy
  refine ⟨stays, ?_⟩
  have before := inv.pcs a
  have later := after.pcs a
  rw [stays] at later
  cases isPc : s.pc a with
  | freeing key numToKeep fiberToReturn destroys =>
    rw [isPc] at before later root
    obtain ⟨pool, isPool, pass⟩ := before
    obtain ⟨pool', isPool', pass'⟩ := later
    simp only [FiberPoolState.loopRank, FiberPoolState.passes, isPool, isPool']
    by_cases returns : fiberToReturn = none
    · have same : t.pools key = s.pools key := by
        rcases pass.mine with rfl | ⟨rfl, destroying | back⟩
        · exact own
        · exact root destroying
        · exact absurd returns back
      rw [same, isPool] at isPool'
      obtain rfl := Option.some.inj isPool'
      exact Nat.le_refl _
    · -- one pass makes room for a fiber
      have size := after.sizes key pool' isPool'
      have room := pass'.room returns
      omega
  | releasing key numToKeep fiberToReturn destroys fibersToFree last =>
    rw [isPc] at before root
    obtain ⟨pool, isPool, few, rest⟩ := before
    cases last with
    | true => exact Nat.le_refl _
    | false =>
      obtain ⟨pass, destroying⟩ := rest
      have same : t.pools key = s.pools key := by
        rcases pass.mine with rfl | ⟨rfl, -⟩
        · exact own
        · exact root (destroying rfl)
      simp only [FiberPoolState.loopRank, FiberPoolState.passes, same]
      exact Nat.le_refl _
  | _ =>
    rw [isPc] at inLoop
    cases inLoop

/-! ### The pools keep their fibers -/

/-- What the pools promise in a state. -/
structure FibersKept (s : FiberPoolState ω φ) : Prop where
  /-- No assertion has failed. -/
  sound : s.failed = false
  /-- A fiber that was allocated and not freed is at one place, once; any other is nowhere. -/
  places : ∀ fiber, s.fibers.count fiber = if fiber ∈ s.live then 1 else 0
  sizes : ∀ key pool, s.pools key = some pool → pool.size ≤ pool.maxSize.toNat
  /-- A fiber that is given back gets into a slot, or will in the next pass. -/
  given : ∀ a key fiber t, fiberPoolStep s (.removeReference a key fiber) = some t →
    (∃ pool, t.pools key = some pool ∧ pool.fibers.count fiber = 1) ∨
      ∃ numToKeep, t.pc a = .freeing key numToKeep (some fiber) false
  returned : ∀ a key numToKeep fiber destroys, s.pc a = .freeing key numToKeep (some fiber) destroys →
    ∃ t pool, fiberPoolStep s (.freePass a) = some t ∧ t.pools key = some pool ∧
      pool.fibers.count fiber = 1
  /-- Every loop over a pool ends: its worker can go on, and comes nearer to the end, from which the other
  workers do not move it away. -/
  ends : ∀ a, (s.pc a).inLoop = true →
    (∃ t, fiberPoolStep s (.freePass a) = some t ∨ fiberPoolStep s (.release a) = some t) ∧
    (∀ t, fiberPoolStep s (.freePass a) = some t ∨ fiberPoolStep s (.release a) = some t →
      t.loopRank (t.pc a) < s.loopRank (s.pc a)) ∧
    ∀ label t, s.HasSlots label → label.worker ≠ some a → fiberPoolStep s label = some t →
      t.pc a = s.pc a ∧ t.loopRank (t.pc a) ≤ s.loopRank (s.pc a)

/-- A fiber in a slot is nowhere else. -/
theorem FiberPoolInv.count_slot (inv : FiberPoolInv s) {key : PoolKey ω} {pool : FiberPool φ} {fiber : φ}
    (isPool : s.pools key = some pool) (member : fiber ∈ pool.fibers) : pool.fibers.count fiber = 1 := by
  have few : (∑ key, slotsOf (s.pools key)).count fiber ≤ 1 := by
    have once := Multiset.nodup_iff_count_le_one.1 (Multiset.coe_nodup.2 inv.nodup) fiber
    rw [← inv.fibers, FiberPoolState.fibers, Multiset.count_add, Multiset.count_add] at once
    omega
  rw [← Finset.add_sum_erase _ _ (Finset.mem_univ key), isPool, Multiset.count_add] at few
  have atLeast := List.count_pos_iff.2 member
  have same : (slotsOf (some pool)).count fiber = pool.fibers.count fiber := Multiset.coe_count ..
  omega

theorem FiberPoolInv.kept (inv : FiberPoolInv s) : FibersKept s where
  sound := inv.sound
  places fiber := by
    rw [inv.fibers, Multiset.coe_count]
    split
    · rename_i isLive
      exact List.count_eq_one_of_mem inv.nodup isLive
    · rename_i freed
      exact List.count_eq_zero.2 freed
  sizes := inv.sizes
  given a key fiber t taken := by
    have next := taken
    simp only [fiberPoolStep, Option.ite_none_right_eq_some] at next
    obtain ⟨-, next⟩ := next
    split at next
    · rename_i pool isPool
      split at next
      · rename_i room
        have slots : s.HasSlots (.removeReference a key fiber) := by
          simp only [FiberPoolState.HasSlots, isPool, Option.map_some, ne_eq, Option.some.injEq]
          intro zero
          rw [zero] at room
          exact Nat.not_lt_zero _ room
        have inv' := inv.removeReference slots taken
        cases next
        have isPool' := setPool_self s key (some { pool with fibers := fiber :: pool.fibers })
        exact .inl ⟨_, isPool', inv'.count_slot isPool' List.mem_cons_self⟩
      · cases next
        exact .inr ⟨_, Function.update_self ..⟩
    · cases next
  returned a key numToKeep fiber destroys isPc := by
    obtain ⟨pool, isPool, pass⟩ : s.PcSound a (.freeing key numToKeep (some fiber) destroys) :=
      isPc ▸ inv.pcs a
    have room := pass.room nofun
    obtain ⟨⟨pool', fibersToFree, last⟩, passed⟩ : ∃ passed, pool.freePass numToKeep (some fiber) =
        some passed := FiberPool.freePass_isSome fun _ => Nat.lt_of_lt_of_eq (Nat.lt_succ_self _) room
    obtain ⟨kept, isSplit, few, -, -, atLast, before⟩ := FiberPool.freePass_spec passed
    have taken : fiberPoolStep s (.freePass a) = some ((s.setPool key (some pool')).setPc a
        (.releasing key numToKeep (if last then none else some fiber) destroys fibersToFree last)) := by
      simp only [fiberPoolStep, inv.sound, isPc, isPool, passed]
    have isPool' := setPool_self s key (some pool')
    refine ⟨_, pool', taken, isPool', (inv.freePass taken).count_slot isPool' ?_⟩
    cases last with
    | true =>
      rw [(atLast rfl).2.1]
      exact List.mem_cons_self
    | false =>
      -- a pool is never so full that one pass leaves no slot
      obtain ⟨more, full, -⟩ := before rfl
      have size := inv.sizes key pool isPool
      rw [FiberPool.size, isSplit, List.length_append] at size
      omega
  ends a inLoop := by
    refine ⟨inv.loop_enabled inLoop, fun t taken => ?_, fun label t slots other taken => ?_⟩
    · rcases taken with passes | releases
      · exact loop_freePass passes (inv.freePass passes).sound
      · exact loop_release releases
    · obtain ⟨stays, rank⟩ := inv.loop_other (inv.step slots taken) taken other inLoop
      exact ⟨stays, by rwa [stays]⟩

theorem fiberPoolInv_of_run (run : (fiberPoolMachine ω φ).GuardedRun FiberPoolState.HasSlots s) :
    FiberPoolInv s := by
  refine @Machine.GuardedRun.invariant _ _ _ _ FiberPoolInv ?_ ?_ _ run
  · intro s initial
    exact FiberPoolState.Initial.inv initial
  · intro s label t inv slots taken
    exact inv.step slots taken

/-- Where a pool has no slots, the fiber that is given back meets the assertion: `max_size - 1` wraps, and
no slot is free. -/
theorem FiberPoolInv.slotless (inv : FiberPoolInv s) {a : ω} {key : PoolKey ω} {fiber : φ}
    (none_ : ¬ s.HasSlots (.removeReference a key fiber))
    (taken : fiberPoolStep s (.removeReference a key fiber) = some t) :
    ∃ u, fiberPoolStep t (.freePass a) = some u ∧ u.failed = true := by
  simp only [FiberPoolState.HasSlots, ne_eq, not_not, Option.map_eq_some_iff] at none_
  obtain ⟨pool, isPool, zero⟩ := none_
  have empty : pool.size = 0 := by
    have size := inv.sizes key pool isPool
    rw [zero] at size
    exact Nat.le_zero.1 size
  have full : ¬ pool.size < pool.maxSize.toNat := by
    rw [zero]
    exact Nat.not_lt_zero _
  simp only [fiberPoolStep, Option.ite_none_right_eq_some, isPool, if_neg full, Option.some.injEq] at taken
  obtain ⟨⟨sound, -⟩, isNext⟩ := taken
  have noSlots := List.length_eq_zero_iff.1 empty
  have fails : pool.freePass (pool.maxSize - 1) (some fiber) = none := by
    simp [FiberPool.freePass, FiberPool.grabFibers, FiberPool.decrementTotal, FiberPool.size, noSlots, zero]
  refine ⟨{ t with failed := true }, ?_, rfl⟩
  subst isNext
  simp only [fiberPoolStep, sound, Function.update_self, isPool, fails]

/-- The pools neither lose nor duplicate a fiber and meet no assertion, as long as no fiber is given back to
a pool that has no slots; giving one back to such a pool ends in the assertion. -/
theorem fiber_pools_keep_fibers
    (run : (fiberPoolMachine ω φ).GuardedRun FiberPoolState.HasSlots s) :
    FibersKept s ∧ ∀ a key fiber t, ¬ s.HasSlots (.removeReference a key fiber) →
      fiberPoolStep s (.removeReference a key fiber) = some t →
        ∃ u, fiberPoolStep t (.freePass a) = some u ∧ u.failed = true :=
  ⟨(fiberPoolInv_of_run run).kept, fun _ _ _ _ none_ taken => (fiberPoolInv_of_run run).slotless none_ taken⟩

/-- The pool of a worker has no slots exactly where the number of stacks is unlimited and no local stacks
are to be kept. -/
theorem slotless_iff (user : StackSettings) :
    user.initGlobalState.fiberPoolSize = 0 ↔ user.maxStacks = 0 ∧ user.fiberPoolSize = 0 := by
  have positive : ∀ n : Nat, (if n = 0 then 1 else n) ≠ 0 := by
    intro n
    split <;> omega
  simp only [StackSettings.initGlobalState]
  split
  · rename_i limited
    exact ⟨fun zero => absurd zero (positive _), fun unlimited => absurd unlimited.1 (Nat.ne_of_gt limited)⟩
  · omega

/-! ### Runs -/

/-- Before the pools are created. -/
def noPools (user : StackSettings) : FiberPoolState (Fin 1) (Fin 3) where
  settings := user.initGlobalState
  pools _ := none
  live := []
  inUse := []
  pc _ := .idle
  failed := false

theorem noPools_start {user : StackSettings} (admissible : user.Admissible) :
    (fiberPoolMachine (Fin 1) (Fin 3)).start (noPools user) :=
  ⟨⟨user, admissible, rfl⟩, fun _ => rfl, rfl, rfl, fun _ => rfl, rfl⟩

/-- One worker and one stack. -/
def oneStack : StackSettings := ⟨1, 64, 18, 1⟩

theorem oneStack_admissible : oneStack.Admissible :=
  ⟨by decide, by decide, .inl (by decide), by decide⟩

/-- The worker gives back a second fiber, for which its pool has no free slot. -/
def giveTwoBack : List (FiberPoolLabel (Fin 1) (Fin 3)) :=
  [.createPool none [0], .createPool (some 0) [], .allocate 0 (some 0), .allocateFromHeap 0 (some 1),
    .allocate 0 (some 0), .allocateFromHeap 0 (some 2), .removeReference 0 (some 0) 1,
    .removeReference 0 (some 0) 2, .freePass 0]

theorem fiber_pools_keep_fibers_two :
    (((fiberPoolMachine (Fin 1) (Fin 3)).after (noPools oneStack) giveTwoBack).pools (some 0)).map
        (·.fibers) = some [2] ∧
      FibersKept ((fiberPoolMachine (Fin 1) (Fin 3)).after (noPools oneStack) giveTwoBack) :=
  ⟨by decide, (fiber_pools_keep_fibers
    (.after (.start (noPools_start oneStack_admissible)) giveTwoBack (by decide))).1⟩

/-- No limit on the stacks, and none kept. -/
def noStacksKept : StackSettings := ⟨1, 0, 0, 0⟩

theorem noStacksKept_admissible : noStacksKept.Admissible :=
  ⟨by decide, by decide, .inl (by decide), by decide⟩

/-- The worker gives a fiber back. -/
def giveOneBack : List (FiberPoolLabel (Fin 1) (Fin 3)) :=
  [.createPool none [], .createPool (some 0) [], .allocate 0 (some 0), .allocateFromHeap 0 (some 1),
    .removeReference 0 (some 0) 1, .freePass 0]

/-- The assertion on the free slot fails. -/
theorem fiber_pools_assertion_fails :
    ¬ ∀ s, (fiberPoolMachine (Fin 1) (Fin 3)).Reachable s → s.failed = false := by
  intro sound
  have reachable := Machine.Reachable.after (.start (noPools_start noStacksKept_admissible)) giveOneBack
  exact absurd (sound _ reachable) (by decide)

end CilkL
