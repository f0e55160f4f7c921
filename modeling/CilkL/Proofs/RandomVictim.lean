/-
Module: CilkL.Proofs.RandomVictim
Layer: Proofs
Purpose: A seed from 1 to 2^32 - 6 leads to another such seed. In all runs the seed of a worker is in that range
  once its scheduling function has started, and 0 before; user workers and I/O workers draw from it before. The
  victims are workers of the table, other than the thief and than each other where they should be.
Imports: CilkL.Runtime.RandomVictim, Mathlib.Data.Nat.ModEq, Mathlib.Tactic.NormNum.GCD
Trusted boundary: none
Main exports: SeedValid, myrandState_valid, myrandState_ne, RandInvariant, random_victims
Open obligations: none
-/
import CilkL.Runtime.RandomVictim
import Mathlib.Data.Nat.ModEq
import Mathlib.Tactic.NormNum.GCD

namespace CilkL

/-! ### Multiplication modulo a number -/

section Multiplicative

variable {a m x : Nat}

/-- A multiplier that has no factor in common with the modulus leads to 0 from there only. -/
theorem mul_mod_pos (coprime : Nat.Coprime a m) (positive : 0 < x) (below : x < m) : 0 < a * x % m := by
  refine Nat.pos_of_ne_zero fun zero => ?_
  have divides : m ∣ x := coprime.symm.dvd_of_dvd_mul_left (Nat.dvd_of_mod_eq_zero zero)
  exact absurd (Nat.le_of_dvd positive divides) (Nat.not_le.mpr below)

/-- It leads to the same number from 0 only if that holds of the multiplier less 1 as well. -/
theorem mul_mod_ne (coprime : Nat.Coprime (a - 1) m) (one : 1 ≤ a) (positive : 0 < x) (below : x < m) :
    a * x % m ≠ x := by
  intro same
  have congruent : x ≡ a * x [MOD m] := by rw [Nat.ModEq, Nat.mod_eq_of_lt below, same]
  have divides : m ∣ (a - 1) * x := by
    rw [Nat.sub_mul, Nat.one_mul]
    exact (Nat.modEq_iff_dvd' (Nat.le_mul_of_pos_left x one)).mp congruent
  have divides : m ∣ x := coprime.symm.dvd_of_dvd_mul_left divides
  exact absurd (Nat.le_of_dvd positive divides) (Nat.not_le.mpr below)

end Multiplicative

/-! ### The generator -/

/-- A member of the multiplicative group. -/
def SeedValid (seed : UInt32) : Prop := 1 ≤ seed.toNat ∧ seed.toNat ≤ 2 ^ 32 - 6

theorem myrandState_toNat (state : UInt32) : (myrandState state).toNat = 69070 * state.toNat % (2 ^ 32 - 5) := by
  have small := state.toNat_lt
  simp only [myrandState, rngMul, rngMod, UInt64.toNat_toUInt32, UInt64.toNat_mod, UInt64.toNat_mul,
    UInt32.toNat_toUInt64, UInt32.reduceToNat]
  rw [Nat.mod_eq_of_lt (a := 69070 * state.toNat) (by omega)]
  exact Nat.mod_eq_of_lt (by omega)

/-- `myrand` leads from a valid seed to a valid seed. -/
theorem myrandState_valid {seed : UInt32} (valid : SeedValid seed) : SeedValid (myrandState seed) := by
  unfold SeedValid
  rw [myrandState_toNat]
  have positive := mul_mod_pos (a := 69070) (m := 2 ^ 32 - 5) (by norm_num) valid.1 (by have := valid.2; omega)
  exact ⟨positive, by omega⟩

/-- It leads to another one. -/
theorem myrandState_ne {seed : UInt32} (valid : SeedValid seed) : myrandState seed ≠ seed := by
  intro same
  have stuck := myrandState_toNat seed
  rw [same] at stuck
  exact mul_mod_ne (a := 69070) (m := 2 ^ 32 - 5) (by norm_num) (by norm_num) valid.1
    (by have := valid.2; omega) stuck.symm

/-- `mysrand` leaves a valid seed. -/
theorem mysrandState_valid (seed : UInt32) : SeedValid (mysrandState seed) := by
  have below : (seed % rngMod).toNat < 2 ^ 32 - 5 := by
    rw [UInt32.toNat_mod]
    exact Nat.mod_lt _ (by decide)
  unfold mysrandState SeedValid
  by_cases zero : seed % rngMod = 0
  · simp [zero]
  · have positive : (seed % rngMod).toNat ≠ 0 := fun same => zero (UInt32.toNat_inj.mp same)
    simp only [if_neg zero, UInt32.add_zero]
    omega

/-! ### All runs -/

variable {ω : Type} {config : VictimConfig ω} {s : RandState ω} {w : ω}

/-- The seed that `make_worker` stores stays where it is until the scheduling function starts. -/
structure RandInvariant (s : RandState ω) : Prop where
  started : ∀ w, s.scheduling w = true → SeedValid (s.randSeed w)
  unset : ∀ w, s.scheduling w = false → s.randSeed w = 0

theorem not_seedValid_zero : ¬SeedValid 0 := fun valid => absurd valid.1 (by decide)

theorem RandInvariant.valid_iff (inv : RandInvariant s) (w : ω) :
    SeedValid (s.randSeed w) ↔ s.scheduling w = true := by
  refine ⟨fun valid => ?_, inv.started w⟩
  by_contra notStarted
  rw [inv.unset w ((Bool.not_eq_true _).mp notStarted)] at valid
  exact not_seedValid_zero valid

variable [DecidableEq ω]

theorem randInvariant_step {s' : RandState ω} {a : RandLabel ω} (inv : RandInvariant s)
    (taken : randStep config s a = some s') : RandInvariant s' := by
  cases a with
  | schedulerInit w =>
      simp only [randStep, Option.ite_none_right_eq_some, Option.some.injEq] at taken
      obtain ⟨-, rfl⟩ := taken
      constructor <;> intro v scheduling <;> dsimp only at scheduling ⊢ <;> by_cases same : v = w
      · rw [same, setAt_self]
        exact mysrandState_valid _
      · rw [setAt_other same] at scheduling ⊢
        exact inv.started v scheduling
      · rw [same, setAt_self] at scheduling
        cases scheduling
      · rw [setAt_other same] at scheduling ⊢
        exact inv.unset v scheduling
  | draw w site =>
      simp only [randStep, Option.ite_none_right_eq_some, Option.some.injEq] at taken
      obtain ⟨-, rfl⟩ := taken
      constructor <;> intro v scheduling <;> dsimp only at scheduling ⊢ <;> by_cases same : v = w
      · rw [same, setAt_self]
        exact myrandState_valid (inv.started w (same ▸ scheduling))
      · rw [setAt_other same]
        exact inv.started v scheduling
      · -- A seed of 0 stays.
        rw [same, setAt_self, inv.unset w (same ▸ scheduling)]
        decide
      · rw [setAt_other same]
        exact inv.unset v scheduling

/-! ### The victims -/

/-- The victim of `random_steal` is in the table, and not the thief if that has no deques to resume itself. -/
theorem randomStealVictim_other {P : Nat} (positive : 1 ≤ P) (self : Int) (ownDeques : Nat) (drawn : UInt32) :
    randomStealVictim P self ownDeques drawn < P ∧
      (1 < P → ownDeques = 0 → (randomStealVictim P self ownDeques drawn : Int) ≠ self) := by
  unfold randomStealVictim
  by_cases one : P = 1
  · simp [one]
  · have others : drawn.toNat % (P - 1) < P - 1 := Nat.mod_lt _ (by omega)
    have all : drawn.toNat % P < P := Nat.mod_lt _ positive
    simp only [if_neg one]
    split
    · split <;> omega
    · exact ⟨all, fun _ none => by omega⟩

/-- The two victims are two workers of the table. -/
theorem twoVictims_distinct {P : Nat} (more : 1 < P) (drawn drawn2 : UInt32) :
    (twoVictims P drawn drawn2).1 < P ∧ (twoVictims P drawn drawn2).2 < P ∧
      (twoVictims P drawn drawn2).1 ≠ (twoVictims P drawn drawn2).2 := by
  have first : drawn.toNat % P < P := Nat.mod_lt _ (by omega)
  have second : drawn2.toNat % (P - 1) < P - 1 := Nat.mod_lt _ (by omega)
  unfold twoVictims
  simp only
  split <;> omega

/-- `choose_deque` takes the active deque or one that the pool has, and not the active one of its own worker. -/
theorem chooseDequeIndex_le (isVictim resumable : Bool) (size : Nat) (drawn : UInt32) :
    chooseDequeIndex isVictim resumable size drawn ≤ size ∧
      (isVictim = true → 0 < size → 0 < chooseDequeIndex isVictim resumable size drawn) := by
  unfold chooseDequeIndex
  by_cases nonempty : 0 < size
  · have pool : drawn.toNat % size < size := Nat.mod_lt _ nonempty
    have all : drawn.toNat % (size + 1) < size + 1 := Nat.mod_lt _ (by omega)
    cases resumable <;> cases isVictim <;> simp [nonempty] <;> omega
  · obtain rfl := Nat.eq_zero_of_not_pos nonempty
    cases resumable <;> cases isVictim <;> simp [Nat.mod_one]

/-! ### Together -/

/-- In all runs a worker that draws has a valid seed exactly if its scheduling function has started. From a valid
seed all that follow are valid, and each differs from the one before. The victims are always as they should be:
in the table, other than the thief that looks for another, and two different ones where there are two. -/
theorem random_victims (reachable : (randMachine config).Reachable s) :
    (∀ w site, CallsMyrand config s w site → (SeedValid (s.randSeed w) ↔ s.scheduling w = true)) ∧
    (∀ seed, SeedValid seed → SeedValid (myrandState seed) ∧ myrandState seed ≠ seed) ∧
    (∀ w ownDeques drawn, 1 ≤ config.P →
      randomStealVictim config.P (config.self w) ownDeques drawn < config.P ∧ (1 < config.P → ownDeques = 0 →
        (randomStealVictim config.P (config.self w) ownDeques drawn : Int) ≠ config.self w)) ∧
    (∀ drawn drawn2, 1 < config.P → (twoVictims config.P drawn drawn2).1 < config.P ∧
      (twoVictims config.P drawn drawn2).2 < config.P ∧
      (twoVictims config.P drawn drawn2).1 ≠ (twoVictims config.P drawn drawn2).2) ∧
    ∀ isVictim resumable size drawn, chooseDequeIndex isVictim resumable size drawn ≤ size ∧
      (isVictim = true → 0 < size → 0 < chooseDequeIndex isVictim resumable size drawn) := by
  have inv : RandInvariant s := by
    refine @Machine.Reachable.invariant _ _ _ RandInvariant ?_ ?_ _ reachable
    · rintro _ rfl
      exact ⟨fun _ => nofun, fun _ _ => rfl⟩
    · exact fun _ _ _ _ inv taken => randInvariant_step inv taken
  exact ⟨fun w _ _ => inv.valid_iff w, fun _ valid => ⟨myrandState_valid valid, myrandState_ne valid⟩,
    fun w ownDeques drawn positive => randomStealVictim_other positive (config.self w) ownDeques drawn,
    fun drawn drawn2 more => twoVictims_distinct more drawn drawn2, chooseDequeIndex_le⟩

/-! ### A worker for I/O -/

/-- A system worker and a worker for I/O. -/
def systemAndIo : VictimConfig Bool := ⟨2, fun w => if w then 3 else 1, fun w => if w then .io else .system⟩

theorem random_victims_system : SeedValid
    (((randMachine systemAndIo).after ⟨fun _ => 0, fun _ => false⟩ [.schedulerInit false]).randSeed false) := by
  have run : (randMachine systemAndIo).Reachable
    ((randMachine systemAndIo).after ⟨fun _ => 0, fun _ => false⟩ [.schedulerInit false]) := .after (.start rfl) _
  exact ((random_victims run).1 false .makeResumable (by decide)).mpr (by decide)

/-- A worker for I/O that makes a deque resumable draws from a seed of 0. -/
theorem io_worker_seed_zero : ¬∀ s, (randMachine systemAndIo).Reachable s →
    ∀ w site, CallsMyrand systemAndIo s w site → SeedValid (s.randSeed w) := by
  intro valid
  exact not_seedValid_zero (valid _ (.start rfl) true .makeResumable (by decide))

end CilkL
