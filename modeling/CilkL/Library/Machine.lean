/-
Module: CilkL.Library.Machine
Layer: Library
Purpose: Executable labelled machines and their runs. A machine is a predicate of initial states and a
  partial step function on labels; a label carries every choice the environment or the scheduler makes,
  so that one list of labels is one interleaving. The two rules every later module uses are here:
  an inductive invariant holds in every reachable state, and it holds in every state reached by a
  guarded run when only the guarded steps preserve it.
Imports: Mathlib.Tactic.TypeStar
Trusted boundary: none
Main exports: Machine, Machine.exec, Machine.after, Machine.Reachable, Machine.GuardedRun,
  Machine.Reachable.invariant, Machine.GuardedRun.invariant, Machine.AllowedAlong, Machine.HoldsAlong
Open obligations: none
-/
import Mathlib.Tactic.TypeStar

namespace CilkL

/-- A machine with states `σ` and labels `α`. A step that is not enabled returns `none`. -/
structure Machine (σ α : Type*) where
  /-- The states a run may start from. -/
  start : σ → Prop
  /-- One atomic step under a label. -/
  step : σ → α → Option σ

section SmallTypes

/-! Labels name workers, frames and queues; in a list of labels that is run these are numerals. -/

instance neZeroOne : @NeZero Nat Zero.ofOfNat0 1 := ⟨Nat.one_ne_zero⟩

instance neZeroTwo : @NeZero Nat Zero.ofOfNat0 2 := ⟨Nat.succ_ne_zero 1⟩

instance neZeroThree : @NeZero Nat Zero.ofOfNat0 3 := ⟨Nat.succ_ne_zero 2⟩

instance neZeroFour : @NeZero Nat Zero.ofOfNat0 4 := ⟨Nat.succ_ne_zero 3⟩

instance neZeroFive : @NeZero Nat Zero.ofOfNat0 5 := ⟨Nat.succ_ne_zero 4⟩

end SmallTypes

namespace Machine

variable {σ α : Type*} (M : Machine σ α)

/-- Execute a list of labels from a state; `none` when some label is not enabled where it is due. -/
def exec (s : σ) : List α → Option σ
  | [] => some s
  | a :: as =>
      match M.step s a with
      | none => none
      | some s' => exec s' as

/-- The states some interleaving reaches. -/
inductive Reachable : σ → Prop where
  | start {s : σ} (initial : M.start s) : Reachable s
  | step {s s' : σ} {a : α} (before : Reachable s) (taken : M.step s a = some s') : Reachable s'

/-- The states reached by runs all of whose steps satisfy `guard` in the state before the step. -/
inductive GuardedRun (guard : σ → α → Prop) : σ → Prop where
  | start {s : σ} (initial : M.start s) : GuardedRun guard s
  | step {s s' : σ} {a : α} (before : GuardedRun guard s) (allowed : guard s a)
      (taken : M.step s a = some s') : GuardedRun guard s'

variable {M}

/-- A property of the initial states that every step preserves holds in every reachable state. The
    preservation hypothesis may use that the state before the step is reachable. -/
theorem Reachable.invariant {inv : σ → Prop} (initial : ∀ s, M.start s → inv s)
    (preserved : ∀ s a s', M.Reachable s → inv s → M.step s a = some s' → inv s')
    {s : σ} (reachable : M.Reachable s) : inv s := by
  induction reachable with
  | start h => exact initial _ h
  | step before taken ih => exact preserved _ _ _ before ih taken

/-- The invariant rule for guarded runs: only steps that satisfy the guard need to preserve it. -/
theorem GuardedRun.invariant {guard : σ → α → Prop} {inv : σ → Prop}
    (initial : ∀ s, M.start s → inv s)
    (preserved : ∀ s a s', inv s → guard s a → M.step s a = some s' → inv s')
    {s : σ} (run : M.GuardedRun guard s) : inv s := by
  induction run with
  | start h => exact initial _ h
  | step _ allowed taken ih => exact preserved _ _ _ ih allowed taken

/-- A guarded run is a run. -/
theorem GuardedRun.reachable {guard : σ → α → Prop} {s : σ} (run : M.GuardedRun guard s) :
    M.Reachable s := by
  induction run with
  | start h => exact .start h
  | step _ _ taken ih => exact .step ih taken

/-- What an execution reaches from a reachable state is reachable. -/
theorem Reachable.exec {s s' : σ} {as : List α} (reachable : M.Reachable s)
    (run : M.exec s as = some s') : M.Reachable s' := by
  induction as generalizing s with
  | nil =>
      simp only [Machine.exec, Option.some.injEq] at run
      exact run ▸ reachable
  | cons a as ih =>
      simp only [Machine.exec] at run
      cases taken : M.step s a with
      | none => simp [taken] at run
      | some next =>
          rw [taken] at run
          exact ih (.step reachable taken) run

variable (M) in
/-- Where a list of labels leads; the state itself when the list is not enabled. -/
def after (s : σ) (as : List α) : σ := (M.exec s as).getD s

/-- `after` stays among the reachable states. -/
theorem Reachable.after {s : σ} (reachable : M.Reachable s) (as : List α) :
    M.Reachable (M.after s as) := by
  unfold Machine.after
  cases run : M.exec s as with
  | none => exact reachable
  | some s' => exact reachable.exec run

variable (M) in
/-- Every label of the list satisfies the guard where it is due. -/
def AllowedAlong (guard : σ → α → Prop) (s : σ) : List α → Prop
  | [] => True
  | a :: as => guard s a ∧ ∀ s', M.step s a = some s' → AllowedAlong guard s' as

instance AllowedAlong.decidable (guard : σ → α → Prop) [∀ s a, Decidable (guard s a)] :
    (as : List α) → (s : σ) → Decidable (M.AllowedAlong guard s as)
  | [], _ => inferInstanceAs (Decidable True)
  | a :: as, s =>
      match taken : M.step s a with
      | none => decidable_of_iff (guard s a) (by simp [AllowedAlong, taken])
      | some s' =>
          have := AllowedAlong.decidable guard as s'
          decidable_of_iff (guard s a ∧ M.AllowedAlong guard s' as) (by simp [AllowedAlong, taken])

/-- Guards that agree allow the same lists of labels. -/
theorem AllowedAlong.congr {guard guard' : σ → α → Prop} (same : ∀ s a, guard s a ↔ guard' s a) {s : σ}
    {as : List α} : M.AllowedAlong guard s as ↔ M.AllowedAlong guard' s as := by
  induction as generalizing s with
  | nil => exact Iff.rfl
  | cons a as ih => exact and_congr (same s a) (forall_congr' fun _ => imp_congr_right fun _ => ih)

theorem GuardedRun.exec {guard : σ → α → Prop} {s s' : σ} {as : List α}
    (before : M.GuardedRun guard s) (allowed : M.AllowedAlong guard s as)
    (run : M.exec s as = some s') : M.GuardedRun guard s' := by
  induction as generalizing s with
  | nil =>
      simp only [Machine.exec, Option.some.injEq] at run
      exact run ▸ before
  | cons a as ih =>
      simp only [Machine.exec] at run
      cases taken : M.step s a with
      | none => simp [taken] at run
      | some next =>
          rw [taken] at run
          exact ih (.step before allowed.1 taken) (allowed.2 next taken) run

/-- `after` stays among the states of guarded runs while the labels satisfy the guard. -/
theorem GuardedRun.after {guard : σ → α → Prop} {s : σ} (before : M.GuardedRun guard s)
    (as : List α) (allowed : M.AllowedAlong guard s as) : M.GuardedRun guard (M.after s as) := by
  unfold Machine.after
  cases run : M.exec s as with
  | none => exact before
  | some s' => exact before.exec allowed run

variable (M) in
/-- Every state that a list of labels leads through satisfies `P`, the first one included. -/
def HoldsAlong (P : σ → Prop) (s : σ) : List α → Prop
  | [] => P s
  | a :: as => P s ∧ ∀ s', M.step s a = some s' → HoldsAlong P s' as

/-- Good labels alone keep `P` along the way, whatever a bad one does. -/
theorem holdsAlong_of_good {inv P : σ → Prop} {good : α → Prop} (sound : ∀ s, inv s → P s)
    (keeps : ∀ s a s', inv s → good a → M.step s a = some s' → inv s')
    {s : σ} {as : List α} (start : inv s) (all : ∀ a ∈ as, good a) : M.HoldsAlong P s as := by
  induction as generalizing s with
  | nil => exact sound s start
  | cons a as ih =>
      refine ⟨sound s start, fun s' taken => ih (keeps s a s' start ?_ taken) ?_⟩
      · exact all a List.mem_cons_self
      · exact fun b isLater => all b (List.mem_cons_of_mem _ isLater)

/-- If good labels keep an invariant and a bad label leads out of `P`, then a list of labels along which
`P` holds has no bad label. -/
theorem good_of_holdsAlong {inv P : σ → Prop} {good : α → Prop}
    (keeps : ∀ s a s', inv s → good a → M.step s a = some s' → inv s')
    (breaks : ∀ s a s', inv s → ¬ good a → M.step s a = some s' → ¬ P s')
    {s : σ} {as : List α} (start : inv s) (enabled : (M.exec s as).isSome)
    (along : M.HoldsAlong P s as) : ∀ a ∈ as, good a := by
  induction as generalizing s with
  | nil => simp
  | cons a as ih =>
      simp only [Machine.exec] at enabled
      cases taken : M.step s a with
      | none => simp [taken] at enabled
      | some next =>
          rw [taken] at enabled
          have rest := along.2 next taken
          by_cases isGood : good a
          · exact List.forall_mem_cons.mpr ⟨isGood, ih (keeps s a next start isGood taken) enabled rest⟩
          · refine absurd ?_ (breaks s a next start isGood taken)
            cases as with
            | nil => exact rest
            | cons _ _ => exact rest.1

end Machine

end CilkL
