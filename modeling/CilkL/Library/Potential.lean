/-
Module: CilkL.Library.Potential
Layer: Library
Purpose: Runs that come to an end. A potential in the natural numbers that every step from a reachable state
  lowers bounds the length of every run, so that every run can be prolonged to one that halts.
Imports: CilkL.Library.Machine
Trusted boundary: none
Main exports: Machine.Halted, Machine.Lowers, Machine.Lowers.length_le, Machine.exists_run_to,
  Machine.Lowers.exists_halted
Open obligations: none
-/
import CilkL.Library.Machine

namespace CilkL.Machine

variable {σ α : Type*} {M : Machine σ α}

variable (M) in
/-- No step is enabled. -/
def Halted (s : σ) : Prop := ∀ a, M.step s a = none

variable (M) in
/-- Every step from a reachable state lowers the potential. -/
def Lowers (potential : σ → Nat) : Prop :=
  ∀ s a s', M.Reachable s → M.step s a = some s' → potential s' < potential s

/-- A state that is not halted has a step. -/
theorem exists_step_of_not_halted {s : σ} (running : ¬ M.Halted s) : ∃ a s', M.step s a = some s' := by
  obtain ⟨a, enabled⟩ := Classical.not_forall.1 running
  exact ⟨a, Option.ne_none_iff_exists'.1 enabled⟩

/-- A run is no longer than what it takes off the potential. -/
theorem Lowers.length_le {potential : σ → Nat} (lowers : M.Lowers potential) {s s' : σ} {as : List α}
    (reachable : M.Reachable s) (run : M.exec s as = some s') :
    as.length + potential s' ≤ potential s := by
  induction as generalizing s with
  | nil =>
      simp only [Machine.exec, Option.some.injEq] at run
      simp [run]
  | cons a as ih =>
      simp only [Machine.exec] at run
      cases taken : M.step s a with
      | none => simp [taken] at run
      | some next =>
          rw [taken] at run
          have rest := ih (.step reachable taken) run
          have first := lowers s a next reachable taken
          simp only [List.length_cons]
          omega

/-- Where every reachable state that is not a goal has a step of some kind that lowers the potential, every
reachable state has a run of such steps to a goal. -/
theorem exists_run_to {potential : σ → Nat} {goal : σ → Prop} {allowed : α → Prop}
    (progress : ∀ s, M.Reachable s → ¬ goal s →
      ∃ a s', allowed a ∧ M.step s a = some s' ∧ potential s' < potential s)
    {s : σ} (reachable : M.Reachable s) :
    ∃ as s', (∀ a ∈ as, allowed a) ∧ M.exec s as = some s' ∧ goal s' := by
  induction bound : potential s using Nat.strongRecOn generalizing s with
  | ind n ih =>
      by_cases isGoal : goal s
      · exact ⟨[], s, by simp, rfl, isGoal⟩
      · obtain ⟨a, next, isAllowed, taken, lower⟩ := progress s reachable isGoal
        obtain ⟨as, s', allAllowed, run, atGoal⟩ :=
          ih (potential next) (bound ▸ lower) (.step reachable taken) rfl
        refine ⟨a :: as, s', ?_, ?_, atGoal⟩
        · intro b member
          rcases List.mem_cons.1 member with rfl | later
          · exact isAllowed
          · exact allAllowed b later
        · simp only [Machine.exec, taken]
          exact run

/-- Every reachable state has a run to a halted one. -/
theorem Lowers.exists_halted {potential : σ → Nat} (lowers : M.Lowers potential) {s : σ}
    (reachable : M.Reachable s) : ∃ as s', M.exec s as = some s' ∧ M.Halted s' := by
  have progress : ∀ s, M.Reachable s → ¬ M.Halted s →
      ∃ a s', True ∧ M.step s a = some s' ∧ potential s' < potential s := by
    intro s reachable running
    obtain ⟨a, next, taken⟩ := exists_step_of_not_halted running
    exact ⟨a, next, trivial, taken, lowers s a next reachable taken⟩
  obtain ⟨as, s', _, run, halted⟩ := exists_run_to progress reachable
  exact ⟨as, s', run, halted⟩

end CilkL.Machine
