/-
Module: CilkL.Library.MemoryLists
Layer: Library
Purpose: Singly linked lists that live in one memory. A cell's address is its identity, address 0 ends a
  list, and the first word of a cell is its link. A store into one cell leaves the lists alone that do not
  contain it, so an allocator's lists can be taken apart and put together one cell at a time. The cells of
  a finite family of lists are counted as one multiset, in which a cell that moves from one list to
  another changes nothing.
Imports: Mathlib.Algebra.BigOperators.Group.Finset.Basic, Mathlib.Algebra.Group.Int.Defs,
  Mathlib.Data.Fintype.Basic, Mathlib.Logic.Function.Basic
Trusted boundary: none
Main exports: Chain, Chain.store, Chain.push, Chain.cut, sum_update
Open obligations: none
-/
import Mathlib.Algebra.BigOperators.Group.Finset.Basic
import Mathlib.Algebra.Group.Int.Defs
import Mathlib.Data.Fintype.Basic
import Mathlib.Logic.Function.Basic

namespace CilkL

variable {cdr : Nat → Nat} {head x y : Nat} {xs ys : List Nat}

/-- The list that starts at `head` consists of these cells. -/
def Chain (cdr : Nat → Nat) : Nat → List Nat → Prop
  | head, [] => head = 0
  | head, x :: xs => head = x ∧ x ≠ 0 ∧ Chain cdr (cdr x) xs

/-- The null pointer is the empty list. -/
theorem Chain.eq_nil (chain : Chain cdr 0 xs) : xs = [] := by
  cases xs with
  | nil => rfl
  | cons x xs => exact absurd chain.1.symm chain.2.1

/-- A pointer to a cell is a list that starts with it. -/
theorem Chain.eq_cons (chain : Chain cdr head xs) (nonnull : head ≠ 0) :
    ∃ rest, xs = head :: rest ∧ Chain cdr (cdr head) rest := by
  cases xs with
  | nil => exact absurd chain nonnull
  | cons x xs =>
    obtain ⟨rfl, -, rest⟩ := chain
    exact ⟨xs, rfl, rest⟩

/-- No cell of a list is at address 0. -/
theorem Chain.ne_zero (chain : Chain cdr head xs) : ∀ x ∈ xs, x ≠ 0 := by
  induction xs generalizing head with
  | nil => simp
  | cons x xs ih =>
    intro y isCell
    rcases List.mem_cons.mp isCell with first | later
    · exact first ▸ chain.2.1
    · exact ih chain.2.2 y later

/-- A store into a cell of another list. -/
theorem Chain.store (chain : Chain cdr head xs) {value : Nat} (outside : y ∉ xs) :
    Chain (Function.update cdr y value) head xs := by
  induction xs generalizing head with
  | nil => exact chain
  | cons x xs ih =>
    have other : x ≠ y := fun same => outside (same ▸ List.mem_cons_self)
    refine ⟨chain.1, chain.2.1, ?_⟩
    rw [Function.update_of_ne other]
    exact ih chain.2.2 fun isCell => outside (List.mem_cons_of_mem x isCell)

/-- A cell put in front of a list. -/
theorem Chain.push (chain : Chain cdr head xs) (nonnull : y ≠ 0) (outside : y ∉ xs) :
    Chain (Function.update cdr y head) y (y :: xs) := by
  refine ⟨rfl, nonnull, ?_⟩
  rw [Function.update_self]
  exact chain.store outside

/-- A cell taken out from behind another one. -/
theorem Chain.cut {p q : Nat} (chain : Chain cdr head (xs ++ p :: q :: ys))
    (nodup : (xs ++ p :: q :: ys).Nodup) :
    cdr p = q ∧ Chain (Function.update cdr p (cdr q)) head (xs ++ p :: ys) := by
  induction xs generalizing head with
  | nil =>
    obtain ⟨rfl, nonnull, isNext, -, rest⟩ := chain
    have outside : head ∉ ys := fun isCell =>
      (List.nodup_cons.mp nodup).1 (List.mem_cons_of_mem q isCell)
    refine ⟨isNext, rfl, nonnull, ?_⟩
    rw [Function.update_self]
    exact rest.store outside
  | cons x xs ih =>
    obtain ⟨rfl, nonnull, rest⟩ := chain
    obtain ⟨fresh, nodup⟩ := List.nodup_cons.mp nodup
    obtain ⟨isNext, cut⟩ := ih rest nodup
    have other : head ≠ p := fun same => fresh (by simp [same])
    refine ⟨isNext, rfl, nonnull, ?_⟩
    rw [Function.update_of_ne other]
    exact cut

/-- The last cell of a list links to nothing. -/
theorem Chain.last {p : Nat} (chain : Chain cdr head (xs ++ [p])) : cdr p = 0 := by
  induction xs generalizing head with
  | nil => exact chain.2.2
  | cons x xs ih => exact ih chain.2.2

variable {ι M : Type*} [Fintype ι] [DecidableEq ι] [AddCommMonoid M]

/-- What replacing one list of a family does to a sum over the family. -/
theorem sum_update {α : Type*} (f : ι → α → M) (lists : ι → α) (i : ι) (new : α) :
    (∑ j, f j (Function.update lists i new j)) + f i (lists i) = f i new + ∑ j, f j (lists j) := by
  have same : ∀ j ∈ Finset.univ.erase i, f j (Function.update lists i new j) = f j (lists j) := by
    intro j isOther
    rw [Function.update_of_ne (Finset.ne_of_mem_erase isOther)]
  rw [← Finset.add_sum_erase _ _ (Finset.mem_univ i), ← Finset.add_sum_erase _ _ (Finset.mem_univ i),
    Finset.sum_congr rfl same, Function.update_self]
  exact (add_assoc _ _ _).trans (congrArg _ (add_comm _ _))

end CilkL
