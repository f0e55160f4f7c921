/-
Module: CilkL.Library.Grouping
Layer: Library
Purpose: Ways to put brackets into a combination of the members of a sequence. What an operation makes of a
  sequence does not depend on the brackets where it is the combination of what it makes of any two parts.
Imports: Mathlib.Tactic.TypeStar
Trusted boundary: none
Main exports: Grouping, Grouping.leaves, Grouping.parts, Grouping.fold, Grouping.fold_eq
Open obligations: none
-/
import Mathlib.Tactic.TypeStar

namespace CilkL

/-- A sequence with brackets: which neighbours are combined first. -/
inductive Grouping (α : Type*) where
  | leaf (a : α)
  | join (left right : Grouping α)
deriving DecidableEq, Repr

namespace Grouping

variable {α β : Type*}

/-- The members from left to right. -/
def leaves : Grouping α → List α
  | leaf a => [a]
  | join left right => left.leaves ++ right.leaves

/-- All combinations that are made on the way, with the last one. -/
def parts : Grouping α → List (Grouping α)
  | leaf a => [leaf a]
  | join left right => join left right :: (left.parts ++ right.parts)

/-- Combine what `f` makes of the members. -/
def fold (op : β → β → β) (f : α → β) : Grouping α → β
  | leaf a => f a
  | join left right => op (left.fold op f) (right.fold op f)

theorem leaves_ne_nil (g : Grouping α) : g.leaves ≠ [] := by
  induction g with
  | leaf a => exact List.cons_ne_nil a []
  | join left right ihLeft _ => exact List.append_ne_nil_of_left_ne_nil ihLeft _

theorem self_mem_parts (g : Grouping α) : g ∈ g.parts := by
  cases g <;> exact List.mem_cons_self

/-- What holds of all parts of a combination holds of the two that it is made of, and of itself. -/
theorem forall_parts_join {P : Grouping α → Prop} {left right : Grouping α} :
    (∀ part ∈ (join left right).parts, P part) ↔
      (∀ part ∈ left.parts, P part) ∧ (∀ part ∈ right.parts, P part) ∧ P (join left right) := by
  rw [parts, List.forall_mem_cons, List.forall_mem_append]
  constructor
  · rintro ⟨here, inLeft, inRight⟩
    exact ⟨inLeft, inRight, here⟩
  · rintro ⟨inLeft, inRight, here⟩
    exact ⟨here, inLeft, inRight⟩

/-- The brackets do not count where the operation combines what is right of two sequences to what is right of
both, one after the other. -/
theorem fold_eq {op : β → β → β} {f : α → β} {spec : List α → β → Prop} (one : ∀ a, spec [a] (f a))
    (both : ∀ l l' b b', spec l b → spec l' b' → spec (l ++ l') (op b b')) (g : Grouping α) :
    spec g.leaves (g.fold op f) := by
  induction g with
  | leaf a => exact one a
  | join left right ihLeft ihRight => exact both _ _ _ _ ihLeft ihRight

end Grouping

end CilkL
