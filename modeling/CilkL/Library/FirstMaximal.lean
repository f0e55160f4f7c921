/-
Module: CilkL.Library.FirstMaximal
Layer: Library
Purpose: Comparators that define a strict weak order, and the first member of a list that is below no other. The
  first one of two lists in a row is the first one of the left list, or that of the right list if it is above.
Imports: Mathlib.Order.Defs.Unbundled
Trusted boundary: none
Main exports: Comparator, Comparator.reverse, Comparator.comap, Comparator.firstMaximal,
  Comparator.firstMaximal_append
Open obligations: none
-/
import Mathlib.Order.Defs.Unbundled

namespace CilkL

/-- A comparison that defines a strict weak order. -/
structure Comparator (α : Type*) where
  less : α → α → Bool
  strictWeak : IsStrictWeakOrder α fun x y => less x y = true

namespace Comparator

variable {α β : Type*}

/-! ### Rules of a strict weak order -/

theorem irrefl (c : Comparator α) (x : α) : ¬c.less x x = true := c.strictWeak.irrefl x

theorem less_trans (c : Comparator α) {x y z : α} (below : c.less x y = true) (above : c.less y z = true) :
    c.less x z = true := c.strictWeak.trans x y z below above

theorem asymm (c : Comparator α) {x y : α} (below : c.less x y = true) : ¬c.less y x = true :=
  fun above => c.irrefl x (c.less_trans below above)

/-- What is not below is ordered as well. -/
theorem not_less_trans (c : Comparator α) {x y z : α} (first : ¬c.less x y = true) (second : ¬c.less y z = true) :
    ¬c.less x z = true := by
  intro below
  have notAbove : ¬c.less y x = true := fun less => second (c.less_trans less below)
  have notBelow : ¬c.less z y = true := fun less => first (c.less_trans below less)
  exact (c.strictWeak.incomp_trans x y z ⟨first, notAbove⟩ ⟨second, notBelow⟩).1 below

theorem less_of_not_less (c : Comparator α) {x y z : α} (below : c.less x z = true) (notBelow : ¬c.less y z = true) :
    c.less x y = true :=
  Classical.byContradiction fun notLess => c.not_less_trans notLess notBelow below

/-- The reversed comparison. -/
def reverse (c : Comparator α) : Comparator α where
  less x y := c.less y x
  strictWeak :=
    { irrefl := c.irrefl
      trans := fun _ _ _ first second => c.less_trans second first
      incomp_trans := fun x y z first second => (c.strictWeak.incomp_trans x y z first.symm second.symm).symm }

/-- The comparison of what `key` gives. -/
def comap (key : β → α) (c : Comparator α) : Comparator β where
  less x y := c.less (key x) (key y)
  strictWeak :=
    { irrefl := fun x => c.irrefl (key x)
      trans := fun _ _ _ first second => c.less_trans first second
      incomp_trans := fun x y z => c.strictWeak.incomp_trans (key x) (key y) (key z) }

/-! ### The first maximal member -/

/-- The first member that is below no member. -/
def firstMaximal (c : Comparator α) (xs : List α) : Option α := xs.find? fun x => xs.all fun y => !c.less x y

/-- The second of two candidates counts if the first is below it. -/
def better (c : Comparator α) : Option α → Option α → Option α
  | none, right => right
  | some x, none => some x
  | some x, some y => if c.less x y then some y else some x

/-- All that stand before it are below it, and it is below none that stands after it. -/
def IsFirstMaximal (c : Comparator α) (xs : List α) (x : α) : Prop :=
  ∃ before after, xs = before ++ x :: after ∧ (∀ y ∈ before, c.less y x = true) ∧
    ∀ y ∈ after, ¬c.less x y = true

variable {c : Comparator α} {xs ys : List α} {x y : α}

/-- It is below no member at all. -/
theorem IsFirstMaximal.not_less (first : c.IsFirstMaximal xs x) (member : y ∈ xs) : ¬c.less x y = true := by
  obtain ⟨before, after, rfl, below, notBelow⟩ := first
  rcases List.mem_append.mp member with inBefore | inRest
  · exact c.asymm (below y inBefore)
  · rcases List.mem_cons.mp inRest with rfl | inAfter
    · exact c.irrefl y
    · exact notBelow y inAfter

theorem firstMaximal_eq_some : c.firstMaximal xs = some x ↔ c.IsFirstMaximal xs x := by
  simp only [firstMaximal, List.find?_eq_some_iff_append, List.all_eq_true, Bool.not_eq_true']
  constructor
  · rintro ⟨maximal, before, after, rfl, notMaximal⟩
    refine ⟨before, after, rfl, fun y inBefore => ?_, fun y inAfter => ?_⟩
    · -- `y` is below some member, which is not above `x`.
      have below := notMaximal y inBefore
      simp only [Bool.not_eq_eq_eq_not, Bool.not_true, List.all_eq_false] at below
      obtain ⟨z, member, less⟩ := below
      refine c.less_of_not_less (z := z) (by simpa using less) ?_
      simp [maximal z member]
    · simp [maximal y (by simp [inAfter])]
  · intro first
    have notLess := fun y => first.not_less (y := y)
    obtain ⟨before, after, rfl, below, -⟩ := first
    refine ⟨fun y member => by simpa using notLess y member, before, after, rfl, fun y inBefore => ?_⟩
    simp only [Bool.not_eq_eq_eq_not, Bool.not_true, List.all_eq_false]
    exact ⟨x, by simp, by simp [below y inBefore]⟩

/-- The first maximal member of the right list is that of both if the one of the left list is below it. -/
theorem IsFirstMaximal.append_right (left : c.IsFirstMaximal xs x) (right : c.IsFirstMaximal ys y)
    (less : c.less x y = true) : c.IsFirstMaximal (xs ++ ys) y := by
  obtain ⟨before, after, rfl, below, notBelow⟩ := right
  refine ⟨xs ++ before, after, (List.append_assoc _ _ _).symm, fun z member => ?_, notBelow⟩
  rcases List.mem_append.mp member with inLeft | inBefore
  · exact Classical.byContradiction fun notLess => c.not_less_trans (left.not_less inLeft) notLess less
  · exact below z inBefore

theorem IsFirstMaximal.append_left (left : c.IsFirstMaximal xs x) (right : c.IsFirstMaximal ys y)
    (notLess : ¬c.less x y = true) : c.IsFirstMaximal (xs ++ ys) x := by
  obtain ⟨before, after, rfl, below, notBelow⟩ := left
  refine ⟨before, after ++ ys, by simp, below, fun z member => ?_⟩
  rcases List.mem_append.mp member with inAfter | inRight
  · exact notBelow z inAfter
  · exact c.not_less_trans notLess (right.not_less inRight)

@[simp] theorem firstMaximal_nil : c.firstMaximal [] = none := rfl

@[simp] theorem firstMaximal_singleton : c.firstMaximal [x] = some x :=
  firstMaximal_eq_some.mpr ⟨[], [], rfl, by simp, by simp⟩

theorem exists_firstMaximal (nonempty : xs ≠ []) : ∃ x, c.IsFirstMaximal xs x := by
  induction xs with
  | nil => exact absurd rfl nonempty
  | cons x xs ih =>
      have alone : c.IsFirstMaximal [x] x := firstMaximal_eq_some.mp firstMaximal_singleton
      by_cases empty : xs = []
      · exact ⟨x, empty ▸ alone⟩
      · obtain ⟨y, rest⟩ := ih empty
        by_cases less : c.less x y = true
        · exact ⟨y, alone.append_right rest less⟩
        · exact ⟨x, alone.append_left rest less⟩

theorem firstMaximal_eq_none : c.firstMaximal xs = none ↔ xs = [] := by
  refine ⟨fun nothing => Classical.byContradiction fun nonempty => ?_, fun empty => empty ▸ rfl⟩
  obtain ⟨x, first⟩ := exists_firstMaximal (c := c) nonempty
  rw [firstMaximal_eq_some.mpr first] at nothing
  cases nothing

/-- Two lists in a row. -/
theorem firstMaximal_append : c.firstMaximal (xs ++ ys) = c.better (c.firstMaximal xs) (c.firstMaximal ys) := by
  cases left : c.firstMaximal xs with
  | none => rw [firstMaximal_eq_none.mp left, List.nil_append, better]
  | some x =>
      cases right : c.firstMaximal ys with
      | none => rw [firstMaximal_eq_none.mp right, List.append_nil, left, better]
      | some y =>
          rw [better]
          rw [firstMaximal_eq_some] at left right
          split
          case isTrue less => exact firstMaximal_eq_some.mpr (left.append_right right less)
          case isFalse notLess => exact firstMaximal_eq_some.mpr (left.append_left right notLess)

end Comparator

end CilkL
