/-
Module: CilkL.Runtime.ReducerMinMax
Layer: Runtime
Purpose: The views of the minimum and maximum reducers: the content classes with and without an index, each as
  the general class and as its "is_set optimization", `calc` and `reduce` of `view_base`, and what a strand and
  the reductions after it do with a view.
Imports: CilkL.Library.FirstMaximal
Trusted boundary: human-reviewed spec (translated from reducer_min_max.h)
Main exports: MinMaxContent, ContentClass, ViewBase, NumericLimits, ViewHistory, ViewBase.run
Open obligations: none
-/
import CilkL.Library.FirstMaximal

namespace CilkL

/-- The members of a content object: `value()`, which is a pair for the index classes, and `m_is_set`. -/
structure MinMaxContent (V : Type) where
  value : V
  isSet : Bool
deriving DecidableEq, Repr

/-- A content class with the value type `V` and the compared type `T`. -/
structure ContentClass (V T : Type) where
  /-- What the constructor without a value stores. -/
  identity : V
  /-- `comp_value`. -/
  compValue : V → T
  /-- `has_value` says always that there is one. -/
  optimized : Bool

/-- `std::numeric_limits` and `std::less` of a type: what `identity_value` stores for a maximum and for a minimum
(infinities where the type has them) is below, or above, all other values. -/
structure NumericLimits (T : Type) where
  less : Comparator T
  maxIdentity : T
  minIdentity : T
  maxIdentity_less : ∀ x, x ≠ maxIdentity → less.less maxIdentity x = true
  less_minIdentity : ∀ x, x ≠ minIdentity → less.less x minIdentity = true

variable {V T Index : Type}

/-! ### The content classes -/

/-- `view_content`; the argument is `Type()`. -/
def viewContent (default : T) : ContentClass T T := ⟨default, id, false⟩

/-- `view_content<Type, Compare, ForMax, true>`. -/
def viewContentOptimized (identity : T) : ContentClass T T := ⟨identity, id, true⟩

/-- `index_view_content`; the arguments are `Index()` and `Type()`. -/
def indexViewContent (index : Index) (default : T) : ContentClass (Index × T) T :=
  ⟨(index, default), Prod.snd, false⟩

/-- `index_view_content<Index, Type, Compare, ForMax, true>`. -/
def indexViewContentOptimized (index : Index) (identity : T) : ContentClass (Index × T) T :=
  ⟨(index, identity), Prod.snd, true⟩

namespace MinMaxContent

/-- `set_value`. -/
def setValue (content : MinMaxContent V) (x : V) : MinMaxContent V := { content with value := x }

/-- `set_is_set`. -/
def setIsSet (content : MinMaxContent V) : MinMaxContent V := { content with isSet := true }

end MinMaxContent

/-! ### `view_base` -/

/-- A view class: its content class, and the comparator it uses. -/
structure ViewBase (V T : Type) where
  content : ContentClass V T
  compare : Comparator T

namespace ViewBase

variable (view : ViewBase V T)

/-- The constructor without a value. -/
def identity : MinMaxContent V := ⟨view.content.identity, false⟩

/-- `has_value`. -/
def hasValue (content : MinMaxContent V) : Bool := view.content.optimized || content.isSet

/-- The comparison of the `comp_value`s. -/
def compareValues (x y : V) : Bool := view.compare.less (view.content.compValue x) (view.content.compValue y)

/-- `calc`. -/
def calcMinMax (content : MinMaxContent V) (x : V) : MinMaxContent V :=
  (if !view.hasValue content || view.compareValues content.value x then content.setValue x else content).setIsSet

/-- `reduce`. -/
def reduce (content other : MinMaxContent V) : MinMaxContent V :=
  if other.isSet && (!content.isSet || view.compareValues content.value other.value) then
    (content.setValue other.value).setIsSet
  else content

end ViewBase

/-! ### The view classes -/

/-- `op_max_view`. -/
def opMaxView (less : Comparator T) (default : T) : ViewBase T T := ⟨viewContent default, less⟩

/-- `op_min_view`. -/
def opMinView (less : Comparator T) (default : T) : ViewBase T T := ⟨viewContent default, less.reverse⟩

/-- `op_max_index_view`. -/
def opMaxIndexView (less : Comparator T) (index : Index) (default : T) : ViewBase (Index × T) T :=
  ⟨indexViewContent index default, less⟩

/-- `op_min_index_view`. -/
def opMinIndexView (less : Comparator T) (index : Index) (default : T) : ViewBase (Index × T) T :=
  ⟨indexViewContent index default, less.reverse⟩

/-- `op_max_view` where `do_is_set_optimization` holds, which takes `std::less`. -/
def opMaxViewOptimized (limits : NumericLimits T) : ViewBase T T :=
  ⟨viewContentOptimized limits.maxIdentity, limits.less⟩

/-- `op_min_view` where `do_is_set_optimization` holds. -/
def opMinViewOptimized (limits : NumericLimits T) : ViewBase T T :=
  ⟨viewContentOptimized limits.minIdentity, limits.less.reverse⟩

/-- `op_max_index_view` where `do_is_set_optimization` holds. -/
def opMaxIndexViewOptimized (limits : NumericLimits T) (index : Index) : ViewBase (Index × T) T :=
  ⟨indexViewContentOptimized index limits.maxIdentity, limits.less⟩

/-- `op_min_index_view` where `do_is_set_optimization` holds. -/
def opMinIndexViewOptimized (limits : NumericLimits T) (index : Index) : ViewBase (Index × T) T :=
  ⟨indexViewContentOptimized index limits.minIdentity, limits.less.reverse⟩

/-! ### Strands and reductions -/

/-- How a view came about. The strands make new views, call `calc_min` or `calc_max`, and the view of a strand is
reduced with that of the next one, before or after further calls. -/
inductive ViewHistory (V : Type) where
  | identity
  | calcMinMax (before : ViewHistory V) (x : V)
  | reduce (left right : ViewHistory V)
deriving DecidableEq, Repr

namespace ViewHistory

/-- The arguments of the calls, in serial order. -/
def arguments : ViewHistory V → List V
  | identity => []
  | calcMinMax before x => before.arguments ++ [x]
  | reduce left right => left.arguments ++ right.arguments

end ViewHistory

namespace ViewBase

variable (view : ViewBase V T)

/-- The view at the end. -/
def run : ViewHistory V → MinMaxContent V
  | .identity => view.identity
  | .calcMinMax before x => view.calcMinMax (run before) x
  | .reduce left right => view.reduce (run left) (run right)

end ViewBase

end CilkL
