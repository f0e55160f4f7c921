/-
Module: CilkL.Runtime.ReducerSuspension
Layer: Runtime
Purpose: The reducer maps of the workers while deques are suspended, mugged, resumed and stolen from. The deques
  are those of the pool machine; beside them each worker has its `reducer_map`, and full frames have the slots
  that maps are put into when a strand ends. No step that leaves or enters a deque touches `w->reducer_map`. For
  a suspended strand it is recorded which worker it left, with which map and views, and whether another strand
  got at them since. The reductions at the end of a strand are one step; that reduce functions use reducers
  themselves is left out.
Imports: CilkL.Runtime.DequePool
Trusted boundary: human-reviewed spec (translated from deque.c, deque_pool.c, reducer_impl.cpp and scheduler.c)
Main exports: ReducerViews, MapSlot, LeftViews, ViewState, ViewLabel, viewStep, viewMachine
Open obligations: none
-/
import CilkL.Runtime.DequePool

namespace CilkL

/-- What is in a reducer map, and how two of them are merged. -/
structure ReducerViews (V : Type) where
  /-- The views of `__cilkrts_make_reducer_map`. -/
  empty : V
  merge : V → V → V
  /-- `left_map->is_leftmost || left_map->nelem > right_map->nelem`. -/
  intoLeft : V → V → Bool

/-- Where a full frame keeps a map. -/
inductive MapSlot (ψ : Type) where
  /-- `ff->children_reducer_map`. -/
  | children (ff : ψ)
  /-- `ff->right_reducer_map`. -/
  | right (ff : ψ)
deriving DecidableEq, Repr

/-- A record of a strand's views at its suspension. -/
structure LeftViews (ω ρ V : Type) where
  /-- The worker that it ran on. -/
  worker : ω
  /-- The worker's `reducer_map`. -/
  map : Option ρ
  views : Option V
deriving DecidableEq, Repr

/-- The deques, and the reducer maps `ρ` with their views `V`. -/
structure ViewState (ω δ φ ψ π ρ V : Type) where
  deques : DequePoolState ω δ φ ψ π
  /-- `w->reducer_map`. -/
  reducerMap : ω → Option ρ
  slot : MapSlot ψ → Option ρ
  views : ρ → V
  /-- The map was allocated. -/
  used : ρ → Bool
  /-- The strand that is suspended on the deque. -/
  left : δ → Option (LeftViews ω ρ V)
  /-- Another strand read, updated, merged or destroyed the views that the suspended strand had. -/
  touched : δ → Bool

/-- What happens next. -/
inductive ViewLabel (ω δ φ ψ π ρ V : Type) where
  /-- A step of the deques that is none of those below. -/
  | deque (label : PoolLabel ω δ φ ψ π)
  /-- A strand looks up a hyperobject, or creates or destroys one; `fresh` is the map it allocates when there
      is none. -/
  | lookup (w : ω) (fresh : ρ) (update : V → V)
  /-- A strand stalls at a sync, with the slot to its left. -/
  | sync (w : ω) (left : MapSlot ψ)
  /-- A spawned strand returns to a stolen parent from its full frame. -/
  | spawnReturn (w : ω) (ff : ψ) (left : MapSlot ψ)
  /-- A future returns on its own full frame, or the outermost function. -/
  | discard (w : ω)
  /-- A called full frame returns, and its caller is resumed. -/
  | callReturn (w : ω) (sf : φ) (ff : ψ) (synched : Bool)
  /-- `setup_for_execution` of a frame. -/
  | schedule (w : ω) (sf : φ) (ff : ψ) (synched : Bool)

variable {ω δ φ ψ π ρ V : Type} [DecidableEq ω] [DecidableEq δ] [DecidableEq φ] [DecidableEq ψ] [DecidableEq ρ]

namespace ViewState

/-- The views of a map are read, updated, merged or destroyed by a strand that runs. -/
def touch (s : ViewState ω δ φ ψ π ρ V) (r : ρ) : ViewState ω δ φ ψ π ρ V :=
  { s with
    touched := fun d =>
      match s.left d with
      | some record => s.touched d || decide (record.map = some r)
      | none => s.touched d }

/-- `__cilkrts_hyper_lookup`, `__cilkrts_hyper_create` and `__cilkrts_hyper_destroy`. -/
def hyperLookup (reducers : ReducerViews V) (s : ViewState ω δ φ ψ π ρ V) (w : ω) (fresh : ρ)
    (update : V → V) : Option (ViewState ω δ φ ψ π ρ V) :=
  match s.reducerMap w with
  | some r => some { s.touch r with views := setAt s.views r (update (s.views r)) }
  | none =>
      -- install_new_reducer_map
      if s.used fresh then none
      else some { s with
        reducerMap := setAt s.reducerMap w (some fresh)
        views := setAt s.views fresh (update reducers.empty)
        used := setAt s.used fresh true }

/-- `merge_reducer_maps`: the merged map, and the state with the other one destroyed. -/
def mergeReducerMaps (reducers : ReducerViews V) (s : ViewState ω δ φ ψ π ρ V) :
    Option ρ → Option ρ → ViewState ω δ φ ψ π ρ V × Option ρ
  | none, right => (s, right)
  | some left, none => (s, some left)
  | some left, some right =>
      let merged := reducers.merge (s.views left) (s.views right)
      let kept := if reducers.intoLeft (s.views left) (s.views right) then left else right
      ({ (s.touch left).touch right with views := setAt s.views kept merged }, some kept)

/-- `execute_reductions_for_sync`. -/
def reduceForSync (reducers : ReducerViews V) (s : ViewState ω δ φ ψ π ρ V) (w : ω) (left : MapSlot ψ) :
    ViewState ω δ φ ψ π ρ V :=
  let (merged, map) := s.mergeReducerMaps reducers (s.slot left) (s.reducerMap w)
  { merged with
    slot := setAt merged.slot left map
    reducerMap := setAt merged.reducerMap w none }

/-- `execute_reductions_for_spawn_return`, for a full frame with a parent. -/
def reduceForSpawnReturn (reducers : ReducerViews V) (s : ViewState ω δ φ ψ π ρ V) (w : ω) (ff : ψ)
    (left : MapSlot ψ) : ViewState ω δ φ ψ π ρ V :=
  let (merged, map) := s.mergeReducerMaps reducers (s.slot left) (s.reducerMap w)
  let (merged, map) := merged.mergeReducerMaps reducers map (s.slot (.right ff))
  { merged with
    slot := setAt (setAt merged.slot (.right ff) none) left map
    reducerMap := setAt merged.reducerMap w none }

/-- The same for one without a parent, and the end of the outermost function: the map is destroyed. -/
def discardMap (s : ViewState ω δ φ ψ π ρ V) (w : ω) : ViewState ω δ φ ψ π ρ V :=
  let touched := match s.reducerMap w with
    | some r => s.touch r
    | none => s
  { touched with reducerMap := setAt s.reducerMap w none }

/-- `setup_for_execution_reducers`, for a frame that is synched or not; `none` where its assertion fails. -/
def setupForExecutionReducers (s : ViewState ω δ φ ψ π ρ V) (w : ω) (ff : ψ) (synched : Bool) :
    Option (ViewState ω δ φ ψ π ρ V) :=
  match synched, s.slot (.children ff), s.reducerMap w with
  | true, some r, none =>
      some { s with
        reducerMap := setAt s.reducerMap w (some r)
        slot := setAt s.slot (.children ff) none }
  | true, some _, some _ => none
  | _, _, _ => some s

/-- What is recorded of the suspended strands at a step of the deques. -/
def record (s : ViewState ω δ φ ψ π ρ V) (label : PoolLabel ω δ φ ψ π) : ViewState ω δ φ ψ π ρ V :=
  match label with
  | .suspend w | .resumeSuspend w =>
      let views := { worker := w, map := s.reducerMap w, views := (s.reducerMap w).map s.views }
      { s with
        left := setAt s.left (s.deques.activeDeque w) (some views)
        touched := setAt s.touched (s.deques.activeDeque w) false }
  | .switchDeque _ d _ => if s.deques.live d then s else { s with left := setAt s.left d none }
  | .goOn w => { s with left := setAt s.left (s.deques.activeDeque w) none }
  | _ => s

/-- A step of the deques. -/
def moveDeques (s : ViewState ω δ φ ψ π ρ V) (label : PoolLabel ω δ φ ψ π) :
    Option (ViewState ω δ φ ψ π ρ V) :=
  match poolStep s.deques label with
  | some deques => some { s.record label with deques := deques }
  | none => none

end ViewState

/-- One step. -/
def viewStep (reducers : ReducerViews V) (s : ViewState ω δ φ ψ π ρ V) :
    ViewLabel ω δ φ ψ π ρ V → Option (ViewState ω δ φ ψ π ρ V)
  | .deque label =>
      match label with
      | .finish _ | .schedule _ _ _ => none
      | label => s.moveDeques label
  | .lookup w fresh update =>
      if s.deques.pc w = .running then s.hyperLookup reducers w fresh update else none
  | .sync w left => (s.reduceForSync reducers w left).moveDeques (.finish w)
  | .spawnReturn w ff left =>
      -- the slot on the left is that of a sibling or of the parent
      if left = .right ff then none else (s.reduceForSpawnReturn reducers w ff left).moveDeques (.finish w)
  | .discard w => (s.discardMap w).moveDeques (.finish w)
  | .callReturn w sf ff synched =>
      match s.moveDeques (.finish w) with
      | some finished =>
          match finished.moveDeques (.schedule w sf ff) with
          | some scheduled => scheduled.setupForExecutionReducers w ff synched
          | none => none
      | none => none
  | .schedule w sf ff synched =>
      match s.moveDeques (.schedule w sf ff) with
      | some scheduled => scheduled.setupForExecutionReducers w ff synched
      | none => none

/-- The deques start as they do, no strand is suspended, and the maps are those of workers that run. -/
def ViewState.Initial (s : ViewState ω δ φ ψ π ρ V) : Prop :=
  s.deques.Initial ∧ (∀ d, s.left d = none) ∧ (∀ d, s.touched d = false) ∧ (∀ slot, s.slot slot = none) ∧
    (∀ w r, s.reducerMap w = some r → s.used r = true ∧ s.deques.pc w = .running) ∧
    ∀ w w' r, s.reducerMap w = some r → s.reducerMap w' = some r → w = w'

/-- The machine of the reducer maps over that of the deques. -/
def viewMachine (reducers : ReducerViews V) : Machine (ViewState ω δ φ ψ π ρ V) (ViewLabel ω δ φ ψ π ρ V) where
  start := ViewState.Initial
  step := viewStep reducers

end CilkL
