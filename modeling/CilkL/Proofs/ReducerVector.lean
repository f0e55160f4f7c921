/-
Module: CilkL.Proofs.ReducerVector
Layer: Proofs
Purpose: The value of a vector or string view is the concatenation of its pieces, and each call does to the
  values what its name says, on both paths and in any order of calls, but for `move_out` of a vector reducer to
  a vector that is not empty and has an equal allocator: what that vector held stays in the view.
Imports: CilkL.Runtime.ReducerVector
Trusted boundary: none
Main exports: PieceView.value, ValueState, valueStep, MovesOutEmpty, piece_views_concatenate
Open obligations: none
-/
import CilkL.Runtime.ReducerVector

namespace CilkL

variable {α A ι κ : Type}

/-! ### The values -/

/-- The value of a view. -/
def PieceView.value (view : PieceView α A) : List α := view.list.flatten ++ view.current.elements

/-- The values of the views, and what the vectors or strings of the program hold. -/
@[ext] structure ValueState (ι κ α : Type) where
  value : ι → List α
  contents : κ → List α
  returned : Option (List α)

def PieceState.values (s : PieceState ι κ α A) : ValueState ι κ α where
  value v := (s.view v).value
  contents c := (s.container c).elements
  returned := s.returned

section Values

variable [DecidableEq ι] [DecidableEq κ]

/-- What the calls stand for. -/
def valueStep (s : ValueState ι κ α) : PieceOperation ι κ α → ValueState ι κ α
  | .append v xs => { s with value := setAt s.value v (s.value v ++ xs), returned := none }
  | .reduce left right =>
      { s with value := setAt (setAt s.value left (s.value left ++ s.value right)) right [], returned := none }
  | .flatten _ => { s with returned := none }
  | .getValue v => { s with returned := some (s.value v) }
  | .setValue v c => { s with value := setAt s.value v (s.contents c), returned := none }
  | .moveIn v c => ⟨setAt s.value v (s.contents c), setAt s.contents c [], none⟩
  | .moveOut v c => ⟨setAt s.value v [], setAt s.contents c (s.value v), none⟩

variable {s : PieceState ι κ α A} {v : ι} {c : κ} {view : PieceView α A} {container : StdContainer α A}

omit [DecidableEq κ] in
theorem values_setView :
    (s.setView v view).values = { s.values with value := setAt s.values.value v view.value, returned := none } := by
  ext1
  · funext u
    simp only [PieceState.values, setAt]
    split <;> rfl
  · rfl
  · rfl

omit [DecidableEq ι] in
theorem values_setContainer : (s.setContainer c container).values =
    { s.values with contents := setAt s.values.contents c container.elements } := by
  ext1
  · rfl
  · funext d
    simp only [PieceState.values, setAt]
    split <;> rfl
  · rfl

/-! ### What each function does to the value of a view -/

/-- `flatten` leaves the value in `m_vector` or `m_string`. -/
theorem PieceView.flatten_eq : view.flatten = ⟨[], ⟨view.value, view.current.allocator⟩⟩ := by
  unfold PieceView.flatten PieceView.value
  split
  case isTrue isEmpty =>
    have nothing := List.isEmpty_iff.mp isEmpty
    rw [nothing, List.flatten_nil, List.nil_append, ← nothing]
  case isFalse => rfl

@[simp] theorem PieceView.value_flatten : view.flatten.value = view.value := by
  rw [PieceView.flatten_eq]
  rfl

theorem PieceView.flatten_elements : view.flatten.current.elements = view.value := by
  rw [PieceView.flatten_eq]

@[simp] theorem PieceView.value_append {xs : List α} : (view.append xs).value = view.value ++ xs := by
  simp [PieceView.append, PieceView.value]

@[simp] theorem PieceView.value_set : (view.viewSetValue container).value = container.elements := rfl

variable [DecidableEq A]

/-- A swap exchanges the elements. -/
theorem StdContainer.swap_elements {c d c' d' : StdContainer α A} (swapped : c.swap d = some (c', d')) :
    c'.elements = d.elements ∧ d'.elements = c.elements := by
  simp only [StdContainer.swap, Option.ite_none_right_eq_some, Option.some.injEq, Prod.mk.injEq] at swapped
  obtain ⟨-, rfl, rfl⟩ := swapped
  exact ⟨rfl, rfl⟩

theorem StdContainer.swap_of_sameAllocator {c d : StdContainer α A} (same : c.sameAllocator d) :
    c.swap d = some ({ c with elements := d.elements }, { d with elements := c.elements }) := if_pos same

/-- `reduce` takes the value of the right view to the end of the left one. -/
theorem PieceView.reduce_value {left right left' right' : PieceView α A}
    (reduced : left.reduce right = some (left', right')) :
    left'.value = left.value ++ right.value ∧ right'.value = [] := by
  unfold PieceView.reduce at reduced
  split at reduced
  case isTrue empty =>
    obtain ⟨rfl, rfl⟩ := Prod.mk.inj (Option.some.inj reduced)
    have nothing : right.value = [] := by
      simp [PieceView.value, List.isEmpty_iff.mp empty.1, List.isEmpty_iff.mp empty.2]
    exact ⟨by rw [nothing, List.append_nil], nothing⟩
  case isFalse =>
    obtain ⟨⟨current, otherCurrent⟩, swapped, result⟩ := Option.map_eq_some_iff.mp reduced
    obtain ⟨rfl, rfl⟩ := Prod.mk.inj result
    obtain ⟨taken, given⟩ := StdContainer.swap_elements swapped
    -- The current piece of the left view is empty by now: it went to the list if it was not.
    split at given
    case isTrue isEmpty =>
      have nothing := List.isEmpty_iff.mp isEmpty
      simp_all [PieceView.value]
    case isFalse => simp_all [PieceView.value, StdContainer.clear]

/-- `move_in` on both paths. -/
theorem PieceView.moveIn_value {view' : PieceView α A} {container' : StdContainer α A}
    (moved : view.viewMoveIn container = some (view', container')) :
    view'.value = container.elements ∧ container'.elements = [] := by
  unfold PieceView.viewMoveIn at moved
  split at moved
  case isTrue same =>
    rw [StdContainer.swap_of_sameAllocator same] at moved
    obtain ⟨rfl, rfl⟩ := Prod.mk.inj (Option.some.inj moved)
    exact ⟨rfl, rfl⟩
  case isFalse =>
    obtain ⟨rfl, rfl⟩ := Prod.mk.inj (Option.some.inj moved)
    exact ⟨rfl, rfl⟩

/-- What a view keeps when its value is moved to a container. -/
def PieceView.kept (viewClass : ViewClass) (view : PieceView α A) (container : StdContainer α A) : List α :=
  if viewClass = .vector ∧ view.current.sameAllocator container then container.elements else []

/-- `move_out` on both paths: only the class for vectors clears the view on one path alone. -/
theorem PieceView.moveOut_eq (viewClass : ViewClass) (view : PieceView α A) (container : StdContainer α A) :
    view.viewMoveOut viewClass container =
      some (⟨[], ⟨view.kept viewClass container, view.current.allocator⟩⟩,
        ⟨view.value, container.allocator⟩) := by
  by_cases same : view.current.sameAllocator container
  · cases viewClass with
    | vector => simp [PieceView.viewMoveOut, PieceView.vectorMoveOut, PieceView.flatten_eq, PieceView.kept,
        StdContainer.swap, same]
    | string => simp [PieceView.viewMoveOut, PieceView.stringMoveOut, PieceView.flatten_eq, PieceView.kept,
        StdContainer.swap, StdContainer.clear, same]
  · cases viewClass with
    | vector => simp [PieceView.viewMoveOut, PieceView.vectorMoveOut, PieceView.flatten_eq, PieceView.kept,
        StdContainer.clear, StdContainer.assign, same]
    | string => simp [PieceView.viewMoveOut, PieceView.stringMoveOut, PieceView.flatten_eq, PieceView.kept,
        StdContainer.clear, StdContainer.assign, same]

/-! ### Calls -/

variable {viewClass : ViewClass} {op : PieceOperation ι κ α}

/-- The call does to the values what it stands for. -/
def CallAgrees (viewClass : ViewClass) (s : PieceState ι κ α A) (op : PieceOperation ι κ α) : Prop :=
  ∀ t, pieceStep viewClass s op = some t → t.values = valueStep s.values op

/-- The value of a vector view is moved out to a vector that holds something and has an equal allocator. -/
def MovesOutToFull (viewClass : ViewClass) (s : PieceState ι κ α A) : PieceOperation ι κ α → Prop
  | .moveOut v c => viewClass = .vector ∧ (s.view v).current.sameAllocator (s.container c) ∧
      (s.container c).elements ≠ []
  | _ => False

omit [DecidableEq ι] [DecidableEq κ] in
theorem moveOut_kept (s : PieceState ι κ α A) (v : ι) (c : κ) :
    (s.view v).kept viewClass (s.container c) = [] ↔ ¬MovesOutToFull viewClass s (.moveOut v c) := by
  unfold PieceView.kept MovesOutToFull
  split
  case isTrue moved =>
    refine ⟨fun empty full => full.2.2 empty, fun kept => ?_⟩
    exact Classical.byContradiction fun full => kept ⟨moved.1, moved.2, full⟩
  case isFalse moved => exact iff_of_true rfl fun full => moved ⟨full.1, full.2.1⟩

/-- A `move_out` leaves the value of the view where it should and the view with what it keeps. -/
theorem moveOut_values (viewClass : ViewClass) (s : PieceState ι κ α A) (v : ι) (c : κ) :
    ∃ t, pieceStep viewClass s (.moveOut v c) = some t ∧
      t.values = { valueStep s.values (.moveOut v c) with
        value := setAt s.values.value v ((s.view v).kept viewClass (s.container c)) } := by
  refine ⟨_, by rw [pieceStep, PieceView.moveOut_eq]; rfl, ?_⟩
  rw [values_setContainer, values_setView]
  rfl

theorem moveOut_agrees : CallAgrees viewClass s (.moveOut v c) ↔ ¬MovesOutToFull viewClass s (.moveOut v c) := by
  obtain ⟨t, taken, values⟩ := moveOut_values viewClass s v c
  rw [← moveOut_kept]
  constructor
  · intro agrees
    have value := congrFun (congrArg ValueState.value (values.symm.trans (agrees t taken))) v
    exact (setAt_self _ _ _).symm.trans (value.trans (setAt_self _ _ _))
  · intro kept t' taken'
    obtain rfl := Option.some.inj (taken.symm.trans taken')
    rw [values, kept]
    rfl

/-- A call does what it stands for except where a vector is moved out to one that holds something. -/
theorem call_agrees (viewClass : ViewClass) (s : PieceState ι κ α A) (op : PieceOperation ι κ α) :
    CallAgrees viewClass s op ↔ ¬MovesOutToFull viewClass s op := by
  cases op with
  | moveOut v c => exact moveOut_agrees
  | append v xs =>
      refine iff_of_true ?_ not_false
      rintro _ ⟨⟩
      rw [values_setView, PieceView.value_append]
      rfl
  | reduce left right =>
      refine iff_of_true (fun t taken => ?_) not_false
      rw [pieceStep, Option.ite_none_left_eq_some] at taken
      obtain ⟨distinct, taken⟩ := taken
      obtain ⟨⟨left', right'⟩, reduced, rfl⟩ := Option.map_eq_some_iff.mp taken
      obtain ⟨appended, emptied⟩ := PieceView.reduce_value reduced
      rw [values_setView, values_setView, appended, emptied]
      rfl
  | flatten v =>
      refine iff_of_true ?_ not_false
      rintro _ ⟨⟩
      rw [values_setView, PieceView.value_flatten]
      exact ValueState.ext (setAt_same _ _) rfl rfl
  | getValue v =>
      refine iff_of_true ?_ not_false
      rintro _ ⟨⟩
      refine ValueState.ext ?_ rfl (congrArg some PieceView.flatten_elements)
      exact (congrArg ValueState.value values_setView).trans
        (by rw [PieceView.value_flatten]; exact setAt_same _ _)
  | setValue v c =>
      refine iff_of_true ?_ not_false
      rintro _ ⟨⟩
      rw [values_setView, PieceView.value_set]
      rfl
  | moveIn v c =>
      refine iff_of_true (fun t taken => ?_) not_false
      obtain ⟨⟨view', container'⟩, moved, rfl⟩ := Option.map_eq_some_iff.mp taken
      obtain ⟨value, emptied⟩ := PieceView.moveIn_value moved
      rw [values_setContainer, values_setView, value, emptied]
      rfl

/-- Calls that all do what they stand for leave the values that they stand for. -/
theorem values_exec {ops : List (PieceOperation ι κ α)} {t : PieceState ι κ α A}
    (agree : (pieceMachine α A ι κ viewClass).AllowedAlong (CallAgrees viewClass) s ops)
    (run : (pieceMachine α A ι κ viewClass).exec s ops = some t) : t.values = ops.foldl valueStep s.values := by
  induction ops generalizing s with
  | nil =>
      obtain rfl := Option.some.inj run
      rfl
  | cons op ops ih =>
      simp only [Machine.exec] at run
      split at run
      case h_1 => cases run
      case h_2 next taken => rw [List.foldl_cons, ← agree.1 next taken, ih (agree.2 next taken) run]

/-- From any views, the calls of a program all do to the concatenations what they stand for exactly where none
of them moves the value of a vector view out to a vector that holds something and has an equal allocator; the
values at the end are then those of the calls taken one after another. -/
theorem piece_views_concatenate (viewClass : ViewClass) (s : PieceState ι κ α A)
    (ops : List (PieceOperation ι κ α)) :
    ((pieceMachine α A ι κ viewClass).AllowedAlong (CallAgrees viewClass) s ops ↔
      (pieceMachine α A ι κ viewClass).AllowedAlong (fun s op => ¬MovesOutToFull viewClass s op) s ops) ∧
    ((pieceMachine α A ι κ viewClass).AllowedAlong (fun s op => ¬MovesOutToFull viewClass s op) s ops →
      ∀ t, (pieceMachine α A ι κ viewClass).exec s ops = some t → t.values = ops.foldl valueStep s.values) := by
  have same : (pieceMachine α A ι κ viewClass).AllowedAlong (CallAgrees viewClass) s ops ↔
      (pieceMachine α A ι κ viewClass).AllowedAlong (fun s op => ¬MovesOutToFull viewClass s op) s ops :=
    Machine.AllowedAlong.congr (call_agrees viewClass)
  exact ⟨same, fun allowed t run => values_exec (same.mpr allowed) run⟩

end Values

/-! ### The vector that was there comes back -/

/-- A vector view that holds 1, and a vector of the program that holds 9. -/
def viewAndOldVector : PieceState Unit Unit Nat Unit where
  view _ := ⟨[], ⟨[1], ()⟩⟩
  container _ := ⟨[9], ()⟩
  returned := none

/-- After the value was moved out the view holds the 9 that was in the target. -/
theorem move_out_leaves_old_elements :
    ¬(pieceMachine Nat Unit Unit Unit .vector).AllowedAlong (CallAgrees .vector) viewAndOldVector [.moveOut () ()] := by
  intro agree
  have value := congrArg ValueState.value (agree.1 _ rfl)
  exact absurd (congrFun value ()) (by decide)

end CilkL
