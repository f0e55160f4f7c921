/-
Module: CilkL.Proofs.FrameInvariant
Layer: Proofs
Purpose: The invariant of the tree of full frames. The row of a frame is the product, left to right, of
  `children_reducer_map`, for each child what it yields and its `right_reducer_map`, and the map of the
  frame's strand. What a child yields is the map it started with times all updates of its program, done or
  not; a child on its way out yields the maps it holds. The row of a frame equals the map it started
  with times the updates that come before the strand's place in the program.
Imports: CilkL.Proofs.ReducerMap, CilkL.Runtime.FullFrame, Mathlib.Algebra.BigOperators.Group.List.Basic
Trusted boundary: none (fully proved)
Main exports: updatesValue, Strand.value, FullFrame.row, FullFrame.yields, FrameOk, FullFrame.All,
  row_slot, FrameOk.of_move
Open obligations: none
-/
import CilkL.Proofs.ReducerMap
import CilkL.Runtime.FullFrame
import Mathlib.Algebra.BigOperators.Group.List.Basic

namespace CilkL

variable {κ M : Type}

/-- A property of all frames of a tree. -/
inductive FullFrame.All (property : FullFrame κ M → Prop) : FullFrame κ M → Prop where
  | mk {frame : FullFrame κ M} (here : property frame)
      (below : ∀ child ∈ frame.children, FullFrame.All property child) : FullFrame.All property frame

theorem FullFrame.All.here {property : FullFrame κ M → Prop} {frame : FullFrame κ M}
    (all : frame.All property) : property frame := by
  cases all with
  | mk here below => exact here

theorem FullFrame.All.children {property : FullFrame κ M → Prop} {frame : FullFrame κ M}
    (all : frame.All property) : ∀ child ∈ frame.children, child.All property := by
  cases all with
  | mk here below => exact below

variable [DecidableEq κ] [Monoid M]

/-! ### Values -/

/-- The product of a list of updates. -/
def updatesValue (updates : List (κ × M)) : κ → M :=
  (updates.map fun update => Pi.mulSingle update.1 update.2).prod

@[simp] theorem updatesValue_nil : updatesValue ([] : List (κ × M)) = 1 := rfl

@[simp] theorem updatesValue_append (before after : List (κ × M)) :
    updatesValue (before ++ after) = updatesValue before * updatesValue after := by
  simp [updatesValue]

@[simp] theorem updatesValue_singleton (key : κ) (value : M) :
    updatesValue [(key, value)] = Pi.mulSingle key value := by
  simp [updatesValue]

/-- The product of the maps a strand holds. -/
@[simp] def Strand.value : Strand κ M → κ → M
  | .running _ _ map | .returning map | .reduced map | .syncing map _ | .syncLocking map _ =>
      mapValue map
  | .reducing left middle right => mapValue left * mapValue middle * mapValue right
  | .syncReducing left middle _ => mapValue left * mapValue middle
  | .suspended _ | .stalling _ | .stalled _ | .synched _ => 1

/-- The updates a strand still has to make, with all it spawns and calls. -/
@[simp] def Strand.remaining : Strand κ M → List (κ × M)
  | .running current callers _ => programUpdates current ++ callersUpdates callers
  | .suspended rest | .syncing _ rest | .syncLocking _ rest | .syncReducing _ _ rest
  | .stalling rest | .stalled rest | .synched rest => programUpdates rest
  | .returning _ | .reducing _ _ _ | .reduced _ => []

/-- 1 while a worker refers to the frame in its join counter. -/
@[simp] def Strand.active : Strand κ M → Nat
  | .suspended _ | .stalled _ => 0
  | _ => 1

/-- The frame waits for a called full frame. -/
@[simp] def Strand.Suspended : Strand κ M → Prop
  | .suspended _ => True
  | _ => False

/-- The frame passed its sync and is about to be resumed. -/
@[simp] def Strand.Synched : Strand κ M → Prop
  | .synched _ => True
  | _ => False

/-- The frame is returning to a stolen parent. -/
@[simp] def Strand.Returned : Strand κ M → Prop
  | .returning _ | .reducing _ _ _ | .reduced _ => True
  | _ => False

/-- The frame is in the reductions of a sync. -/
@[simp] def Strand.Syncing : Strand κ M → Prop
  | .syncing _ _ | .syncLocking _ _ | .syncReducing _ _ _ => True
  | _ => False

instance Strand.decidableReturned (strand : Strand κ M) : Decidable strand.Returned := by
  cases strand <;> unfold Strand.Returned <;> infer_instance

/-- The map a child contributes to its parent, without its `right_reducer_map`. -/
def FullFrame.yields (child : FullFrame κ M) : κ → M :=
  if child.strand.Returned then child.strand.value
  else mapValue child.start * updatesValue child.serial

theorem FullFrame.yields_of_unreturned {child : FullFrame κ M}
    (unreturned : ¬ child.strand.Returned) :
    child.yields = mapValue child.start * updatesValue child.serial := if_neg unreturned

theorem FullFrame.yields_of_returned {child : FullFrame κ M} (returned : child.strand.Returned) :
    child.yields = child.strand.value := if_pos returned

/-- What a child contributes to the row of its parent, when its strand counts for `share`. -/
def FullFrame.term (share : FullFrame κ M → κ → M) (child : FullFrame κ M) : κ → M :=
  share child * mapValue child.rightReducerMap

/-- The left-to-right product of a frame's maps, when a child counts for `share`. -/
def FullFrame.row (share : FullFrame κ M → κ → M) (frame : FullFrame κ M) : κ → M :=
  mapValue frame.childrenReducerMap * (frame.children.map (FullFrame.term share)).prod *
    frame.strand.value

/-! ### The invariant -/

/-- The invariant of one frame with its children. -/
structure FrameOk (frame : FullFrame κ M) : Prop where
  row_eq : ¬ frame.strand.Returned →
    frame.row FullFrame.yields = mapValue frame.start * updatesValue frame.earlier
  serial_eq : frame.earlier ++ frame.strand.remaining = frame.serial
  join_eq : frame.joinCounter = frame.children.length + frame.departed + frame.strand.active
  suspended : frame.strand.Suspended → ∃ spawned called, frame.children = spawned ++ [called] ∧
    called.isCallChild = true ∧ called.rightReducerMap = none ∧
    ∀ child ∈ spawned, child.isCallChild = false
  unsuspended : ¬ frame.strand.Suspended → ∀ child ∈ frame.children, child.isCallChild = false
  spawnless : frame.unsynched = false → ∀ child ∈ frame.children, child.isCallChild = true
  childrenMap_none : frame.unsynched = false → ¬ frame.strand.Synched →
    frame.childrenReducerMap = none
  synched : frame.strand.Synched ∨ frame.strand.Returned → frame.unsynched = false
  spawned : frame.strand.Returned → frame.isCallChild = false
  syncing : frame.strand.Syncing → frame.unsynched = true

/-- What a frame's parent sees of it, and what the frame started with. -/
structure SameInParent (frame frame' : FullFrame κ M) : Prop where
  isCallChild : frame'.isCallChild = frame.isCallChild
  rightReducerMap : frame'.rightReducerMap = frame.rightReducerMap
  start : frame'.start = frame.start
  serial : frame'.serial = frame.serial
  yields : frame'.yields = frame.yields

/-- A frame that does not return keeps what it yields with its start and its program. -/
theorem SameInParent.of_unreturned {frame frame' : FullFrame κ M}
    (isCallChild : frame'.isCallChild = frame.isCallChild)
    (rightReducerMap : frame'.rightReducerMap = frame.rightReducerMap)
    (start : frame'.start = frame.start) (serial : frame'.serial = frame.serial)
    (unreturned : ¬ frame.strand.Returned) (unreturned' : ¬ frame'.strand.Returned) :
    SameInParent frame frame' where
  isCallChild := isCallChild
  rightReducerMap := rightReducerMap
  start := start
  serial := serial
  yields := by
    rw [FullFrame.yields_of_unreturned unreturned, FullFrame.yields_of_unreturned unreturned', start,
      serial]

/-- A synched frame that waits for no call has no children. -/
theorem FrameOk.children_nil {frame : FullFrame κ M} (ok : FrameOk frame)
    (synched : frame.unsynched = false) (unsuspended : ¬ frame.strand.Suspended) :
    frame.children = [] := by
  apply List.eq_nil_iff_forall_not_mem.2
  intro child mem
  have called := ok.spawnless synched child mem
  have spawned := ok.unsuspended unsuspended child mem
  simp [called] at spawned

/-- A frame that returned has only the maps of its strand. -/
theorem FrameOk.returned {frame : FullFrame κ M} (ok : FrameOk frame)
    (returned : frame.strand.Returned) :
    frame.children = [] ∧ frame.childrenReducerMap = none := by
  have synched := ok.synched (.inr returned)
  constructor
  · apply ok.children_nil synched
    cases pc : frame.strand <;> simp [pc] at returned ⊢
  · apply ok.childrenMap_none synched
    cases pc : frame.strand <;> simp [pc] at returned ⊢

/-- A frame at the end of its program holds all its updates in the map of its strand. -/
theorem FrameOk.finished {frame : FullFrame κ M} {map : Option (ReducerMap κ M)} (ok : FrameOk frame)
    (synched : frame.unsynched = false) (pc : frame.strand = .running [] [] map) :
    frame.children = [] ∧ frame.childrenReducerMap = none ∧
      mapValue map = mapValue frame.start * updatesValue frame.serial := by
  have empty := ok.children_nil synched (by simp [pc])
  have none := ok.childrenMap_none synched (by simp [pc])
  have serial : frame.earlier = frame.serial := by
    simpa [pc, programUpdates, callersUpdates] using ok.serial_eq
  have row := ok.row_eq (by simp [pc])
  refine ⟨empty, none, ?_⟩
  simpa [FullFrame.row, empty, none, pc, serial] using row

/-! ### The slots between the children -/

/-- What a child counts for does not depend on its `right_reducer_map`. -/
def IgnoresRight (share : FullFrame κ M → κ → M) : Prop :=
  ∀ (child : FullFrame κ M) (map : Option (ReducerMap κ M)),
    share { child with rightReducerMap := map } = share child

theorem ignoresRight_yields : IgnoresRight (FullFrame.yields : FullFrame κ M → κ → M) :=
  fun _ _ => rfl

omit [DecidableEq κ] [Monoid M] in
theorem modify_middle (before after : List (FullFrame κ M)) (child : FullFrame κ M)
    (change : FullFrame κ M → FullFrame κ M) :
    (before ++ child :: after).modify before.length change = before ++ change child :: after := by
  induction before with
  | nil => rfl
  | cons first before ih => simpa using ih

/-- The slot to the left of the children `after` can be exchanged: the product of what stands left of
    them is that of the slot from the right. -/
theorem row_slot {share : FullFrame κ M → κ → M} (ignores : IgnoresRight share)
    {frame : FullFrame κ M} {before after : List (FullFrame κ M)}
    (split : frame.children = before ++ after) :
    ∃ base : κ → M,
      mapValue frame.childrenReducerMap * (before.map (FullFrame.term share)).prod =
        base * mapValue (frame.leftOfChild before.length) ∧
      ∀ map, ∃ childrenMap before',
        frame.setLeftOfChild before.length map =
          { frame with childrenReducerMap := childrenMap, children := before' ++ after } ∧
        before'.length = before.length ∧
        mapValue childrenMap * (before'.map (FullFrame.term share)).prod = base * mapValue map ∧
        ∀ child' ∈ before', ∃ child ∈ before, ∃ right,
          child' = { child with rightReducerMap := right } := by
  rcases List.eq_nil_or_concat' before with rfl | ⟨front, left, rfl⟩
  · refine ⟨1, by simp [FullFrame.leftOfChild], fun map => ⟨map, [], ?_⟩⟩
    simp [FullFrame.setLeftOfChild, split]
  · have found : frame.children[front.length]? = some left := by simp [split]
    refine ⟨mapValue frame.childrenReducerMap * (front.map (FullFrame.term share)).prod * share left,
      ?_, fun map => ⟨frame.childrenReducerMap, front ++ [{ left with rightReducerMap := map }],
        ?_, ?_, ?_, ?_⟩⟩
    · simp [FullFrame.leftOfChild, found, FullFrame.term, mul_assoc]
    · have modified := modify_middle front after left
        fun left => { left with rightReducerMap := map }
      simpa [FullFrame.setLeftOfChild, split] using modified
    · simp
    · simp [FullFrame.term, ignores left map, mul_assoc]
    · intro child' mem
      rcases List.mem_append.1 mem with old | new
      · exact ⟨child', List.mem_append_left _ old, child'.rightReducerMap, by cases child'; rfl⟩
      · exact ⟨left, by simp, map, List.mem_singleton.1 new⟩

/-- The row of a frame with a split of its children. -/
theorem row_split {share : FullFrame κ M → κ → M} {frame : FullFrame κ M}
    {before after : List (FullFrame κ M)} (split : frame.children = before ++ after) :
    frame.row share =
      mapValue frame.childrenReducerMap * (before.map (FullFrame.term share)).prod *
        (after.map (FullFrame.term share)).prod * frame.strand.value := by
  simp [FullFrame.row, split, mul_assoc]

/-- A frame keeps its invariant when its `right_reducer_map` changes. -/
theorem FrameOk.setRight {frame : FullFrame κ M} (ok : FrameOk frame)
    (map : Option (ReducerMap κ M)) : FrameOk { frame with rightReducerMap := map } :=
  { ok with }

theorem allOk_setRight {frame : FullFrame κ M} (all : frame.All FrameOk)
    (map : Option (ReducerMap κ M)) : FullFrame.All FrameOk { frame with rightReducerMap := map } :=
  .mk (all.here.setRight map) all.children

/-! ### Steps that only move the strand -/

/-- The strand moves on past `added` updates. -/
theorem FrameOk.of_move {frame : FullFrame κ M} {strand : Strand κ M} {added : List (κ × M)}
    (ok : FrameOk frame) (value : strand.value = frame.strand.value * updatesValue added)
    (remaining : frame.strand.remaining = added ++ strand.remaining)
    (active : strand.active = frame.strand.active) (unsuspended : ¬ frame.strand.Suspended)
    (unsuspended' : ¬ strand.Suspended) (unsynched : ¬ frame.strand.Synched)
    (unsynched' : ¬ strand.Synched) (unreturned : ¬ frame.strand.Returned)
    (returned : strand.Returned → frame.unsynched = false ∧ frame.isCallChild = false)
    (syncing : strand.Syncing → frame.unsynched = true) :
    FrameOk { frame with strand := strand, earlier := frame.earlier ++ added } where
  row_eq := by
    intro _
    have row := ok.row_eq unreturned
    simp only [FullFrame.row] at row ⊢
    rw [value, ← mul_assoc, row, updatesValue_append, mul_assoc]
  serial_eq := by
    rw [List.append_assoc, ← remaining]
    exact ok.serial_eq
  join_eq := by
    change frame.joinCounter = _
    rw [active]
    exact ok.join_eq
  suspended := fun suspended => absurd suspended unsuspended'
  unsuspended := fun _ => ok.unsuspended unsuspended
  spawnless := ok.spawnless
  childrenMap_none := fun synched _ => ok.childrenMap_none synched unsynched
  synched := fun left => (returned (left.resolve_left unsynched')).1
  spawned := fun returned' => (returned returned').2
  syncing := syncing

/-- A frame that is returning moves on. -/
theorem FrameOk.of_returned {frame : FullFrame κ M} {strand : Strand κ M} (ok : FrameOk frame)
    (returned : frame.strand.Returned) (returned' : strand.Returned)
    (right : Option (ReducerMap κ M)) :
    FrameOk { frame with strand := strand, rightReducerMap := right } := by
  have unsuspended : ¬ frame.strand.Suspended := by
    cases pc : frame.strand <;> simp [pc] at returned ⊢
  have alike : frame.strand.remaining = strand.remaining ∧ frame.strand.active = strand.active := by
    cases pc : frame.strand <;> simp [pc] at returned <;> cases strand <;> simp at returned' ⊢
  exact
    { row_eq := fun unreturned => absurd returned' unreturned
      serial_eq := alike.1 ▸ ok.serial_eq
      join_eq := alike.2 ▸ ok.join_eq
      suspended := fun suspended => by cases strand <;> simp at returned' suspended
      unsuspended := fun _ => ok.unsuspended unsuspended
      spawnless := ok.spawnless
      childrenMap_none := fun _ _ => (ok.returned returned).2
      synched := fun _ => ok.synched (.inr returned)
      spawned := fun _ => ok.spawned returned
      syncing := fun syncing => by cases strand <;> simp at returned' syncing }

end CilkL
