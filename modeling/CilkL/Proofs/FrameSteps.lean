/-
Module: CilkL.Proofs.FrameSteps
Layer: Proofs
Purpose: The steps at a frame other than a steal keep the invariant of the frame and its children and
  what the frame's parent sees of it. A critical section of a return or of a sync moves maps between
  neighbouring slots, a return from a call hands the map over to the caller.
Imports: CilkL.Proofs.FrameInvariant
Trusted boundary: none (fully proved)
Main exports: StepOk, StepOk.of_childSection, StepOk.of_stall, StepOk.of_childJoin, StepOk.of_callReturn
Open obligations: none
-/
import CilkL.Proofs.FrameInvariant

namespace CilkL

/-! ### Lists with a marked element -/

section Lists

variable {α : Type}

theorem eraseIdx_middle (before after : List α) (child : α) :
    (before ++ child :: after).eraseIdx before.length = before ++ after := by
  induction before with
  | nil => rfl
  | cons first before ih => simpa using ih

theorem set_middle (before after : List α) (child child' : α) :
    (before ++ child :: after).set before.length child' = before ++ child' :: after := by
  induction before with
  | nil => rfl
  | cons first before ih => simp [ih]

theorem getElem?_split {xs : List α} {x : α} {i : Nat} (found : xs[i]? = some x) :
    ∃ before after, xs = before ++ x :: after ∧ before.length = i := by
  obtain ⟨bound, rfl⟩ := List.getElem?_eq_some_iff.1 found
  refine ⟨xs.take i, xs.drop (i + 1), ?_, ?_⟩
  · rw [← List.drop_eq_getElem_cons bound, List.take_append_drop]
  · exact List.length_take_of_le (Nat.le_of_lt bound)

/-- A marked element is the last one or stands left of it. -/
theorem split_last {before after front : List α} {x last : α}
    (split : before ++ x :: after = front ++ [last]) :
    after = [] ∧ before = front ∧ x = last ∨
      ∃ after', after = after' ++ [last] ∧ front = before ++ x :: after' := by
  rcases List.eq_nil_or_concat' after with rfl | ⟨after', last', rfl⟩
  · obtain ⟨frontEq, lastEq⟩ := List.append_inj' split rfl
    simp at lastEq
    exact .inl ⟨rfl, frontEq, lastEq⟩
  · have regroup : before ++ x :: (after' ++ [last']) = (before ++ x :: after') ++ [last'] := by
      simp
    rw [regroup] at split
    obtain ⟨frontEq, lastEq⟩ := List.append_inj' split rfl
    simp at lastEq
    exact .inr ⟨after', by rw [lastEq], frontEq.symm⟩

end Lists

variable {κ M : Type} [DecidableEq κ] [Monoid M]

/-- What a step at a frame has to keep. -/
structure StepOk (frame frame' : FullFrame κ M) : Prop where
  all : frame'.All FrameOk
  same : SameInParent frame frame'

/-- A step of the strand that keeps the children and what the frame yields. -/
theorem StepOk.of_move {frame : FullFrame κ M} {strand : Strand κ M} {added : List (κ × M)}
    (all : frame.All FrameOk) (ok : FrameOk { frame with
      strand := strand
      earlier := frame.earlier ++ added })
    (unreturned : ¬ frame.strand.Returned) (unreturned' : ¬ strand.Returned) :
    StepOk frame { frame with strand := strand, earlier := frame.earlier ++ added } where
  all := .mk ok all.children
  same := .of_unreturned rfl rfl rfl rfl unreturned unreturned'

/-- `of_move` for steps without updates. -/
theorem StepOk.of_still {frame : FullFrame κ M} {strand : Strand κ M} (all : frame.All FrameOk)
    (value : strand.value = frame.strand.value) (remaining : frame.strand.remaining = strand.remaining)
    (active : strand.active = frame.strand.active) (unsuspended : ¬ frame.strand.Suspended)
    (unsuspended' : ¬ strand.Suspended) (unsynched : ¬ frame.strand.Synched)
    (unsynched' : ¬ strand.Synched) (unreturned : ¬ frame.strand.Returned)
    (unreturned' : ¬ strand.Returned) (syncing : strand.Syncing → frame.unsynched = true) :
    StepOk frame { frame with strand := strand } := by
  have ok : FrameOk { frame with strand := strand, earlier := frame.earlier ++ [] } :=
    all.here.of_move (by simpa using value) remaining active unsuspended unsuspended' unsynched
      unsynched' unreturned (fun returned => absurd returned unreturned') syncing
  have step := StepOk.of_move all ok unreturned unreturned'
  simpa using step

theorem StepOk.of_execute {frame frame' : FullFrame κ M} (all : frame.All FrameOk)
    (taken : execute frame = some frame') : StepOk frame frame' := by
  unfold execute at taken
  split at taken
  · rename_i key value rest callers map pc
    cases taken
    apply StepOk.of_move all
    · apply all.here.of_move
      · simp [pc, mapValue_updateView]
      · simp [pc, programUpdates, Stmt.updates]
      all_goals simp [pc]
    all_goals simp [pc]
  · rename_i body rest callers map pc
    cases taken
    apply StepOk.of_still all
    · simp [pc]
    · simp [pc, programUpdates, Stmt.updates, callersUpdates]
    all_goals simp [pc]
  · rename_i body rest callers map pc
    cases taken
    apply StepOk.of_still all
    · simp [pc]
    · simp [pc, programUpdates, Stmt.updates, callersUpdates]
    all_goals simp [pc]
  · rename_i rest callers map pc
    split at taken
    · simp at taken
    · cases taken
      apply StepOk.of_still all
      · simp [pc]
      · simp [pc, programUpdates, Stmt.updates]
      all_goals simp [pc]
  · rename_i caller callers map pc
    cases taken
    apply StepOk.of_still all
    · simp [pc]
    · simp [pc, programUpdates, callersUpdates]
    all_goals simp [pc]
  · simp at taken

/-! ### Syncs -/

theorem StepOk.of_sync {frame frame' : FullFrame κ M} (all : frame.All FrameOk)
    (taken : frameStep frame .sync = some frame') : StepOk frame frame' := by
  simp only [frameStep] at taken
  split at taken
  · rename_i rest map unsynched pc
    cases taken
    apply StepOk.of_still all
    · simp [pc]
    · simp [pc, programUpdates, Stmt.updates, callersUpdates]
    all_goals simp [pc, unsynched]
  · rename_i map unsynched pc
    cases taken
    apply StepOk.of_still all
    · simp [pc]
    · simp [pc, programUpdates, callersUpdates]
    all_goals simp [pc, unsynched]
  · simp at taken

theorem StepOk.of_syncFast {frame frame' : FullFrame κ M} (all : frame.All FrameOk)
    (taken : frameStep frame .syncFast = some frame') : StepOk frame frame' := by
  simp only [frameStep] at taken
  split at taken
  · rename_i rest pc
    cases taken
    apply StepOk.of_still all <;> simp [pc]
  · rename_i map rest pc
    cases taken
    have unsynched := all.here.syncing (by simp [pc])
    apply StepOk.of_still all <;> simp [pc, unsynched]
  · simp at taken

theorem StepOk.of_syncMerge {frame frame' : FullFrame κ M} (all : frame.All FrameOk)
    (taken : frameStep frame .syncMerge = some frame') : StepOk frame frame' := by
  simp only [frameStep] at taken
  split at taken
  · rename_i left middle rest pc
    cases taken
    have unsynched := all.here.syncing (by simp [pc])
    apply StepOk.of_still all <;> simp [pc, unsynched]
  · simp at taken

/-- A step of a syncing strand that exchanges the slot to the left of its own map. -/
theorem StepOk.of_slot {frame : FullFrame κ M} {strand : Strand κ M}
    {map : Option (ReducerMap κ M)} (all : frame.All FrameOk) (syncing : frame.strand.Syncing)
    (value : mapValue map * strand.value =
      mapValue (frame.leftOfChild frame.children.length) * frame.strand.value)
    (remaining : frame.strand.remaining = strand.remaining)
    (active : strand.active = frame.strand.active) (unsuspended : ¬ strand.Suspended)
    (unsynched : ¬ strand.Synched) (unreturned : ¬ strand.Returned) :
    StepOk frame { frame.setLeftOfChild frame.children.length map with strand := strand } := by
  have ok := all.here
  have unsynchedEq := ok.syncing syncing
  have unsuspended' : ¬ frame.strand.Suspended := by
    cases pc : frame.strand <;> simp [pc] at syncing ⊢
  have unreturned' : ¬ frame.strand.Returned := by
    cases pc : frame.strand <;> simp [pc] at syncing ⊢
  have split : frame.children = frame.children ++ [] := by simp
  obtain ⟨base, before, slot⟩ := row_slot ignoresRight_yields split
  obtain ⟨childrenMap, children, setEq, length, after, origin⟩ := slot map
  rw [setEq]
  simp only [List.append_nil]
  have row := ok.row_eq unreturned'
  refine ⟨.mk ?_ ?_, .of_unreturned rfl rfl rfl rfl unreturned' unreturned⟩
  · exact
      { row_eq := fun _ => by
          simp only [FullFrame.row] at row ⊢
          rw [after, mul_assoc, value, ← mul_assoc, ← before, row]
        serial_eq := by
          rw [← remaining]
          exact ok.serial_eq
        join_eq := by
          simp only [length, active]
          exact ok.join_eq
        suspended := fun suspended => absurd suspended unsuspended
        unsuspended := fun _ child' mem => by
          obtain ⟨child, old, right, rfl⟩ := origin child' mem
          exact ok.unsuspended unsuspended' child old
        spawnless := by simp [unsynchedEq]
        childrenMap_none := by simp [unsynchedEq]
        synched := fun left => (left.elim unsynched unreturned).elim
        spawned := fun returned => absurd returned unreturned
        syncing := fun _ => unsynchedEq }
  · intro child' mem
    obtain ⟨child, old, right, rfl⟩ := origin child' mem
    exact allOk_setRight (all.children child old) right

theorem StepOk.of_syncSection {frame frame' : FullFrame κ M} (all : frame.All FrameOk)
    (taken : frameStep frame .syncSection = some frame') : StepOk frame frame' := by
  simp only [frameStep] at taken
  split at taken
  · rename_i middle rest pc
    cases taken
    unfold slowPathReductionsForSync
    cases left : frame.leftOfChild frame.children.length <;> cases middle <;>
      simp only [Option.isNone_none, Option.isNone_some, ↓reduceIte, Bool.false_eq_true] <;>
      apply StepOk.of_slot all <;> simp [pc, left]
  · simp at taken

/-! ### Returns from spawns -/

theorem StepOk.of_spawnReturn {frame frame' : FullFrame κ M} (all : frame.All FrameOk)
    (taken : frameStep frame .spawnReturn = some frame') : StepOk frame frame' := by
  simp only [frameStep] at taken
  split at taken
  · rename_i map isSpawned synched pc
    cases taken
    obtain ⟨-, -, value⟩ := all.here.finished synched pc
    have ok : FrameOk { frame with strand := .returning map, earlier := frame.earlier ++ [] } := by
      apply all.here.of_move <;>
        simp [pc, programUpdates, callersUpdates, synched, isSpawned]
    have unreturned : ¬ frame.strand.Returned := by simp [pc]
    refine ⟨.mk (by simpa using ok) all.children, rfl, rfl, rfl, rfl, ?_⟩
    rw [FullFrame.yields_of_unreturned unreturned, ← value]
    rfl
  · simp at taken

theorem StepOk.of_spawnReturnMerge {frame frame' : FullFrame κ M} (all : frame.All FrameOk)
    (taken : frameStep frame .spawnReturnMerge = some frame') : StepOk frame frame' := by
  simp only [frameStep] at taken
  split at taken
  · rename_i left middle right pc
    cases taken
    have returned : frame.strand.Returned := by simp [pc]
    refine ⟨.mk (all.here.of_returned returned (by simp) _) all.children, rfl, rfl, rfl, rfl, ?_⟩
    rw [FullFrame.yields_of_returned returned, FullFrame.yields_of_returned (by simp)]
    simp [pc]
  · simp at taken

/-- The product of the maps a critical section of a spawn return leaves. -/
def sectionValue : Option (ReducerMap κ M) ⊕
    Option (ReducerMap κ M) × Option (ReducerMap κ M) × Option (ReducerMap κ M) → κ → M
  | .inl left => mapValue left
  | .inr (left, middle, right) => mapValue left * mapValue middle * mapValue right

/-- The fast path slides the only map to the left. -/
theorem fastPath_value {left middle right map : Option (ReducerMap κ M)}
    (fast : fastPathReductionsForSpawnReturn left middle right = some map) :
    mapValue map = mapValue left * mapValue middle * mapValue right := by
  unfold fastPathReductionsForSpawnReturn at fast
  split at fast <;> simp at fast <;> subst fast <;> simp

/-- The slow path slides the maps to the left and takes them in order. -/
theorem slowPath_value (left middle right : Option (ReducerMap κ M)) :
    sectionValue (slowPathReductionsForSpawnReturn left middle right) =
      mapValue left * mapValue middle * mapValue right := by
  cases left <;> cases middle <;> cases right <;>
    simp [slowPathReductionsForSpawnReturn, sectionValue]

/-- A critical section of a spawn return keeps the row of the parent: it only moves maps between the
    child and the slots on both sides. -/
theorem spawnReturnSection_eq {share : FullFrame κ M → κ → M} (ignores : IgnoresRight share)
    {frame child : FullFrame κ M} {before after : List (FullFrame κ M)}
    (split : frame.children = before ++ child :: after)
    {result : Option (ReducerMap κ M) ⊕
      Option (ReducerMap κ M) × Option (ReducerMap κ M) × Option (ReducerMap κ M)}
    (value : sectionValue result = mapValue (frame.leftOfChild before.length) * share child *
      mapValue child.rightReducerMap)
    (reducing : ∀ left middle right,
      share { child with strand := .reducing left middle right, rightReducerMap := none } =
        mapValue left * mapValue middle * mapValue right) :
    ∃ childrenMap before' middle,
      spawnReturnSection frame before.length child result =
        { frame with
          childrenReducerMap := childrenMap
          children := before' ++ middle ++ after
          departed := frame.departed + (1 - middle.length) } ∧
      before'.length = before.length ∧
      (∀ child' ∈ before', ∃ child ∈ before, ∃ right,
        child' = { child with rightReducerMap := right }) ∧
      (middle = [] ∨ ∃ left mid right, middle =
        [{ child with strand := .reducing left mid right, rightReducerMap := none }]) ∧
      (spawnReturnSection frame before.length child result).row share = frame.row share := by
  obtain ⟨base, left, slot⟩ := row_slot ignores split
  have row : frame.row share = base * sectionValue result *
      (after.map (FullFrame.term share)).prod * frame.strand.value := by
    rw [row_split split, left, value]
    simp [FullFrame.term, mul_assoc]
  cases result with
  | inl map =>
      obtain ⟨childrenMap, before', setEq, length, product, origin⟩ := slot map
      have erased := eraseIdx_middle before' after child
      rw [length] at erased
      refine ⟨childrenMap, before', [], ?_, length, origin, .inl rfl, ?_⟩
      · simp [spawnReturnSection, setEq, erased]
      · rw [row]
        simp [spawnReturnSection, setEq, erased, FullFrame.row, sectionValue, ← product, mul_assoc]
  | inr maps =>
      obtain ⟨mapLeft, mid, mapRight⟩ := maps
      obtain ⟨childrenMap, before', setEq, length, product, origin⟩ := slot none
      have changed := set_middle before' after child
        { child with strand := .reducing mapLeft mid mapRight, rightReducerMap := none }
      rw [length] at changed
      refine ⟨childrenMap, before', _, ?_, length, origin, .inr ⟨mapLeft, mid, mapRight, rfl⟩, ?_⟩
      · simp [spawnReturnSection, setEq, changed]
      · rw [row]
        simp only [mapValue_none, mul_one] at product
        simp only [spawnReturnSection, setEq, changed, FullFrame.row, sectionValue, ← product,
          List.map_append, List.map_cons, List.prod_append, List.prod_cons, FullFrame.term, reducing,
          mapValue_none, mul_one, mul_assoc]

/-- What a critical section of a spawn return does. -/
theorem executeReductions_cases {frame frame' : FullFrame κ M} {i : Nat}
    (taken : executeReductionsForSpawnReturn frame i = some frame') :
    ∃ before child after result, frame.children = before ++ child :: after ∧
      child.strand.Returned ∧
      sectionValue result = mapValue (frame.leftOfChild before.length) * child.strand.value *
        mapValue child.rightReducerMap ∧
      frame' = spawnReturnSection frame before.length child result := by
  unfold executeReductionsForSpawnReturn at taken
  cases found : frame.children[i]? with
  | none => simp [found] at taken
  | some child =>
      obtain ⟨before, after, split, rfl⟩ := getElem?_split found
      simp only [found] at taken
      split at taken
      · rename_i middle pc
        split at taken
        · rename_i left fast
          cases taken
          exact ⟨before, child, after, .inl left, split, by simp [pc],
            by simpa [sectionValue, pc] using fastPath_value fast, rfl⟩
        · cases taken
          exact ⟨before, child, after, _, split, by simp [pc],
            by simpa [pc] using slowPath_value _ _ _, rfl⟩
      · rename_i middle pc
        cases taken
        exact ⟨before, child, after, _, split, by simp [pc],
          by simpa [pc] using slowPath_value _ _ _, rfl⟩
      · simp at taken

theorem StepOk.of_childSection {frame frame' : FullFrame κ M} {i : Nat} (all : frame.All FrameOk)
    (taken : frameStep frame (.childSection i) = some frame') : StepOk frame frame' := by
  obtain ⟨before, child, after, result, split, returned, value, rfl⟩ := executeReductions_cases taken
  have ok := all.here
  have childAll : child.All FrameOk := all.children child (by simp [split])
  have childSpawned := childAll.here.spawned returned
  have unsynched : frame.unsynched = true := by
    by_contra synched
    have called := ok.spawnless (by simpa using synched) child (by simp [split])
    simp [childSpawned] at called
  have unreturned : ¬ frame.strand.Returned := by
    intro returned'
    have synched := ok.synched (.inr returned')
    simp [unsynched] at synched
  rw [← FullFrame.yields_of_returned returned] at value
  obtain ⟨childrenMap, before', middle, sectionEq, length, origin, middleEq, row⟩ :=
    spawnReturnSection_eq ignoresRight_yields split value (fun _ _ _ =>
      FullFrame.yields_of_returned (by simp))
  rw [sectionEq] at row ⊢
  have middleSpawned : ∀ child' ∈ middle, child'.isCallChild = false := by
    rintro child' mem
    rcases middleEq with rfl | ⟨left, mid, right, rfl⟩
    · simp at mem
    · rw [List.mem_singleton.1 mem]
      exact childSpawned
  have beforeSpawned (spawned : ∀ child ∈ before, child.isCallChild = false) :
      ∀ child' ∈ before', child'.isCallChild = false := by
    intro child' mem
    obtain ⟨old, oldMem, right, rfl⟩ := origin child' mem
    exact spawned old oldMem
  refine ⟨.mk ?_ ?_, .of_unreturned rfl rfl rfl rfl unreturned unreturned⟩
  · exact
      { row_eq := fun _ => row.trans (ok.row_eq unreturned)
        serial_eq := ok.serial_eq
        join_eq := by
          have join := ok.join_eq
          simp only [split, List.length_append, List.length_cons] at join ⊢
          rcases middleEq with rfl | ⟨left, mid, right, rfl⟩
          · simp only [List.length_nil]
            omega
          · simp only [List.length_singleton]
            omega
        suspended := by
          intro suspended
          obtain ⟨spawned, called, childrenEq, isCalled, slot, spawnedEq⟩ := ok.suspended suspended
          have other : child ≠ called := by
            rintro rfl
            simp [childSpawned] at isCalled
          obtain ⟨after', rfl, rfl⟩ := (split_last (split.symm.trans childrenEq)).resolve_left
            fun last => other last.2.2
          refine ⟨before' ++ middle ++ after', called, by simp, isCalled, slot, ?_⟩
          intro child' mem
          rcases List.mem_append.1 mem with front | back
          · rcases List.mem_append.1 front with left | mid
            · exact beforeSpawned (fun old mem => spawnedEq old (by simp [mem])) child' left
            · exact middleSpawned child' mid
          · exact spawnedEq child' (by simp [back])
        unsuspended := by
          intro unsuspended child' mem
          have spawnedEq := ok.unsuspended unsuspended
          rcases List.mem_append.1 mem with front | back
          · rcases List.mem_append.1 front with left | mid
            · exact beforeSpawned (fun old mem => spawnedEq old (by simp [split, mem])) child' left
            · exact middleSpawned child' mid
          · exact spawnedEq child' (by simp [split, back])
        spawnless := by simp [unsynched]
        childrenMap_none := by simp [unsynched]
        synched := ok.synched
        spawned := ok.spawned
        syncing := ok.syncing }
  · intro child' mem
    rcases List.mem_append.1 mem with front | back
    · rcases List.mem_append.1 front with left | mid
      · obtain ⟨old, oldMem, right, rfl⟩ := origin child' left
        exact allOk_setRight (all.children old (by simp [split, oldMem])) right
      · rcases middleEq with rfl | ⟨left, middleMap, right, rfl⟩
        · simp at mid
        · rw [List.mem_singleton.1 mid]
          exact .mk (childAll.here.of_returned returned (by simp) none) childAll.children
    · exact all.children child' (by simp [split, back])

/-! ### The join counter -/

/-- `provably_good_steal` takes one reference away and passes the sync with the last one. -/
theorem FrameOk.of_provablyGoodSteal (frame : FullFrame κ M)
    (ok : FrameOk { frame with joinCounter := frame.joinCounter - 1 }) :
    FrameOk (provablyGoodSteal frame) ∧
      (provablyGoodSteal frame).children = frame.children ∧
      SameInParent frame (provablyGoodSteal frame) := by
  unfold provablyGoodSteal
  by_cases last : frame.joinCounter - 1 = 0
  · have join := ok.join_eq
    simp only [last] at join
    have empty : frame.children = [] := List.eq_nil_of_length_eq_zero (by omega)
    have inactive : frame.strand.active = 0 := by omega
    have unsuspended : ¬ frame.strand.Suspended := by
      intro suspended
      obtain ⟨spawned, called, childrenEq, -⟩ := ok.suspended suspended
      simp [empty] at childrenEq
    obtain ⟨rest, pc⟩ : ∃ rest, frame.strand = .stalled rest := by
      cases pc : frame.strand <;> simp [pc] at inactive unsuspended ⊢
    simp only [last, ↓reduceIte, pc]
    have row := ok.row_eq (by simp [pc])
    refine ⟨?_, trivial, .of_unreturned rfl rfl rfl rfl (by simp [pc]) (by simp)⟩
    exact
      { row_eq := fun _ => by simpa [FullFrame.row, pc] using row
        serial_eq := by simpa [pc] using ok.serial_eq
        join_eq := by
          simp only [empty, List.length_nil, Strand.active]
          omega
        suspended := by simp
        unsuspended := by simp [empty]
        spawnless := by simp [empty]
        childrenMap_none := by simp
        synched := fun _ => rfl
        spawned := by simp
        syncing := by simp }
  · simp only [last, ↓reduceIte]
    exact ⟨ok, trivial, rfl, rfl, rfl, rfl, rfl⟩

theorem StepOk.of_stall {frame frame' : FullFrame κ M} (all : frame.All FrameOk)
    (taken : frameStep frame .stall = some frame') : StepOk frame frame' := by
  simp only [frameStep] at taken
  split at taken
  · rename_i rest pc
    cases taken
    have ok := all.here
    have row := ok.row_eq (by simp [pc])
    have stalled : FrameOk
        { frame with joinCounter := frame.joinCounter - 1, strand := .stalled rest } :=
      { row_eq := fun _ => by simpa [FullFrame.row, pc] using row
        serial_eq := by simpa [pc] using ok.serial_eq
        join_eq := by
          have join := ok.join_eq
          simp only [pc, Strand.active] at join ⊢
          omega
        suspended := by simp
        unsuspended := fun _ => ok.unsuspended (by simp [pc])
        spawnless := ok.spawnless
        childrenMap_none := fun synched _ => ok.childrenMap_none synched (by simp [pc])
        synched := by simp
        spawned := by simp
        syncing := by simp }
    obtain ⟨ok', childrenEq, same⟩ :=
      FrameOk.of_provablyGoodSteal { frame with strand := .stalled rest } stalled
    have moved : SameInParent frame { frame with strand := .stalled rest } :=
      .of_unreturned rfl rfl rfl rfl (by simp [pc]) (by simp)
    refine ⟨.mk ok' ?_, same.isCallChild, same.rightReducerMap, same.start, same.serial,
      same.yields.trans moved.yields⟩
    rw [childrenEq]
    exact all.children
  · simp at taken

theorem StepOk.of_childJoin {frame frame' : FullFrame κ M} (all : frame.All FrameOk)
    (taken : frameStep frame .childJoin = some frame') : StepOk frame frame' := by
  simp only [frameStep] at taken
  split at taken
  · rename_i departed count
    cases taken
    have ok := all.here
    have joined : FrameOk
        { frame with joinCounter := frame.joinCounter - 1, departed := departed } :=
      { ok with
        join_eq := by
          have join := ok.join_eq
          rw [count] at join
          change frame.joinCounter - 1 = frame.children.length + departed + frame.strand.active
          omega }
    obtain ⟨ok', childrenEq, same⟩ :=
      FrameOk.of_provablyGoodSteal { frame with departed := departed } joined
    refine ⟨.mk ok' ?_, same.isCallChild, same.rightReducerMap, same.start, same.serial, same.yields⟩
    rw [childrenEq]
    exact all.children
  · simp at taken

/-! ### Resumptions -/

omit [DecidableEq κ] [Monoid M] in
/-- A frame that passed its sync resumes with the map of its children. -/
theorem setup_synched {frame : FullFrame κ M} (synched : frame.unsynched = false)
    (rest : List (Stmt κ M)) :
    setupForExecutionReducers frame none rest =
      { frame with
        childrenReducerMap := none
        strand := .running rest [] frame.childrenReducerMap } := by
  unfold setupForExecutionReducers
  cases frame.childrenReducerMap <;> simp [synched]

omit [DecidableEq κ] [Monoid M] in
/-- A frame that returns to a caller with no children's map keeps its map. -/
theorem setup_called {frame : FullFrame κ M}
    (none : frame.unsynched = false → frame.childrenReducerMap = none)
    (map : Option (ReducerMap κ M)) (rest : List (Stmt κ M)) :
    setupForExecutionReducers frame map rest = { frame with strand := .running rest [] map } := by
  unfold setupForExecutionReducers
  split
  · rename_i children synched found
    simp [none synched] at found
  · rfl

theorem StepOk.of_resume {frame frame' : FullFrame κ M} (all : frame.All FrameOk)
    (taken : frameStep frame .resume = some frame') : StepOk frame frame' := by
  simp only [frameStep] at taken
  split at taken
  · rename_i rest pc
    cases taken
    have ok := all.here
    have synched := ok.synched (.inl (by simp [pc]))
    have empty := ok.children_nil synched (by simp [pc])
    have row := ok.row_eq (by simp [pc])
    rw [setup_synched synched]
    refine ⟨.mk ?_ all.children, .of_unreturned rfl rfl rfl rfl (by simp [pc]) (by simp)⟩
    exact
      { row_eq := fun _ => by simpa [FullFrame.row, pc, empty] using row
        serial_eq := by simpa [pc, callersUpdates] using ok.serial_eq
        join_eq := by simpa [pc] using ok.join_eq
        suspended := by simp
        unsuspended := by simp [empty]
        spawnless := ok.spawnless
        childrenMap_none := by simp
        synched := by simp
        spawned := by simp
        syncing := by simp }
  · simp at taken

/-- What the return of a called full frame does. -/
theorem finalizeChild_cases {frame frame' : FullFrame κ M} (all : frame.All FrameOk)
    (taken : finalizeChildForCall frame = some frame') :
    ∃ rest spawned called map, frame.strand = .suspended rest ∧
      frame.children = spawned ++ [called] ∧ called.rightReducerMap = none ∧
      (∀ child ∈ spawned, child.isCallChild = false) ∧ called.unsynched = false ∧
      called.strand = .running [] [] map ∧
      frame' =
        { frame with
          children := spawned
          joinCounter := frame.joinCounter - 1 + 1
          strand := .running rest [] map } := by
  have ok := all.here
  unfold finalizeChildForCall at taken
  split at taken
  · rename_i rest child pc last
    obtain ⟨spawned, called, childrenEq, -, slot, spawnedEq⟩ := ok.suspended (by simp [pc])
    obtain rfl : called = child := by simpa [childrenEq] using last
    split at taken
    · rename_i map isCalled synched childPc
      cases taken
      refine ⟨rest, spawned, called, map, pc, childrenEq, slot, spawnedEq, synched, childPc, ?_⟩
      rw [setup_called]
      · simp [childrenEq]
      · exact fun frameSynched => ok.childrenMap_none frameSynched (by simp [pc])
    · simp at taken
  · simp at taken

theorem StepOk.of_callReturn {frame frame' : FullFrame κ M} (all : frame.All FrameOk)
    (taken : frameStep frame .callReturn = some frame') : StepOk frame frame' := by
  obtain ⟨rest, spawned, called, map, pc, childrenEq, slot, spawnedEq, synched, childPc, rfl⟩ :=
    finalizeChild_cases all taken
  have ok := all.here
  have calledOk := (all.children called (by simp [childrenEq])).here
  obtain ⟨-, -, value⟩ := calledOk.finished synched childPc
  have yields : called.yields = mapValue map := by
    rw [FullFrame.yields_of_unreturned (by simp [childPc]), value]
  have row := ok.row_eq (by simp [pc])
  refine ⟨.mk ?_ ?_, .of_unreturned rfl rfl rfl rfl (by simp [pc]) (by simp)⟩
  · exact
      { row_eq := fun _ => by
          simp only [FullFrame.row, childrenEq, pc] at row ⊢
          simpa [FullFrame.term, slot, yields, mul_assoc] using row
        serial_eq := by simpa [pc, callersUpdates] using ok.serial_eq
        join_eq := by
          have join := ok.join_eq
          simp only [childrenEq, pc, List.length_append, List.length_singleton, Strand.active] at join ⊢
          omega
        suspended := by simp
        unsuspended := fun _ => spawnedEq
        spawnless := fun synched child mem => ok.spawnless synched child (by simp [childrenEq, mem])
        childrenMap_none := fun synched _ => ok.childrenMap_none synched (by simp [pc])
        synched := by simp
        spawned := by simp
        syncing := by simp }
  · exact fun child mem => all.children child (by simp [childrenEq, mem])

end CilkL
