/-
Module: CilkL.Proofs.ReducerDeterminism
Layer: Proofs
Purpose: Reducer determinism. No step other than an update changes the left-to-right product of the maps
  of a tree of full frames, and a frame that passes its sync finds in `children_reducer_map` the updates
  of all strands before the sync in serial order, whatever the order of the returns, stalls, steals and
  reductions.
Imports: CilkL.Proofs.FrameSteal, Mathlib
Trusted boundary: none (fully proved)
Main exports: FullFrame.product, product_treeStep, frameOk_reachable, reducer_determinism
Open obligations: none
-/
import CilkL.Proofs.FrameSteal
import Mathlib

namespace CilkL

variable {κ M : Type}

/-- A frame of the tree. -/
inductive FullFrame.Within : FullFrame κ M → FullFrame κ M → Prop where
  | root (frame : FullFrame κ M) : FullFrame.Within frame frame
  | child {frame child root : FullFrame κ M} (mem : child ∈ root.children)
      (within : FullFrame.Within frame child) : FullFrame.Within frame root

theorem FullFrame.All.within {property : FullFrame κ M → Prop} {frame root : FullFrame κ M}
    (all : root.All property) (within : frame.Within root) : frame.All property := by
  induction within with
  | root => exact all
  | child mem within ih => exact ih (all.children _ mem)

variable [DecidableEq κ] [Monoid M]

/-! ### Steps anywhere in the tree -/

/-- A frame keeps its invariant when a child changes nothing that the frame sees. -/
theorem FrameOk.setChild {frame child child' : FullFrame κ M} {i : Nat} (ok : FrameOk frame)
    (found : frame.children[i]? = some child) (same : SameInParent child child') :
    FrameOk { frame with children := frame.children.set i child' } := by
  obtain ⟨before, after, split, rfl⟩ := getElem?_split found
  have changed : frame.children.set before.length child' = before ++ child' :: after := by
    rw [split, set_middle]
  have term : FullFrame.term FullFrame.yields child' = FullFrame.term FullFrame.yields child := by
    simp only [FullFrame.term, same.yields, same.rightReducerMap]
  have kept (expected : Bool) (alike : ∀ other ∈ frame.children, other.isCallChild = expected) :
      ∀ other ∈ before ++ child' :: after, other.isCallChild = expected := by
    intro other mem
    rcases List.mem_append.1 mem with front | back
    · exact alike other (by simp [split, front])
    · rcases List.mem_cons.1 back with rfl | rest
      · exact same.isCallChild.trans (alike child (by simp [split]))
      · exact alike other (by simp [split, rest])
  rw [changed]
  exact
    { ok with
      row_eq := fun unreturned => by
        have row := ok.row_eq unreturned
        simp only [FullFrame.row, split, List.map_append, List.map_cons, term] at row ⊢
        exact row
      join_eq := by
        have join := ok.join_eq
        rw [split] at join
        simpa using join
      suspended := fun suspended => by
        obtain ⟨spawned, called, childrenEq, isCalled, slot, spawnedEq⟩ := ok.suspended suspended
        rcases split_last (split.symm.trans childrenEq) with ⟨rfl, rfl, rfl⟩ | ⟨after', rfl, rfl⟩
        · exact ⟨before, child', rfl, same.isCallChild.trans isCalled,
            same.rightReducerMap.trans slot, spawnedEq⟩
        · refine ⟨before ++ child' :: after', called, by simp, isCalled, slot, ?_⟩
          intro other mem
          rcases List.mem_append.1 mem with front | back
          · exact spawnedEq other (by simp [front])
          · rcases List.mem_cons.1 back with rfl | rest
            · exact same.isCallChild.trans (spawnedEq child (by simp))
            · exact spawnedEq other (by simp [rest])
      unsuspended := fun unsuspended => kept false (ok.unsuspended unsuspended)
      spawnless := fun synched => kept true (ok.spawnless synched) }

/-- A step anywhere in the tree keeps the invariant of all frames. -/
theorem StepOk.of_treeStep {root root' : FullFrame κ M} {path : List Nat} {action : FrameAction}
    (all : root.All FrameOk) (taken : treeStep root path action = some root') :
    StepOk root root' := by
  induction path generalizing root root' with
  | nil => exact .of_frameStep all taken
  | cons i path ih =>
      simp only [treeStep] at taken
      cases found : root.children[i]? with
      | none => simp [found] at taken
      | some child =>
          simp only [found] at taken
          cases stepped : treeStep child path action with
          | none => simp [stepped] at taken
          | some child' =>
              simp only [stepped, Option.some.injEq] at taken
              subst taken
              have mem := List.mem_of_getElem? found
              have step := ih (all.children child mem) stepped
              refine ⟨.mk (all.here.setChild found step.same) ?_, rfl, rfl, rfl, rfl, rfl⟩
              intro other otherMem
              rcases List.mem_or_eq_of_mem_set otherMem with old | rfl
              · exact all.children other old
              · exact step.all

theorem FrameOk.of_initial (program : List (Stmt κ M)) : (initialFrame program).All FrameOk := by
  refine .mk ?_ (by simp [initialFrame, makeFullFrame])
  constructor <;> simp [initialFrame, makeFullFrame, FullFrame.row, callersUpdates]

/-- The invariant holds in every frame of the tree after every interleaving, and the root keeps its
    program. -/
theorem frameOk_reachable {program : List (Stmt κ M)} {root : FullFrame κ M}
    (reachable : (frameMachine program).Reachable root) :
    root.All FrameOk ∧ root.start = none ∧ root.serial = programUpdates program := by
  apply reachable.invariant
  · rintro _ rfl
    exact ⟨FrameOk.of_initial program, rfl, rfl⟩
  · rintro _ _ _ - ⟨all, start, serial⟩ taken
    have step := StepOk.of_treeStep all taken
    exact ⟨step.all, step.same.start.trans start, step.same.serial.trans serial⟩

/-! ### The product of the maps of a tree -/

mutual

/-- The left-to-right product of the maps of a tree: `children_reducer_map`, for each child the product
    of its tree and its `right_reducer_map`, and the map of the frame's strand. -/
def FullFrame.product : FullFrame κ M → κ → M
  | ⟨_, _, _, _, childrenReducerMap, _, children, strand, _, _, _⟩ =>
      mapValue childrenReducerMap * siblingsProduct children * strand.value

/-- The left-to-right product of the maps of siblings. -/
def siblingsProduct : List (FullFrame κ M) → κ → M
  | [] => 1
  | child :: children =>
      child.product * mapValue child.rightReducerMap * siblingsProduct children

end

theorem siblingsProduct_eq (children : List (FullFrame κ M)) :
    siblingsProduct children = (children.map (FullFrame.term FullFrame.product)).prod := by
  induction children with
  | nil => rfl
  | cons child children ih => simp [siblingsProduct, ih, FullFrame.term]

theorem FullFrame.product_eq (frame : FullFrame κ M) :
    frame.product = frame.row FullFrame.product := by
  cases frame
  simp only [FullFrame.product, FullFrame.row, siblingsProduct_eq]

theorem ignoresRight_product : IgnoresRight (FullFrame.product : FullFrame κ M → κ → M) := by
  intro child map
  cases child
  rfl

/-- A frame that returned, or is at the end of its program, has only the map of its strand. -/
theorem product_of_leaf {frame : FullFrame κ M} (empty : frame.children = [])
    (none : frame.childrenReducerMap = none) : frame.product = frame.strand.value := by
  rw [FullFrame.product_eq]
  simp [FullFrame.row, empty, none]

/-- Unrolling the call stack gives the strand's map to the child. -/
theorem product_unroll {child frame : FullFrame κ M} {sf : List (Stmt κ M)}
    {unrolled : List (List (Stmt κ M))} (slot : child.rightReducerMap = none) :
    (unrollCallStack child frame sf unrolled).product =
      mapValue frame.childrenReducerMap * siblingsProduct frame.children * child.product := by
  induction unrolled generalizing frame sf with
  | nil =>
      rw [FullFrame.product_eq]
      simp [unrollCallStack, FullFrame.row, FullFrame.term, slot, siblingsProduct_eq, mul_assoc]
  | cons sf' unrolled ih =>
      have calleeSlot := (unroll_fields child (makeFullFrame true (.suspended sf') child.start
        (child.serial ++ stackUpdates (sf' :: unrolled).reverse)) sf' unrolled).2.1
      have callee : FullFrame.term FullFrame.product (unrollCallStack child
          (makeFullFrame true (.suspended sf') child.start
            (child.serial ++ stackUpdates (sf' :: unrolled).reverse)) sf' unrolled) =
          child.product := by
        rw [FullFrame.term, ih, calleeSlot]
        simp [makeFullFrame, siblingsProduct]
      rw [FullFrame.product_eq]
      simp only [unrollCallStack, FullFrame.row, List.map_append, List.prod_append,
        List.map_singleton, List.prod_singleton, callee, Strand.value, mul_one, siblingsProduct_eq,
        mul_assoc]

/-- The next statement is an update. -/
def FullFrame.Updating (frame : FullFrame κ M) : Prop :=
  match frame.strand with
  | .running (.update _ _ :: _) _ _ => True
  | _ => False

/-- A step that only moves the strand's maps keeps the product. -/
theorem product_move {frame : FullFrame κ M} {strand : Strand κ M}
    (value : strand.value = frame.strand.value) :
    FullFrame.product { frame with strand := strand } = frame.product := by
  rw [FullFrame.product_eq, FullFrame.product_eq, FullFrame.row, value]
  rfl

theorem product_execute {frame frame' : FullFrame κ M} (other : ¬ frame.Updating)
    (taken : execute frame = some frame') : frame'.product = frame.product := by
  unfold execute at taken
  split at taken
  · rename_i pc
    simp [FullFrame.Updating, pc] at other
  · rename_i pc
    cases taken
    exact product_move (by simp [pc])
  · rename_i pc
    cases taken
    exact product_move (by simp [pc])
  · rename_i pc
    split at taken
    · simp at taken
    · cases taken
      exact product_move (by simp [pc])
  · rename_i pc
    cases taken
    exact product_move (by simp [pc])
  · simp at taken

theorem product_steal {frame frame' : FullFrame κ M}
    (taken : detachForSteal frame = some frame') : frame'.product = frame.product := by
  obtain ⟨current, callers, map, younger, stolen, older, sf, unrolled, pc, -, -, rfl⟩ :=
    detachForSteal_cases taken
  have child : (victimChild current younger map).product = mapValue map := product_of_leaf rfl rfl
  rw [product_unroll rfl, child, FullFrame.product_eq]
  simp [FullFrame.row, pc, siblingsProduct_eq]

/-- A critical section of a sync moves maps between the strand and the slot on its left. -/
theorem product_syncSection {frame frame' : FullFrame κ M}
    (taken : frameStep frame .syncSection = some frame') : frame'.product = frame.product := by
  rw [FullFrame.product_eq, FullFrame.product_eq]
  simp only [frameStep] at taken
  split at taken
  · rename_i middle rest pc
    cases taken
    have split : frame.children = frame.children ++ [] := by simp
    obtain ⟨base, left, slot⟩ := row_slot ignoresRight_product split
    have moved (map : Option (ReducerMap κ M)) (strand : Strand κ M)
        (value : mapValue map * strand.value =
          mapValue (frame.leftOfChild frame.children.length) * mapValue middle) :
        FullFrame.row FullFrame.product
          { frame.setLeftOfChild frame.children.length map with strand := strand } =
          frame.row FullFrame.product := by
      obtain ⟨childrenMap, children, setEq, -, product, -⟩ := slot map
      rw [setEq]
      simp only [FullFrame.row, List.append_nil, product, left, pc]
      rw [mul_assoc, value]
      exact (mul_assoc _ _ _).symm
    unfold slowPathReductionsForSync
    cases left : frame.leftOfChild frame.children.length <;> cases middle <;>
      simp only [Option.isNone_none, Option.isNone_some, ↓reduceIte, Bool.false_eq_true] <;>
      apply moved <;> simp [left]
  · simp at taken

/-- A critical section of a spawn return moves maps between the child and its neighbours. -/
theorem product_childSection {frame frame' : FullFrame κ M} {i : Nat} (all : frame.All FrameOk)
    (taken : executeReductionsForSpawnReturn frame i = some frame') :
    frame'.product = frame.product := by
  obtain ⟨before, child, after, result, split, returned, value, rfl⟩ := executeReductions_cases taken
  have childOk := (all.children child (by simp [split])).here
  obtain ⟨empty, none⟩ := childOk.returned returned
  rw [← product_of_leaf empty none] at value
  obtain ⟨-, -, -, -, -, -, -, row⟩ := spawnReturnSection_eq ignoresRight_product split value
    (fun _ _ _ => product_of_leaf empty none)
  rw [FullFrame.product_eq, FullFrame.product_eq, row]

theorem product_callReturn {frame frame' : FullFrame κ M} (all : frame.All FrameOk)
    (taken : finalizeChildForCall frame = some frame') : frame'.product = frame.product := by
  obtain ⟨rest, spawned, called, map, pc, childrenEq, slot, -, synched, childPc, rfl⟩ :=
    finalizeChild_cases all taken
  obtain ⟨empty, none, -⟩ := (all.children called (by simp [childrenEq])).here.finished synched childPc
  have product : called.product = mapValue map := by
    rw [product_of_leaf empty none, childPc]
    rfl
  rw [FullFrame.product_eq, FullFrame.product_eq]
  simp [FullFrame.row, childrenEq, pc, FullFrame.term, product, slot, mul_assoc]

theorem product_provablyGoodSteal (frame : FullFrame κ M) :
    (provablyGoodSteal frame).product = frame.product := by
  rw [FullFrame.product_eq, FullFrame.product_eq]
  simp only [provablyGoodSteal]
  split
  · split
    · rename_i pc
      simp [FullFrame.row, pc]
    · rfl
  · rfl

/-- A step at a frame that is not an update keeps the product of the maps of its tree. -/
theorem product_frameStep {frame frame' : FullFrame κ M} {action : FrameAction}
    (all : frame.All FrameOk) (other : ¬ (action = .execute ∧ frame.Updating))
    (taken : frameStep frame action = some frame') : frame'.product = frame.product := by
  cases action with
  | execute => exact product_execute (fun updating => other ⟨rfl, updating⟩) taken
  | steal => exact product_steal taken
  | syncSection => exact product_syncSection taken
  | childSection i => exact product_childSection all taken
  | callReturn => exact product_callReturn all taken
  | stall =>
      simp only [frameStep] at taken
      split at taken
      · rename_i pc
        cases taken
        rw [product_provablyGoodSteal]
        exact product_move (by simp [pc])
      · simp at taken
  | childJoin =>
      simp only [frameStep] at taken
      split at taken
      · cases taken
        rw [product_provablyGoodSteal, FullFrame.product_eq, FullFrame.product_eq]
        rfl
      · simp at taken
  | resume =>
      simp only [frameStep] at taken
      split at taken
      · rename_i pc
        cases taken
        have synched := all.here.synched (.inl (by simp [pc]))
        have empty := all.here.children_nil synched (by simp [pc])
        rw [setup_synched synched, FullFrame.product_eq, FullFrame.product_eq]
        simp [FullFrame.row, pc, empty]
      · simp at taken
  | sync =>
      simp only [frameStep] at taken
      split at taken
      · rename_i pc
        cases taken
        exact product_move (by simp [pc])
      · rename_i pc
        cases taken
        exact product_move (by simp [pc])
      · simp at taken
  | syncFast =>
      simp only [frameStep] at taken
      split at taken
      · rename_i pc
        cases taken
        exact product_move (by simp [pc])
      · rename_i pc
        cases taken
        exact product_move (by simp [pc])
      · simp at taken
  | syncMerge =>
      simp only [frameStep] at taken
      split at taken
      · rename_i pc
        cases taken
        exact product_move (by simp [pc])
      · simp at taken
  | spawnReturn =>
      simp only [frameStep] at taken
      split at taken
      · rename_i pc
        cases taken
        exact product_move (by simp [pc])
      · simp at taken
  | spawnReturnMerge =>
      simp only [frameStep] at taken
      split at taken
      · rename_i pc
        cases taken
        exact product_move (by simp [pc])
      · simp at taken

/-- The next statement of the frame at a path is an update. -/
def FullFrame.UpdatingAt : FullFrame κ M → List Nat → Prop
  | frame, [] => frame.Updating
  | frame, i :: path =>
      match frame.children[i]? with
      | none => False
      | some child => child.UpdatingAt path

/-- A step anywhere in a tree that is not an update keeps the product of its maps. -/
theorem product_treeStep {root root' : FullFrame κ M} {path : List Nat} {action : FrameAction}
    (all : root.All FrameOk) (other : ¬ (action = .execute ∧ root.UpdatingAt path))
    (taken : treeStep root path action = some root') : root'.product = root.product := by
  induction path generalizing root root' with
  | nil => exact product_frameStep all other taken
  | cons i path ih =>
      simp only [treeStep] at taken
      cases found : root.children[i]? with
      | none => simp [found] at taken
      | some child =>
          simp only [found] at taken
          cases stepped : treeStep child path action with
          | none => simp [stepped] at taken
          | some child' =>
              simp only [stepped, Option.some.injEq] at taken
              subst taken
              have childAll := all.children child (List.mem_of_getElem? found)
              have product := ih childAll (by simpa [FullFrame.UpdatingAt, found] using other) stepped
              have right := (StepOk.of_treeStep childAll stepped).same.rightReducerMap
              obtain ⟨before, after, split, rfl⟩ := getElem?_split found
              rw [FullFrame.product_eq, FullFrame.product_eq]
              simp only [FullFrame.row, split, set_middle, List.map_append, List.map_cons,
                FullFrame.term, product, right]

/-! ### Determinism -/

/-- In every tree of full frames that an execution of a program reaches, whatever the interleaving of the
    strands, thieves and reductions: no step other than an update changes the product, left to right, of
    the maps of a tree; a frame that passed its sync has no children left and finds in
    `children_reducer_map` the map it started with times its updates before the sync in serial order;
    the root started with no map and its updates are those of the program, so that the program ends with
    the product of all its updates in serial order. -/
theorem reducer_determinism {program : List (Stmt κ M)} {root : FullFrame κ M}
    (reachable : (frameMachine program).Reachable root) :
    (∀ frame : FullFrame κ M, frame.Within root → ∀ path action frame',
      treeStep frame path action = some frame' → ¬ (action = .execute ∧ frame.UpdatingAt path) →
      frame'.product = frame.product) ∧
    (∀ frame : FullFrame κ M, frame.Within root → ∀ rest, frame.strand = .synched rest →
      frame.children = [] ∧
      mapValue frame.childrenReducerMap = mapValue frame.start * updatesValue frame.earlier ∧
      frame.earlier ++ programUpdates rest = frame.serial) ∧
    (root.start = none ∧ root.serial = programUpdates program ∧
      ∀ map, root.strand = .running [] [] map → root.unsynched = false →
        mapValue map = updatesValue (programUpdates program)) := by
  obtain ⟨all, start, serial⟩ := frameOk_reachable reachable
  refine ⟨?_, ?_, start, serial, ?_⟩
  · intro frame within path action frame' taken other
    exact product_treeStep (all.within within) other taken
  · intro frame within rest pc
    have ok := (all.within within).here
    have synched := ok.synched (.inl (by simp [pc]))
    have empty := ok.children_nil synched (by simp [pc])
    have row := ok.row_eq (by simp [pc])
    refine ⟨empty, ?_, ?_⟩
    · simpa [FullFrame.row, empty, pc] using row
    · simpa [pc] using ok.serial_eq
  · intro map pc synched
    obtain ⟨-, -, value⟩ := all.here.finished synched pc
    simpa [start, serial] using value

/-- Three updates of one reducer whose operation does not commute, the second in a spawned function. -/
def threeUpdates : List (Stmt (Fin 1) (FreeMonoid (Fin 3))) :=
  [.update 0 (.of 0), .spawn [.update 0 (.of 1)], .update 0 (.of 2), .sync]

/-- The continuation of the spawn is stolen; the thief stalls at the sync before the child returns, whose
    reductions take two critical sections. -/
def threeUpdatesTrace : List (List Nat × FrameAction) :=
  [([], .execute), ([], .execute), ([], .steal), ([], .execute), ([], .sync), ([], .syncFast),
    ([], .syncSection), ([0], .execute), ([0], .spawnReturn), ([], .childSection 0), ([], .stall),
    ([0], .spawnReturnMerge), ([], .childSection 0), ([], .childJoin)]

theorem reducer_determinism_three :
    mapValue ((frameMachine threeUpdates).after (initialFrame threeUpdates)
        threeUpdatesTrace).childrenReducerMap =
      updatesValue [(0, .of 0), (0, .of 1), (0, .of 2)] := by
  have start : (frameMachine threeUpdates).Reachable (initialFrame threeUpdates) := .start rfl
  have passed := ((reducer_determinism (start.after threeUpdatesTrace)).2.1 _ (.root _) [] rfl).2.1
  exact passed.trans (one_mul _)

end CilkL
