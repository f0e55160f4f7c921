/-
Module: CilkL.Proofs.FrameSteal
Layer: Proofs
Purpose: A steal keeps the invariant: the child stands to the right of all others with the map of the
  strand, the stolen continuation goes on with none, and every function between the two full frames
  becomes a called full frame that starts with the map the child started with.
Imports: CilkL.Proofs.FrameSteps
Trusted boundary: none (fully proved)
Main exports: StepOk.of_steal, StepOk.of_frameStep
Open obligations: none
-/
import CilkL.Proofs.FrameSteps

namespace CilkL

variable {κ M : Type}

@[simp] theorem stackUpdates_append (below above : List (List (Stmt κ M))) :
    stackUpdates (below ++ above) = stackUpdates below ++ stackUpdates above := by
  simp [stackUpdates]

@[simp] theorem stackUpdates_nil : stackUpdates ([] : List (List (Stmt κ M))) = [] := rfl

@[simp] theorem stackUpdates_cons (sf : List (Stmt κ M)) (stack : List (List (Stmt κ M))) :
    stackUpdates (sf :: stack) = programUpdates sf ++ stackUpdates stack := rfl

/-- The oldest continuation splits the callers' updates. -/
theorem oldestSpawn_updates {callers younger : List (Caller κ M)} {stolen : List (Stmt κ M)}
    {older : List (List (Stmt κ M))} (found : oldestSpawn callers = some (younger, stolen, older)) :
    callersUpdates callers = callersUpdates younger ++ stackUpdates (stolen :: older) := by
  induction callers generalizing younger with
  | nil => simp [oldestSpawn] at found
  | cons caller callers ih =>
      simp only [oldestSpawn] at found
      split at found
      · rename_i younger' stolen' older' deeper
        cases found
        simpa [callersUpdates] using ih deeper
      · split at found
        · cases found
          simp [callersUpdates, stackUpdates, List.flatMap_map]
        · simp at found

/-- Unrolling changes nothing of what the parent sees and leaves the frame at work. -/
theorem unroll_fields (child frame : FullFrame κ M) (sf : List (Stmt κ M))
    (unrolled : List (List (Stmt κ M))) :
    (unrollCallStack child frame sf unrolled).isCallChild = frame.isCallChild ∧
      (unrollCallStack child frame sf unrolled).rightReducerMap = frame.rightReducerMap ∧
      (unrollCallStack child frame sf unrolled).start = frame.start ∧
      (unrollCallStack child frame sf unrolled).serial = frame.serial ∧
      ¬ (unrollCallStack child frame sf unrolled).strand.Returned := by
  cases unrolled <;> simp [unrollCallStack]

/-- The child that the victim goes on with after a steal. -/
def victimChild (current : List (Stmt κ M)) (younger : List (Caller κ M))
    (map : Option (ReducerMap κ M)) : FullFrame κ M :=
  { makeFullFrame false (.running current younger map) map
      (programUpdates current ++ callersUpdates younger) with joinCounter := 1 }

/-- What a steal does. -/
theorem detachForSteal_cases {frame frame' : FullFrame κ M}
    (taken : detachForSteal frame = some frame') :
    ∃ current callers map younger stolen older sf unrolled,
      frame.strand = .running current callers map ∧
      oldestSpawn callers = some (younger, stolen, older) ∧
      (stolen :: older).reverse = sf :: unrolled ∧
      frame' = unrollCallStack (victimChild current younger map)
        { frame with joinCounter := frame.joinCounter - 1 } sf unrolled := by
  unfold detachForSteal at taken
  split at taken
  · rename_i current callers map pc
    split at taken
    · rename_i younger stolen older found
      split at taken
      · rename_i sf unrolled stack
        cases taken
        exact ⟨current, callers, map, younger, stolen, older, sf, unrolled, pc, found, stack, rfl⟩
      · simp at taken
    · simp at taken
  · simp at taken

variable [DecidableEq κ] [Monoid M]

/-- A frame whose call stack is about to be unrolled: its map is the one the child starts with. -/
structure Unrollable (child frame : FullFrame κ M) (stack : List (List (Stmt κ M))) : Prop where
  row_eq : mapValue frame.childrenReducerMap *
    (frame.children.map (FullFrame.term FullFrame.yields)).prod * mapValue child.start =
      mapValue frame.start * updatesValue frame.earlier
  serial_eq : frame.earlier ++ (child.serial ++ stackUpdates stack.reverse) = frame.serial
  join_eq : frame.joinCounter = frame.children.length + frame.departed
  unsuspended : ∀ child ∈ frame.children, child.isCallChild = false
  spawnless : frame.unsynched = false → ∀ child ∈ frame.children, child.isCallChild = true
  childrenMap_none : frame.unsynched = false → frame.childrenReducerMap = none
  children_ok : ∀ child ∈ frame.children, child.All FrameOk

/-- `unroll_call_stack` builds full frames that satisfy the invariant. -/
theorem Unrollable.unroll {child frame : FullFrame κ M} {sf : List (Stmt κ M)}
    {unrolled : List (List (Stmt κ M))} (childAll : child.All FrameOk)
    (childSpawned : child.isCallChild = false) (slot : child.rightReducerMap = none)
    (unreturned : ¬ child.strand.Returned) (ready : Unrollable child frame (sf :: unrolled)) :
    (unrollCallStack child frame sf unrolled).All FrameOk := by
  induction unrolled generalizing frame sf with
  | nil =>
      have yields := FullFrame.yields_of_unreturned unreturned
      refine .mk ?_ ?_
      · exact
          { row_eq := fun _ => by
              simp only [unrollCallStack, FullFrame.row, List.map_append, List.prod_append,
                List.map_singleton, List.prod_singleton, FullFrame.term, yields, slot, Strand.value,
                mapValue_none, mul_one, updatesValue_append, ← mul_assoc]
              rw [ready.row_eq]
            serial_eq := by simpa [unrollCallStack, callersUpdates] using ready.serial_eq
            join_eq := by
              simp only [unrollCallStack, ready.join_eq, List.length_append, List.length_singleton,
                Strand.active]
              omega
            suspended := by simp [unrollCallStack]
            unsuspended := fun _ child' mem => by
              rcases List.mem_append.1 mem with old | new
              · exact ready.unsuspended child' old
              · rwa [List.mem_singleton.1 new]
            spawnless := by simp [unrollCallStack]
            childrenMap_none := by simp [unrollCallStack]
            synched := by simp [unrollCallStack]
            spawned := by simp [unrollCallStack]
            syncing := by simp [unrollCallStack] }
      · intro child' mem
        rcases List.mem_append.1 mem with old | new
        · exact ready.children_ok child' old
        · rwa [List.mem_singleton.1 new]
  | cons sf' unrolled ih =>
      have calleeReady : Unrollable child (makeFullFrame true (.suspended sf') child.start
          (child.serial ++ stackUpdates (sf' :: unrolled).reverse)) (sf' :: unrolled) :=
        { row_eq := by simp [makeFullFrame]
          serial_eq := rfl
          join_eq := rfl
          unsuspended := by simp [makeFullFrame]
          spawnless := by simp [makeFullFrame]
          childrenMap_none := fun _ => rfl
          children_ok := by simp [makeFullFrame] }
      have calleeAll := ih calleeReady
      obtain ⟨called, calleeSlot, start, serial, working⟩ := unroll_fields child
        (makeFullFrame true (.suspended sf') child.start
          (child.serial ++ stackUpdates (sf' :: unrolled).reverse)) sf' unrolled
      have calleeTerm : FullFrame.term FullFrame.yields (unrollCallStack child
          (makeFullFrame true (.suspended sf') child.start
            (child.serial ++ stackUpdates (sf' :: unrolled).reverse)) sf' unrolled) =
          mapValue child.start *
            updatesValue (child.serial ++ stackUpdates (sf' :: unrolled).reverse) := by
        rw [FullFrame.term, FullFrame.yields_of_unreturned working, start, serial, calleeSlot]
        exact mul_one _
      refine .mk ?_ ?_
      · exact
          { row_eq := fun _ => by
              simp only [unrollCallStack, FullFrame.row, List.map_append, List.prod_append,
                List.map_singleton, List.prod_singleton, calleeTerm, Strand.value, mul_one,
                updatesValue_append, ← mul_assoc]
              rw [ready.row_eq]
            serial_eq := by simpa [unrollCallStack] using ready.serial_eq
            join_eq := by
              simp only [unrollCallStack, ready.join_eq, List.length_append, List.length_singleton,
                Strand.active]
              omega
            suspended := fun _ => ⟨frame.children, _, rfl, called, calleeSlot, ready.unsuspended⟩
            unsuspended := by simp [unrollCallStack]
            spawnless := fun synched child' mem => by
              rcases List.mem_append.1 mem with old | new
              · exact ready.spawnless synched child' old
              · rwa [List.mem_singleton.1 new]
            childrenMap_none := fun synched _ => ready.childrenMap_none synched
            synched := by simp [unrollCallStack]
            spawned := by simp [unrollCallStack]
            syncing := by simp [unrollCallStack] }
      · intro child' mem
        rcases List.mem_append.1 mem with old | new
        · exact ready.children_ok child' old
        · rwa [List.mem_singleton.1 new]

theorem victimChild_ok (current : List (Stmt κ M)) (younger : List (Caller κ M))
    (map : Option (ReducerMap κ M)) : (victimChild current younger map).All FrameOk := by
  refine .mk ?_ (by simp [victimChild, makeFullFrame])
  constructor <;> simp [victimChild, makeFullFrame, FullFrame.row]

theorem StepOk.of_steal {frame frame' : FullFrame κ M} (all : frame.All FrameOk)
    (taken : frameStep frame .steal = some frame') : StepOk frame frame' := by
  obtain ⟨current, callers, map, younger, stolen, older, sf, unrolled, pc, found, stack, rfl⟩ :=
    detachForSteal_cases taken
  have ok := all.here
  have row := ok.row_eq (by simp [pc])
  have stackEq : (sf :: unrolled).reverse = stolen :: older := by rw [← stack, List.reverse_reverse]
  have ready : Unrollable (victimChild current younger map)
      { frame with joinCounter := frame.joinCounter - 1 } (sf :: unrolled) :=
    { row_eq := by simpa [FullFrame.row, pc, victimChild, makeFullFrame] using row
      serial_eq := by
        have serial := ok.serial_eq
        rw [pc, Strand.remaining, oldestSpawn_updates found] at serial
        rw [stackEq]
        simpa [victimChild, makeFullFrame] using serial
      join_eq := by
        have join := ok.join_eq
        simp only [pc, Strand.active] at join ⊢
        omega
      unsuspended := ok.unsuspended (by simp [pc])
      spawnless := ok.spawnless
      childrenMap_none := fun synched => ok.childrenMap_none synched (by simp [pc])
      children_ok := all.children }
  obtain ⟨isCallChild, right, start, serial, working⟩ := unroll_fields (victimChild current younger map)
    { frame with joinCounter := frame.joinCounter - 1 } sf unrolled
  exact ⟨ready.unroll (victimChild_ok current younger map) rfl rfl (by simp [victimChild, makeFullFrame]),
    .of_unreturned isCallChild right start serial (by simp [pc]) working⟩

/-- Every step at a frame keeps the invariant. -/
theorem StepOk.of_frameStep {frame frame' : FullFrame κ M} {action : FrameAction}
    (all : frame.All FrameOk) (taken : frameStep frame action = some frame') :
    StepOk frame frame' := by
  cases action with
  | execute => exact .of_execute all taken
  | steal => exact .of_steal all taken
  | sync => exact .of_sync all taken
  | syncFast => exact .of_syncFast all taken
  | syncSection => exact .of_syncSection all taken
  | syncMerge => exact .of_syncMerge all taken
  | stall => exact .of_stall all taken
  | resume => exact .of_resume all taken
  | spawnReturn => exact .of_spawnReturn all taken
  | spawnReturnMerge => exact .of_spawnReturnMerge all taken
  | childSection i => exact .of_childSection all taken
  | childJoin => exact .of_childJoin all taken
  | callReturn => exact .of_callReturn all taken

end CilkL
