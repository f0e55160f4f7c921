/-
Module: CilkL.Proofs.ReducerProgress
Layer: Proofs
Purpose: Executions of a fork-join program end, and only with the program done. A potential of the tree of full
  frames pays for every step of the reducer protocol: a statement for what it starts, a continuation in a deque
  for its theft, a map for its merge, an unsynched frame for its sync. No frame waits for ever: one that is
  stalled at a sync has a child that is at work, or one that is about to decrement its join counter.
Imports: CilkL.Library.Potential, CilkL.Proofs.ReducerDeterminism
Trusted boundary: none (fully proved)
Main exports: programWeight, FullFrame.potential, StallOk, potential_treeStep, Moves, fork_join_completes
Open obligations: none
-/
import CilkL.Library.Potential
import CilkL.Proofs.ReducerDeterminism

namespace CilkL

variable {κ M : Type}

/-! ### The potential -/

mutual

/-- What the steps that a statement causes can take at most. -/
def Stmt.weight : Stmt κ M → Nat
  | .update _ _ => 5
  | .spawn body => 15 + programWeight body
  | .call body => 2 + programWeight body
  | .sync => 1

/-- What the steps of a program can take at most. -/
def programWeight : List (Stmt κ M) → Nat
  | [] => 0
  | stmt :: rest => stmt.weight + programWeight rest

end

/-- A continuation in the deque pays for its theft, the spawn return and the sync that come of it; a function
    that was called, for its promotion to a full frame. -/
def Link.weight : Link → Nat
  | .spawned => 14
  | .called => 1

/-- The weight of the functions below the running one. -/
def callersWeight : List (Caller κ M) → Nat
  | [] => 0
  | caller :: callers => caller.link.weight + programWeight caller.rest + callersWeight callers

/-- The number of maps a pointer refers to. -/
def mapCount : Option (ReducerMap κ M) → Nat
  | none => 0
  | some _ => 1

@[simp] theorem mapCount_none : mapCount (none : Option (ReducerMap κ M)) = 0 := rfl

@[simp] theorem mapCount_some (map : ReducerMap κ M) : mapCount (some map) = 1 := rfl

theorem mapCount_le (map : Option (ReducerMap κ M)) : mapCount map ≤ 1 := by cases map <;> simp

/-- What the steps of a strand can take at most. A merge in progress counts for one map. -/
def Strand.potential : Strand κ M → Nat
  | .running current callers map =>
      programWeight current + callersWeight callers + 4 * mapCount map + 6
  | .suspended rest => programWeight rest + 1
  | .returning map | .reduced map => 2 * mapCount map + 5
  | .reducing left middle right => 2 * min 1 (mapCount left + mapCount middle + mapCount right) + 6
  | .syncing map rest => programWeight rest + 4 * mapCount map + 3
  | .syncLocking map rest => programWeight rest + 4 * mapCount map + 2
  | .syncReducing left middle rest => programWeight rest + 4 * min 1 (mapCount left + mapCount middle) + 3
  | .stalling rest => programWeight rest + 1
  | .stalled rest => programWeight rest
  | .synched rest => programWeight rest + 7

/-- An unsynched frame pays for the resumption after its sync. -/
def unsynchedPotential (unsynched : Bool) : Nat := if unsynched then 7 else 0

@[simp] theorem unsynchedPotential_true : unsynchedPotential true = 7 := rfl

@[simp] theorem unsynchedPotential_false : unsynchedPotential false = 0 := rfl

mutual

/-- What the steps of a tree of full frames can take at most. -/
def FullFrame.potential : FullFrame κ M → Nat
  | ⟨_, unsynched, _, departed, childrenReducerMap, rightReducerMap, children, strand, _, _, _⟩ =>
      strand.potential + unsynchedPotential unsynched + departed + 4 * mapCount childrenReducerMap +
        4 * mapCount rightReducerMap + siblingsPotential children

/-- What the steps of siblings can take at most. -/
def siblingsPotential : List (FullFrame κ M) → Nat
  | [] => 0
  | child :: children => child.potential + siblingsPotential children

end

theorem FullFrame.potential_eq (frame : FullFrame κ M) :
    frame.potential = frame.strand.potential + unsynchedPotential frame.unsynched + frame.departed +
      4 * mapCount frame.childrenReducerMap + 4 * mapCount frame.rightReducerMap +
      siblingsPotential frame.children := by
  cases frame
  rfl

@[simp] theorem siblingsPotential_append (before after : List (FullFrame κ M)) :
    siblingsPotential (before ++ after) = siblingsPotential before + siblingsPotential after := by
  induction before with
  | nil => simp [siblingsPotential]
  | cons child before ih => simp [siblingsPotential, ih, Nat.add_assoc]

@[simp] theorem siblingsPotential_cons (child : FullFrame κ M) (children : List (FullFrame κ M)) :
    siblingsPotential (child :: children) = child.potential + siblingsPotential children := rfl

@[simp] theorem siblingsPotential_nil : siblingsPotential ([] : List (FullFrame κ M)) = 0 := rfl

theorem Link.weight_pos (link : Link) : 0 < link.weight := by cases link <;> simp [Link.weight]

/-! ### Steals -/

/-- The weight of a call stack. -/
def stackWeight (stack : List (List (Stmt κ M))) : Nat := (stack.map programWeight).sum

/-- The callers without a continuation to steal were all called. -/
theorem callersWeight_of_called {callers : List (Caller κ M)} (none : oldestSpawn callers = .none) :
    callersWeight callers = stackWeight (callers.map Caller.rest) + callers.length := by
  induction callers with
  | nil => rfl
  | cons caller callers ih =>
      simp only [oldestSpawn] at none
      cases found : oldestSpawn callers with
      | some split => simp [found] at none
      | none =>
          rw [found] at none
          cases link : caller.link with
          | spawned => simp [link] at none
          | called =>
              simp only [callersWeight, ih found, link, Link.weight, stackWeight, List.map_cons,
                List.sum_cons, List.length_cons]
              omega

/-- A theft takes the weight of its link off the callers. -/
theorem callersWeight_of_spawned {callers younger : List (Caller κ M)} {stolen : List (Stmt κ M)}
    {older : List (List (Stmt κ M))} (found : oldestSpawn callers = some (younger, stolen, older)) :
    callersWeight callers = callersWeight younger + 14 + stackWeight (stolen :: older) + older.length := by
  induction callers generalizing younger with
  | nil => simp [oldestSpawn] at found
  | cons caller callers ih =>
      simp only [oldestSpawn] at found
      cases below : oldestSpawn callers with
      | some split =>
          obtain ⟨younger', stolen', older'⟩ := split
          simp only [below, Option.some.injEq, Prod.mk.injEq] at found
          obtain ⟨rfl, rfl, rfl⟩ := found
          simp only [callersWeight, ih below]
          omega
      | none =>
          cases link : caller.link with
          | called => simp [below, link] at found
          | spawned =>
              simp only [below, link, Option.some.injEq, Prod.mk.injEq] at found
              obtain ⟨rfl, rfl, rfl⟩ := found
              simp only [callersWeight, callersWeight_of_called below, link, Link.weight, stackWeight,
                List.map_cons, List.sum_cons, List.length_map]
              omega

/-- Unrolling a call stack takes one unit for every promoted function, and what the thief and the stolen
    frame's sync need. -/
theorem potential_unroll (child frame : FullFrame κ M) (sf : List (Stmt κ M))
    (unrolled : List (List (Stmt κ M))) :
    (unrollCallStack child frame sf unrolled).potential ≤
      stackWeight (sf :: unrolled) + unrolled.length + 13 + child.potential +
        unsynchedPotential frame.unsynched + frame.departed + 4 * mapCount frame.childrenReducerMap +
        4 * mapCount frame.rightReducerMap + siblingsPotential frame.children := by
  induction unrolled generalizing frame sf with
  | nil =>
      rw [FullFrame.potential_eq]
      simp only [unrollCallStack, Strand.potential, callersWeight, siblingsPotential_append,
        siblingsPotential_cons, siblingsPotential_nil, mapCount_none, stackWeight, List.map_cons,
        List.map_nil, List.sum_cons, List.sum_nil, List.length_nil, unsynchedPotential_true]
      omega
  | cons sf' unrolled ih =>
      have callee := ih (makeFullFrame true (.suspended sf') child.start
        (child.serial ++ stackUpdates (sf' :: unrolled).reverse)) sf'
      rw [FullFrame.potential_eq]
      simp only [unrollCallStack, Strand.potential, siblingsPotential_append, siblingsPotential_cons,
        siblingsPotential_nil]
      simp only [makeFullFrame, unsynchedPotential_false, mapCount_none, siblingsPotential_nil, stackWeight,
        List.map_cons, List.sum_cons, List.length_cons] at callee ⊢
      omega

/-- The weight of a stack does not depend on the side it is read from. -/
theorem stackWeight_reverse (stack : List (List (Stmt κ M))) :
    stackWeight stack.reverse = stackWeight stack := by
  simp [stackWeight, List.sum_reverse]

theorem potential_steal {frame frame' : FullFrame κ M} (taken : detachForSteal frame = some frame') :
    frame'.potential < frame.potential := by
  obtain ⟨current, callers, map, younger, stolen, older, sf, unrolled, pc, found, stack, rfl⟩ :=
    detachForSteal_cases taken
  have unroll : _ ≤ stackWeight (sf :: unrolled) + unrolled.length + 13 +
      (victimChild current younger map).potential + unsynchedPotential frame.unsynched +
        frame.departed + 4 * mapCount frame.childrenReducerMap + 4 * mapCount frame.rightReducerMap +
        siblingsPotential frame.children :=
    potential_unroll _ { frame with joinCounter := frame.joinCounter - 1 } sf unrolled
  have weight := callersWeight_of_spawned found
  have same : stackWeight (sf :: unrolled) = stackWeight (stolen :: older) := by
    rw [← stack, stackWeight_reverse]
  have length : unrolled.length = older.length := by
    have := congrArg List.length stack
    simpa using this.symm
  have child : (victimChild current younger map).potential =
      programWeight current + callersWeight younger + 4 * mapCount map + 6 := by
    rw [FullFrame.potential_eq]
    simp [victimChild, makeFullFrame, Strand.potential]
  have strand : frame.strand.potential =
      programWeight current + callersWeight callers + 4 * mapCount map + 6 := by
    rw [pc]
    rfl
  rw [FullFrame.potential_eq frame]
  refine unroll.trans_lt ?_
  omega

variable [DecidableEq κ] [Monoid M]

/-! ### Strands -/

omit [DecidableEq κ] [Monoid M] in
/-- A strand that moves on changes the potential by its own. -/
theorem potential_move (frame : FullFrame κ M) (strand : Strand κ M) (earlier : List (κ × M)) :
    FullFrame.potential { frame with strand := strand, earlier := earlier } + frame.strand.potential =
      frame.potential + strand.potential := by
  rw [FullFrame.potential_eq, FullFrame.potential_eq frame]
  dsimp only
  omega

theorem potential_execute {frame frame' : FullFrame κ M} (taken : execute frame = some frame') :
    frame'.potential < frame.potential := by
  unfold execute at taken
  split at taken
  · rename_i key value rest callers map pc
    cases taken
    have move := potential_move frame (.running rest callers (some (updateView map key value)))
      (frame.earlier ++ [(key, value)])
    simp only [pc, Strand.potential, programWeight, Stmt.weight, mapCount_some] at move
    omega
  · rename_i body rest callers map pc
    cases taken
    have move := potential_move frame (.running body (⟨.spawned, rest⟩ :: callers) map) frame.earlier
    simp only [pc, Strand.potential, programWeight, Stmt.weight, callersWeight, Link.weight] at move
    omega
  · rename_i body rest callers map pc
    cases taken
    have move := potential_move frame (.running body (⟨.called, rest⟩ :: callers) map) frame.earlier
    simp only [pc, Strand.potential, programWeight, Stmt.weight, callersWeight, Link.weight] at move
    omega
  · rename_i rest callers map pc
    split at taken
    · simp at taken
    · cases taken
      have move := potential_move frame (.running rest callers map) frame.earlier
      simp only [pc, Strand.potential, programWeight, Stmt.weight] at move
      omega
  · rename_i caller callers map pc
    cases taken
    have move := potential_move frame (.running caller.rest callers map) frame.earlier
    have pays := caller.link.weight_pos
    simp only [pc, Strand.potential, programWeight, callersWeight] at move
    omega
  · simp at taken

theorem mapCount_merge (left right : Option (ReducerMap κ M)) :
    mapCount (mergeReducerMaps left right) = min 1 (mapCount left + mapCount right) := by
  cases left with
  | none => cases right <;> rfl
  | some left =>
      cases right with
      | none => rfl
      | some right =>
          simp only [mergeReducerMaps]
          split <;> rfl

omit [DecidableEq κ] [Monoid M] in
/-- The slot left of a child, or left of where the next one would be, is exchanged. -/
theorem potential_setLeft (frame : FullFrame κ M) (i : Nat) (map : Option (ReducerMap κ M)) :
    (frame.setLeftOfChild i map).potential + 4 * mapCount (frame.leftOfChild i) ≤
      frame.potential + 4 * mapCount map := by
  cases i with
  | zero =>
      rw [FullFrame.potential_eq, FullFrame.potential_eq frame]
      simp only [FullFrame.setLeftOfChild, FullFrame.leftOfChild]
      omega
  | succ i =>
      simp only [FullFrame.setLeftOfChild, FullFrame.leftOfChild]
      cases found : frame.children[i]? with
      | none =>
          have beyond : frame.children.length ≤ i := List.getElem?_eq_none_iff.1 found
          rw [List.modify_eq_self beyond]
          rw [FullFrame.potential_eq, FullFrame.potential_eq frame]
          exact Nat.le_add_right _ _
      | some left =>
          obtain ⟨before, after, split, rfl⟩ := getElem?_split found
          have modified := modify_middle before after left fun left => { left with rightReducerMap := map }
          have changed : FullFrame.potential { left with rightReducerMap := map } +
              4 * mapCount left.rightReducerMap = left.potential + 4 * mapCount map := by
            rw [FullFrame.potential_eq, FullFrame.potential_eq left]
            dsimp only
            omega
          rw [FullFrame.potential_eq, FullFrame.potential_eq frame, split]
          simp only [modified, siblingsPotential_append, siblingsPotential_cons, Option.bind_some]
          omega

omit [DecidableEq κ] [Monoid M] in
theorem setLeft_strand (frame : FullFrame κ M) (i : Nat) (map : Option (ReducerMap κ M)) :
    (frame.setLeftOfChild i map).strand = frame.strand := by cases i <;> rfl

omit [DecidableEq κ] [Monoid M] in
/-- The children from the `i`-th on stay where they are when the slot left of it is exchanged. -/
theorem setLeft_children {frame : FullFrame κ M} {before after : List (FullFrame κ M)}
    (split : frame.children = before ++ after) (map : Option (ReducerMap κ M)) :
    ∃ before', (frame.setLeftOfChild before.length map).children = before' ++ after ∧
      before'.length = before.length ∧
      ∀ child' ∈ before', ∃ child ∈ before, ∃ right, child' = { child with rightReducerMap := right } := by
  rcases List.eq_nil_or_concat' before with rfl | ⟨front, left, rfl⟩
  · exact ⟨[], by simp [FullFrame.setLeftOfChild, split], rfl, by simp⟩
  · refine ⟨front ++ [{ left with rightReducerMap := map }], ?_, by simp, ?_⟩
    · have modified := modify_middle front after left fun left => { left with rightReducerMap := map }
      simpa [FullFrame.setLeftOfChild, split] using modified
    · intro child' mem
      rcases List.mem_append.1 mem with old | new
      · exact ⟨child', List.mem_append_left _ old, child'.rightReducerMap, by cases child'; rfl⟩
      · exact ⟨left, by simp, map, List.mem_singleton.1 new⟩

theorem potential_sync {frame frame' : FullFrame κ M} (taken : frameStep frame .sync = some frame') :
    frame'.potential < frame.potential := by
  simp only [frameStep] at taken
  split at taken
  · rename_i rest map unsynched pc
    cases taken
    have move := potential_move frame (.syncing map rest) frame.earlier
    simp only [pc, Strand.potential, programWeight, callersWeight, Stmt.weight] at move
    omega
  · rename_i map unsynched pc
    cases taken
    have move := potential_move frame (.syncing map []) frame.earlier
    simp only [pc, Strand.potential, programWeight, callersWeight] at move
    omega
  · simp at taken

theorem potential_syncFast {frame frame' : FullFrame κ M} (taken : frameStep frame .syncFast = some frame') :
    frame'.potential < frame.potential := by
  simp only [frameStep] at taken
  split at taken
  · rename_i rest pc
    cases taken
    have move := potential_move frame (.stalling rest) frame.earlier
    simp only [pc, Strand.potential] at move
    omega
  · rename_i map rest pc
    cases taken
    have move := potential_move frame (.syncLocking (some map) rest) frame.earlier
    simp only [pc, Strand.potential] at move
    omega
  · simp at taken

theorem potential_syncSection {frame frame' : FullFrame κ M}
    (taken : frameStep frame .syncSection = some frame') : frame'.potential < frame.potential := by
  simp only [frameStep] at taken
  split at taken
  · rename_i middle rest pc
    cases taken
    unfold slowPathReductionsForSync
    cases slot : frame.leftOfChild frame.children.length with
    | none =>
        have left := potential_setLeft frame frame.children.length middle
        have move := potential_move (frame.setLeftOfChild frame.children.length middle) (.stalling rest)
          (frame.setLeftOfChild frame.children.length middle).earlier
        simp only [slot, mapCount_none, setLeft_strand, pc, Strand.potential] at left move
        simp only [Option.isNone_none, ↓reduceIte]
        omega
    | some left =>
        cases middle with
        | none =>
            have kept := potential_setLeft frame frame.children.length (some left)
            have move := potential_move (frame.setLeftOfChild frame.children.length (some left))
              (.stalling rest) (frame.setLeftOfChild frame.children.length (some left)).earlier
            simp only [slot, setLeft_strand, pc, Strand.potential, mapCount_none] at kept move
            simp only [Option.isNone_some, Option.isNone_none, Bool.false_eq_true, ↓reduceIte]
            omega
        | some middle =>
            have empty := potential_setLeft frame frame.children.length none
            have move := potential_move (frame.setLeftOfChild frame.children.length none)
              (.syncReducing (some left) (some middle) rest)
              (frame.setLeftOfChild frame.children.length none).earlier
            simp only [slot, setLeft_strand, pc, Strand.potential, mapCount_none, mapCount_some] at empty move
            simp only [Option.isNone_some, Bool.false_eq_true, ↓reduceIte]
            omega
  · simp at taken

theorem potential_syncMerge {frame frame' : FullFrame κ M} (taken : frameStep frame .syncMerge = some frame') :
    frame'.potential < frame.potential := by
  simp only [frameStep] at taken
  split at taken
  · rename_i left middle rest pc
    cases taken
    have move := potential_move frame (.syncLocking (repeatedMergeReducerMaps left middle []) rest)
      frame.earlier
    have merged : mapCount (repeatedMergeReducerMaps left middle []) = _ := mapCount_merge left middle
    simp only [pc, Strand.potential] at move
    omega
  · simp at taken

theorem potential_spawnReturn {frame frame' : FullFrame κ M}
    (taken : frameStep frame .spawnReturn = some frame') : frame'.potential < frame.potential := by
  simp only [frameStep] at taken
  split at taken
  · rename_i map isCallChild unsynched pc
    cases taken
    have move := potential_move frame (.returning map) frame.earlier
    simp only [pc, Strand.potential, programWeight, callersWeight] at move
    omega
  · simp at taken

theorem potential_spawnReturnMerge {frame frame' : FullFrame κ M}
    (taken : frameStep frame .spawnReturnMerge = some frame') : frame'.potential < frame.potential := by
  simp only [frameStep] at taken
  split at taken
  · rename_i left middle right pc
    cases taken
    have move := potential_move frame
      (.reduced (repeatedMergeReducerMaps (repeatedMergeReducerMaps left middle []) right [])) frame.earlier
    have first : mapCount (repeatedMergeReducerMaps left middle []) = _ := mapCount_merge left middle
    have second : mapCount (repeatedMergeReducerMaps (repeatedMergeReducerMaps left middle []) right []) = _ :=
      mapCount_merge _ right
    simp only [pc, Strand.potential] at move
    omega
  · simp at taken

/-! ### Spawn returns in their parent -/

/-- The maps that a critical section of a spawn return leaves. -/
def sectionCount : Option (ReducerMap κ M) ⊕
    Option (ReducerMap κ M) × Option (ReducerMap κ M) × Option (ReducerMap κ M) → Nat
  | .inl left => mapCount left
  | .inr (left, middle, right) => mapCount left + mapCount middle + mapCount right

omit [DecidableEq κ] [Monoid M] in
theorem fastPath_count {left middle right map : Option (ReducerMap κ M)}
    (fast : fastPathReductionsForSpawnReturn left middle right = some map) :
    mapCount map = mapCount left + mapCount middle + mapCount right := by
  unfold fastPathReductionsForSpawnReturn at fast
  split at fast <;> simp at fast <;> subst fast <;> simp

omit [DecidableEq κ] [Monoid M] in
/-- The slow path keeps the maps, and takes them out of the slots only when there is one besides its own. -/
theorem slowPath_count (left middle right : Option (ReducerMap κ M)) :
    sectionCount (slowPathReductionsForSpawnReturn left middle right) =
        mapCount left + mapCount middle + mapCount right ∧
      ((slowPathReductionsForSpawnReturn left middle right).isRight →
        0 < mapCount left + mapCount right) := by
  cases left <;> cases middle <;> cases right <;> simp [slowPathReductionsForSpawnReturn, sectionCount]

omit [DecidableEq κ] [Monoid M] in
/-- A child that is returning, with the maps it holds and its `right_reducer_map`. -/
theorem potential_returned {child : FullFrame κ M} {map : Option (ReducerMap κ M)}
    (pc : child.strand = .returning map ∨ child.strand = .reduced map) :
    child.potential = 2 * mapCount map + 5 + unsynchedPotential child.unsynched + child.departed +
      4 * mapCount child.childrenReducerMap + 4 * mapCount child.rightReducerMap +
      siblingsPotential child.children := by
  rw [FullFrame.potential_eq]
  rcases pc with pc | pc <;> simp only [pc, Strand.potential]

omit [DecidableEq κ] [Monoid M] in
/-- What the critical section of a spawn return starts from. -/
theorem section_cases {frame frame' : FullFrame κ M} {i : Nat}
    (taken : executeReductionsForSpawnReturn frame i = some frame') :
    ∃ before child after map result, frame.children = before ++ child :: after ∧ before.length = i ∧
      (child.strand = .returning map ∨ child.strand = .reduced map) ∧
      sectionCount result = mapCount (frame.leftOfChild i) + mapCount map +
        mapCount child.rightReducerMap ∧
      (result.isRight → 0 < mapCount (frame.leftOfChild i) + mapCount child.rightReducerMap) ∧
      frame' = spawnReturnSection frame i child result := by
  unfold executeReductionsForSpawnReturn at taken
  cases found : frame.children[i]? with
  | none => simp [found] at taken
  | some child =>
      obtain ⟨before, after, split, length⟩ := getElem?_split found
      simp only [found] at taken
      split at taken
      · rename_i middle pc
        split at taken
        · rename_i left fast
          cases taken
          exact ⟨before, child, after, middle, .inl left, split, length, .inl pc, fastPath_count fast,
            by simp, rfl⟩
        · cases taken
          exact ⟨before, child, after, middle, _, split, length, .inl pc, (slowPath_count _ _ _).1,
            (slowPath_count _ _ _).2, rfl⟩
      · rename_i middle pc
        cases taken
        exact ⟨before, child, after, middle, _, split, length, .inr pc, (slowPath_count _ _ _).1,
          (slowPath_count _ _ _).2, rfl⟩
      · simp at taken

theorem potential_childSection {frame frame' : FullFrame κ M} {i : Nat}
    (taken : frameStep frame (.childSection i) = some frame') : frame'.potential < frame.potential := by
  obtain ⟨before, child, after, map, result, split, rfl, pc, count, large, rfl⟩ := section_cases taken
  have childPotential := potential_returned pc
  cases result with
  | inl left =>
      have slot := potential_setLeft frame before.length left
      obtain ⟨before', split', length, -⟩ := setLeft_children split left
      have erased := eraseIdx_middle before' after child
      rw [length] at erased
      simp only [sectionCount] at count
      have single := mapCount_le left
      rw [FullFrame.potential_eq (frame.setLeftOfChild before.length left), split',
        siblingsPotential_append, siblingsPotential_cons] at slot
      simp only [spawnReturnSection]
      rw [FullFrame.potential_eq]
      dsimp only
      rw [split', erased, siblingsPotential_append]
      omega
  | inr maps =>
      obtain ⟨left, middle, right⟩ := maps
      have slot := potential_setLeft frame before.length none
      obtain ⟨before', split', length, -⟩ := setLeft_children split none
      have changed := set_middle before' after child
        { child with strand := .reducing left middle right, rightReducerMap := none }
      rw [length] at changed
      have reducing : FullFrame.potential
          { child with strand := .reducing left middle right, rightReducerMap := none } =
            2 * min 1 (mapCount left + mapCount middle + mapCount right) + 6 +
            unsynchedPotential child.unsynched + child.departed + 4 * mapCount child.childrenReducerMap +
            siblingsPotential child.children := by
        rw [FullFrame.potential_eq]
        simp only [Strand.potential, mapCount_none]
        omega
      simp only [sectionCount] at count
      have other := large rfl
      rw [FullFrame.potential_eq (frame.setLeftOfChild before.length none), split',
        siblingsPotential_append, siblingsPotential_cons] at slot
      simp only [spawnReturnSection]
      rw [FullFrame.potential_eq]
      dsimp only
      rw [split', changed, siblingsPotential_append, siblingsPotential_cons, reducing]
      simp only [mapCount_none] at slot
      omega

/-! ### Stalled frames -/

/-- The frame is about to decrement its join counter at a sync, or did so. -/
@[simp] def Strand.AtJoin : Strand κ M → Prop
  | .stalling _ | .stalled _ => True
  | _ => False

/-- The strand stalled at a sync. -/
@[simp] def Strand.Stalled : Strand κ M → Prop
  | .stalled _ => True
  | _ => False

/-- A frame at its sync is unsynched, one that stalled waits for a decrement of its join counter, and a synched
    frame waits for none. -/
structure StallOk (frame : FullFrame κ M) : Prop where
  unsynched : frame.strand.AtJoin → frame.unsynched = true
  waits : frame.strand.Stalled → frame.joinCounter ≠ 0
  joined : frame.unsynched = false → frame.departed = 0

omit [DecidableEq κ] [Monoid M] in
theorem StallOk.of_running {frame : FullFrame κ M} (away : ¬ frame.strand.AtJoin)
    (joined : frame.unsynched = false → frame.departed = 0) : StallOk frame where
  unsynched := fun atJoin => absurd atJoin away
  waits := fun stalled => by
    refine absurd ?_ away
    cases pc : frame.strand <;> simp [pc] at stalled ⊢
  joined := joined

omit [DecidableEq κ] [Monoid M] in
/-- The last arrival at a sync pays with the frame's being unsynched. -/
theorem potential_provablyGoodSteal {frame : FullFrame κ M}
    (unsynched : frame.strand.AtJoin → frame.unsynched = true) :
    (provablyGoodSteal frame).potential ≤ frame.potential := by
  unfold provablyGoodSteal
  by_cases last : frame.joinCounter - 1 = 0
  · simp only [last, ↓reduceIte]
    cases pc : frame.strand with
    | stalled rest =>
        have flagged := unsynched (by simp [pc])
        rw [FullFrame.potential_eq, FullFrame.potential_eq frame, pc, flagged]
        simp only [Strand.potential, unsynchedPotential_true, unsynchedPotential_false]
        omega
    | _ =>
        rw [FullFrame.potential_eq, FullFrame.potential_eq frame]
        simp only [pc, unsynchedPotential_false]
        omega
  · simp only [last, ↓reduceIte]
    rw [FullFrame.potential_eq, FullFrame.potential_eq frame]

theorem potential_stall {frame frame' : FullFrame κ M} (ok : StallOk frame)
    (taken : frameStep frame .stall = some frame') : frame'.potential < frame.potential := by
  simp only [frameStep] at taken
  split at taken
  · rename_i rest pc
    cases taken
    have steal : (provablyGoodSteal { frame with strand := .stalled rest }).potential ≤
        FullFrame.potential { frame with strand := .stalled rest } :=
      potential_provablyGoodSteal fun _ => ok.unsynched (by simp [pc])
    have move := potential_move frame (.stalled rest) frame.earlier
    simp only [pc, Strand.potential] at move
    omega
  · simp at taken

theorem potential_childJoin {frame frame' : FullFrame κ M} (ok : StallOk frame)
    (taken : frameStep frame .childJoin = some frame') : frame'.potential < frame.potential := by
  simp only [frameStep] at taken
  split at taken
  · rename_i departed count
    cases taken
    have steal : (provablyGoodSteal { frame with departed := departed }).potential ≤
        FullFrame.potential { frame with departed := departed } :=
      potential_provablyGoodSteal ok.unsynched
    have joined : FullFrame.potential { frame with departed := departed } + 1 = frame.potential := by
      rw [FullFrame.potential_eq, FullFrame.potential_eq frame, count]
      dsimp only
      omega
    omega
  · simp at taken

omit [DecidableEq κ] [Monoid M] in
/-- A frame that is resumed takes its map from its slot or from its worker. -/
theorem potential_setup (frame : FullFrame κ M) (map : Option (ReducerMap κ M)) (rest : List (Stmt κ M)) :
    (setupForExecutionReducers frame map rest).potential + frame.strand.potential ≤
      frame.potential + programWeight rest + 4 * mapCount map + 6 := by
  unfold setupForExecutionReducers
  split
  · rename_i children unsynched slot
    rw [FullFrame.potential_eq, FullFrame.potential_eq frame, slot]
    simp only [Strand.potential, callersWeight, mapCount_none, mapCount_some]
    omega
  · have move := potential_move frame (.running rest [] map) frame.earlier
    have running : (Strand.running rest [] map).potential = programWeight rest + 4 * mapCount map + 6 := rfl
    omega

theorem potential_resume {frame frame' : FullFrame κ M} (taken : frameStep frame .resume = some frame') :
    frame'.potential < frame.potential := by
  simp only [frameStep] at taken
  split at taken
  · rename_i rest pc
    cases taken
    have setup := potential_setup frame none rest
    simp only [pc, Strand.potential, mapCount_none] at setup
    omega
  · simp at taken

theorem potential_callReturn {frame frame' : FullFrame κ M}
    (taken : frameStep frame .callReturn = some frame') : frame'.potential < frame.potential := by
  simp only [frameStep] at taken
  unfold finalizeChildForCall at taken
  split at taken
  · rename_i rest child pc last
    split at taken
    · rename_i map isCalled synched childPc
      cases taken
      obtain ⟨spawned, childrenEq⟩ := List.getLast?_eq_some_iff.1 last
      have setup := potential_setup
        { frame with children := frame.children.dropLast, joinCounter := frame.joinCounter - 1 + 1 } map rest
      have called : child.potential = 4 * mapCount map + 6 + unsynchedPotential child.unsynched +
          child.departed + 4 * mapCount child.childrenReducerMap + 4 * mapCount child.rightReducerMap +
          siblingsPotential child.children := by
        rw [FullFrame.potential_eq, childPc]
        simp only [Strand.potential, programWeight, callersWeight]
        omega
      have without : FullFrame.potential
          { frame with children := frame.children.dropLast, joinCounter := frame.joinCounter - 1 + 1 } +
            child.potential = frame.potential := by
        rw [FullFrame.potential_eq, FullFrame.potential_eq frame]
        simp only [childrenEq, List.dropLast_concat, siblingsPotential_append, siblingsPotential_cons,
          siblingsPotential_nil]
        omega
      simp only [pc, Strand.potential] at setup without ⊢
      omega
    · simp at taken
  · simp at taken

/-- Every step at a frame lowers the potential of its tree. -/
theorem potential_frameStep {frame frame' : FullFrame κ M} {action : FrameAction} (ok : StallOk frame)
    (taken : frameStep frame action = some frame') : frame'.potential < frame.potential := by
  cases action with
  | execute => exact potential_execute taken
  | steal => exact potential_steal taken
  | sync => exact potential_sync taken
  | syncFast => exact potential_syncFast taken
  | syncSection => exact potential_syncSection taken
  | syncMerge => exact potential_syncMerge taken
  | stall => exact potential_stall ok taken
  | resume => exact potential_resume taken
  | spawnReturn => exact potential_spawnReturn taken
  | spawnReturnMerge => exact potential_spawnReturnMerge taken
  | childSection i => exact potential_childSection taken
  | childJoin => exact potential_childJoin ok taken
  | callReturn => exact potential_callReturn taken

/-- Every step anywhere in the tree lowers the potential. -/
theorem potential_treeStep {root root' : FullFrame κ M} {path : List Nat} {action : FrameAction}
    (ok : root.All StallOk) (taken : treeStep root path action = some root') :
    root'.potential < root.potential := by
  induction path generalizing root root' with
  | nil => exact potential_frameStep ok.here taken
  | cons i path ih =>
      simp only [treeStep] at taken
      cases found : root.children[i]? with
      | none => simp [found] at taken
      | some child =>
          simp only [found] at taken
          cases stepped : treeStep child path action with
          | none => simp [stepped] at taken
          | some child' =>
              simp only [stepped, Option.some.injEq] at taken
              subst taken
              have lower := ih (ok.children child (List.mem_of_getElem? found)) stepped
              obtain ⟨before, after, split, rfl⟩ := getElem?_split found
              rw [FullFrame.potential_eq, FullFrame.potential_eq root]
              simp only [split, set_middle, siblingsPotential_append, siblingsPotential_cons]
              omega

/-! ### Stalls along runs -/

omit [DecidableEq κ] [Monoid M] in
/-- A frame keeps the invariant of its stalls when only its maps and its children change. -/
theorem StallOk.congr {frame frame' : FullFrame κ M} (ok : StallOk frame)
    (strand : frame'.strand = frame.strand) (unsynched : frame'.unsynched = frame.unsynched)
    (joinCounter : frame'.joinCounter = frame.joinCounter)
    (joined : frame'.unsynched = false → frame'.departed = 0) : StallOk frame' where
  unsynched := by
    rw [strand, unsynched]
    exact ok.unsynched
  waits := by
    rw [strand, joinCounter]
    exact ok.waits
  joined := joined

omit [DecidableEq κ] [Monoid M] in
theorem allStallOk_unroll {child frame : FullFrame κ M} (childOk : child.All StallOk)
    (joined : frame.unsynched = false → frame.departed = 0)
    (childrenOk : ∀ other ∈ frame.children, other.All StallOk) (sf : List (Stmt κ M))
    (unrolled : List (List (Stmt κ M))) : (unrollCallStack child frame sf unrolled).All StallOk := by
  induction unrolled generalizing frame sf with
  | nil =>
      refine .mk (.of_running (by simp [unrollCallStack]) (by simp [unrollCallStack])) ?_
      intro other mem
      rcases List.mem_append.1 mem with old | new
      · exact childrenOk other old
      · rw [List.mem_singleton.1 new]
        exact childOk
  | cons sf' unrolled ih =>
      refine .mk (.of_running (by simp [unrollCallStack]) joined) ?_
      intro other mem
      rcases List.mem_append.1 mem with old | new
      · exact childrenOk other old
      · rw [List.mem_singleton.1 new]
        exact ih (fun _ => rfl) (by simp [makeFullFrame]) sf'

omit [DecidableEq κ] [Monoid M] in
theorem provablyGoodSteal_children (frame : FullFrame κ M) :
    (provablyGoodSteal frame).children = frame.children := by
  unfold provablyGoodSteal
  dsimp only
  split
  · split <;> rfl
  · rfl

omit [DecidableEq κ] [Monoid M] in
theorem allStallOk_setup {frame : FullFrame κ M} (all : ∀ child ∈ frame.children, child.All StallOk)
    (joined : frame.unsynched = false → frame.departed = 0) (map : Option (ReducerMap κ M))
    (rest : List (Stmt κ M)) : (setupForExecutionReducers frame map rest).All StallOk := by
  unfold setupForExecutionReducers
  split <;> exact .mk (.of_running (by simp) joined) all

omit [DecidableEq κ] [Monoid M] in
/-- `provably_good_steal` leaves a stalled frame waiting, or resumes it. -/
theorem StallOk.of_provablyGoodSteal {frame : FullFrame κ M}
    (unsynched : frame.strand.AtJoin → frame.unsynched = true)
    (joined : frame.unsynched = false → frame.departed = 0)
    (arrived : frame.joinCounter - 1 = 0 →
      frame.departed = 0 ∧ (frame.strand.AtJoin → frame.strand.Stalled)) :
    StallOk (provablyGoodSteal frame) := by
  unfold provablyGoodSteal
  by_cases last : frame.joinCounter - 1 = 0
  · simp only [last, ↓reduceIte]
    cases pc : frame.strand with
    | stalling rest => simpa [pc] using (arrived last).2
    | _ => exact .of_running (by simp) fun _ => (arrived last).1
  · simp only [last, ↓reduceIte]
    exact ⟨unsynched, fun _ => last, joined⟩

omit [DecidableEq κ] [Monoid M] in
/-- A strand moves on to its join, or away from it. -/
theorem allStallOk_move {frame : FullFrame κ M} (all : frame.All StallOk) {strand : Strand κ M}
    (unsynched : strand.AtJoin → frame.unsynched = true) (unstalled : ¬ strand.Stalled)
    (earlier : List (κ × M)) :
    FullFrame.All StallOk { frame with strand := strand, earlier := earlier } :=
  .mk ⟨unsynched, fun stalled => absurd stalled unstalled, all.here.joined⟩ all.children

omit [DecidableEq κ] [Monoid M] in
theorem allStallOk_setRight {frame : FullFrame κ M} (all : frame.All StallOk)
    (map : Option (ReducerMap κ M)) : FullFrame.All StallOk { frame with rightReducerMap := map } :=
  .mk (all.here.congr rfl rfl rfl all.here.joined) all.children

omit [DecidableEq κ] [Monoid M] in
/-- The children keep their invariants when the slot left of one of them is exchanged. -/
theorem allStallOk_setLeft {frame : FullFrame κ M} {before after : List (FullFrame κ M)}
    (all : ∀ child ∈ frame.children, child.All StallOk) (split : frame.children = before ++ after)
    (map : Option (ReducerMap κ M)) :
    ∀ child ∈ (frame.setLeftOfChild before.length map).children, child.All StallOk := by
  obtain ⟨before', split', -, origin⟩ := setLeft_children split map
  intro child' mem
  rw [split'] at mem
  rcases List.mem_append.1 mem with front | back
  · obtain ⟨child, old, right, rfl⟩ := origin child' front
    exact allStallOk_setRight (all child (by simp [split, old])) right
  · exact all child' (by simp [split, back])

omit [DecidableEq κ] [Monoid M] in
theorem setLeft_unsynched (frame : FullFrame κ M) (i : Nat) (map : Option (ReducerMap κ M)) :
    (frame.setLeftOfChild i map).unsynched = frame.unsynched := by cases i <;> rfl

omit [DecidableEq κ] [Monoid M] in
theorem setLeft_joinCounter (frame : FullFrame κ M) (i : Nat) (map : Option (ReducerMap κ M)) :
    (frame.setLeftOfChild i map).joinCounter = frame.joinCounter := by cases i <;> rfl

omit [DecidableEq κ] [Monoid M] in
theorem allStallOk_syncSection {frame : FullFrame κ M} (all : frame.All StallOk)
    (middle : Option (ReducerMap κ M)) (rest : List (Stmt κ M)) (unsynched : frame.unsynched = true) :
    (slowPathReductionsForSync frame middle rest).All StallOk := by
  have children (map : Option (ReducerMap κ M)) :=
    allStallOk_setLeft all.children (List.append_nil frame.children).symm map
  have stays (map : Option (ReducerMap κ M)) :=
    (setLeft_unsynched frame frame.children.length map).trans unsynched
  unfold slowPathReductionsForSync
  cases frame.leftOfChild frame.children.length with
  | none =>
      simp only [Option.isNone_none, ↓reduceIte]
      exact .mk ⟨fun _ => stays _, by simp, by simp [stays]⟩ (children _)
  | some left =>
      cases middle with
      | none =>
          simp only [Option.isNone_some, Option.isNone_none, Bool.false_eq_true, ↓reduceIte]
          exact .mk ⟨fun _ => stays _, by simp, by simp [stays]⟩ (children _)
      | some middle =>
          simp only [Option.isNone_some, Bool.false_eq_true, ↓reduceIte]
          exact .mk (.of_running (by simp) (by simp [stays])) (children _)

/-- A frame with a child that returned from its spawn is unsynched. -/
theorem unsynched_of_returned {frame child : FullFrame κ M} (allOk : frame.All FrameOk)
    (mem : child ∈ frame.children) (returned : child.strand.Returned) : frame.unsynched = true := by
  by_contra synched
  have called := allOk.here.spawnless (by simpa using synched) child mem
  have spawned := (allOk.children child mem).here.spawned returned
  simp [called] at spawned

theorem allStallOk_childSection {frame frame' : FullFrame κ M} {i : Nat} (allOk : frame.All FrameOk)
    (all : frame.All StallOk) (taken : executeReductionsForSpawnReturn frame i = some frame') :
    frame'.All StallOk := by
  obtain ⟨before, child, after, map, result, split, rfl, pc, -, -, rfl⟩ := section_cases taken
  have mem : child ∈ frame.children := by simp [split]
  have returned : child.strand.Returned := by rcases pc with pc | pc <;> simp [pc]
  have unsynched := unsynched_of_returned allOk mem returned
  have same (map : Option (ReducerMap κ M)) (children : List (FullFrame κ M)) (departed : Nat) :
      StallOk { frame.setLeftOfChild before.length map with children := children, departed := departed } :=
    all.here.congr (setLeft_strand _ _ _) (setLeft_unsynched _ _ _) (setLeft_joinCounter _ _ _)
      fun synched => by simp [setLeft_unsynched, unsynched] at synched
  cases result with
  | inl left =>
      refine .mk (same _ _ _) ?_
      intro other otherMem
      exact allStallOk_setLeft all.children split left other (List.mem_of_mem_eraseIdx otherMem)
  | inr maps =>
      obtain ⟨left, middle, right⟩ := maps
      refine .mk (same _ _ _) ?_
      intro other otherMem
      rcases List.mem_or_eq_of_mem_set otherMem with old | rfl
      · exact allStallOk_setLeft all.children split none other old
      · exact .mk (.of_running (by simp) (all.children child mem).here.joined) (all.children child mem).children

/-- A step at a frame keeps the invariant of the stalls in its tree. -/
theorem allStallOk_frameStep {frame frame' : FullFrame κ M} {action : FrameAction}
    (allOk : frame.All FrameOk) (all : frame.All StallOk) (taken : frameStep frame action = some frame') :
    frame'.All StallOk := by
  have ok := allOk.here
  cases action with
  | execute =>
      simp only [frameStep] at taken
      unfold execute at taken
      split at taken
      case h_4 =>
        split at taken
        · simp at taken
        · cases taken
          exact allStallOk_move all (by simp) (by simp) _
      case h_6 => simp at taken
      all_goals
        cases taken
        exact allStallOk_move all (by simp) (by simp) _
  | steal =>
      obtain ⟨current, callers, map, younger, stolen, older, sf, unrolled, pc, found, stack, rfl⟩ :=
        detachForSteal_cases taken
      have childOk : (victimChild current younger map).All StallOk :=
        .mk (.of_running (by simp [victimChild, makeFullFrame]) fun _ => rfl)
          (by simp [victimChild, makeFullFrame])
      apply allStallOk_unroll childOk
      · exact all.here.joined
      · exact all.children
  | sync =>
      simp only [frameStep] at taken
      split at taken
      case h_3 => simp at taken
      all_goals
        cases taken
        exact allStallOk_move all (by simp) (by simp) _
  | syncFast =>
      simp only [frameStep] at taken
      split at taken
      · rename_i rest pc
        cases taken
        exact allStallOk_move all (fun _ => ok.syncing (by simp [pc])) (by simp) _
      · cases taken
        exact allStallOk_move all (by simp) (by simp) _
      · simp at taken
  | syncSection =>
      simp only [frameStep] at taken
      split at taken
      · rename_i middle rest pc
        cases taken
        exact allStallOk_syncSection all middle rest (ok.syncing (by simp [pc]))
      · simp at taken
  | syncMerge =>
      simp only [frameStep] at taken
      split at taken
      · cases taken
        exact allStallOk_move all (by simp) (by simp) _
      · simp at taken
  | stall =>
      simp only [frameStep] at taken
      split at taken
      · rename_i rest pc
        cases taken
        have stays : (provablyGoodSteal { frame with strand := .stalled rest }).children = frame.children :=
          provablyGoodSteal_children _
        refine .mk (.of_provablyGoodSteal ?_ all.here.joined ?_) ?_
        · exact fun _ => all.here.unsynched (by simp [pc])
        · intro (last : frame.joinCounter - 1 = 0)
          have join := ok.join_eq
          simp only [pc, Strand.active] at join
          exact ⟨by dsimp only; omega, by simp⟩
        · rw [stays]
          exact all.children
      · simp at taken
  | resume =>
      simp only [frameStep] at taken
      split at taken
      · cases taken
        exact allStallOk_setup all.children all.here.joined _ _
      · simp at taken
  | spawnReturn =>
      simp only [frameStep] at taken
      split at taken
      · cases taken
        exact allStallOk_move all (by simp) (by simp) _
      · simp at taken
  | spawnReturnMerge =>
      simp only [frameStep] at taken
      split at taken
      · cases taken
        exact allStallOk_move all (by simp) (by simp) _
      · simp at taken
  | childSection i => exact allStallOk_childSection allOk all taken
  | childJoin =>
      simp only [frameStep] at taken
      split at taken
      · rename_i departed count
        cases taken
        have stays : (provablyGoodSteal { frame with departed := departed }).children = frame.children :=
          provablyGoodSteal_children _
        refine .mk (.of_provablyGoodSteal all.here.unsynched ?_ ?_) ?_
        · intro synched
          have none := all.here.joined synched
          omega
        · intro (last : frame.joinCounter - 1 = 0)
          -- A frame that has not decremented its own join counter yet is counted there.
          have join := ok.join_eq
          refine ⟨by dsimp only; omega, fun (atJoin : frame.strand.AtJoin) => ?_⟩
          change frame.strand.Stalled
          cases pc : frame.strand with
          | stalled rest => simp
          | stalling rest =>
              simp only [pc, Strand.active] at join
              omega
          | _ => simp [pc] at atJoin
        · rw [stays]
          exact all.children
      · simp at taken
  | callReturn =>
      obtain ⟨rest, spawned, called, map, pc, childrenEq, -, -, -, -, rfl⟩ := finalizeChild_cases allOk taken
      exact .mk (.of_running (by simp) all.here.joined) fun child mem =>
        all.children child (by simp [childrenEq, mem])

/-- A step anywhere in the tree keeps the invariant of the stalls. -/
theorem allStallOk_treeStep {root root' : FullFrame κ M} {path : List Nat} {action : FrameAction}
    (allOk : root.All FrameOk) (all : root.All StallOk) (taken : treeStep root path action = some root') :
    root'.All StallOk := by
  induction path generalizing root root' with
  | nil => exact allStallOk_frameStep allOk all taken
  | cons i path ih =>
      simp only [treeStep] at taken
      cases found : root.children[i]? with
      | none => simp [found] at taken
      | some child =>
          simp only [found] at taken
          cases stepped : treeStep child path action with
          | none => simp [stepped] at taken
          | some child' =>
              simp only [stepped, Option.some.injEq] at taken
              subst taken
              have mem := List.mem_of_getElem? found
              refine .mk (all.here.congr rfl rfl rfl all.here.joined) ?_
              intro other otherMem
              rcases List.mem_or_eq_of_mem_set otherMem with old | rfl
              · exact all.children other old
              · exact ih (allOk.children child mem) (all.children child mem) stepped

theorem allStallOk_reachable {program : List (Stmt κ M)} {root : FullFrame κ M}
    (reachable : (frameMachine program).Reachable root) : root.All StallOk := by
  apply reachable.invariant
  · rintro _ rfl
    exact .mk (.of_running (by simp [initialFrame, makeFullFrame]) fun _ => rfl)
      (by simp [initialFrame, makeFullFrame])
  · intro before label after reached all taken
    exact allStallOk_treeStep (frameOk_reachable reached).1 all taken

/-! ### Progress -/

/-- Some frame of the tree has a step. -/
def FullFrame.Moves (frame : FullFrame κ M) : Prop :=
  ∃ path action frame', treeStep frame path action = some frame'

/-- The frame's function is done. -/
def FullFrame.Finished (frame : FullFrame κ M) : Prop :=
  (∃ map, frame.strand = .running [] [] map) ∧ frame.unsynched = false

/-- The frame is about to lock its parent in a spawn return. -/
def FullFrame.AtParent (frame : FullFrame κ M) : Prop :=
  ∃ map, frame.strand = .returning map ∨ frame.strand = .reduced map

theorem FullFrame.Moves.of_enabled {frame : FullFrame κ M} (action : FrameAction)
    (enabled : (frameStep frame action).isSome) : frame.Moves := by
  obtain ⟨frame', taken⟩ := Option.isSome_iff_exists.1 enabled
  exact ⟨[], action, frame', taken⟩

theorem FullFrame.Moves.of_child {frame child : FullFrame κ M} (mem : child ∈ frame.children)
    (moves : child.Moves) : frame.Moves := by
  obtain ⟨path, action, child', taken⟩ := moves
  obtain ⟨i, found⟩ := List.mem_iff_getElem?.1 mem
  exact ⟨i :: path, action, { frame with children := frame.children.set i child' },
    by simp only [treeStep, found, taken]⟩

/-- A frame at the end of its program synchronizes or returns. -/
theorem moves_of_end {frame : FullFrame κ M} {map : Option (ReducerMap κ M)}
    (pc : frame.strand = .running [] [] map) :
    frame.Moves ∨ frame.Finished ∧ frame.isCallChild = true := by
  cases unsynched : frame.unsynched with
  | true =>
      apply Or.inl
      apply FullFrame.Moves.of_enabled .sync
      simp [frameStep, unsynched, pc]
  | false =>
      cases isCallChild : frame.isCallChild with
      | true => exact .inr ⟨⟨⟨map, pc⟩, unsynched⟩, rfl⟩
      | false =>
          apply Or.inl
          apply FullFrame.Moves.of_enabled .spawnReturn
          simp [frameStep, isCallChild, unsynched, pc]

/-- A running strand executes its next statement, or stalls at its next sync. -/
theorem moves_of_statement {frame : FullFrame κ M} {stmt : Stmt κ M} {rest : List (Stmt κ M)}
    {callers : List (Caller κ M)} {map : Option (ReducerMap κ M)}
    (pc : frame.strand = .running (stmt :: rest) callers map) : frame.Moves := by
  cases stmt with
  | update key value =>
      apply FullFrame.Moves.of_enabled .execute
      simp [frameStep, execute, pc]
  | spawn body =>
      apply FullFrame.Moves.of_enabled .execute
      simp [frameStep, execute, pc]
  | call body =>
      apply FullFrame.Moves.of_enabled .execute
      simp [frameStep, execute, pc]
  | sync =>
      by_cases stall : frame.unsynched ∧ callers.isEmpty
      · obtain ⟨unsynched, empty⟩ := stall
        obtain rfl := List.isEmpty_iff.1 empty
        apply FullFrame.Moves.of_enabled .sync
        simp [frameStep, unsynched, pc]
      · apply FullFrame.Moves.of_enabled .execute
        simpa [frameStep, execute, pc] using stall

/-- A child that is about to lock the frame does so. -/
theorem moves_of_atParent {frame child : FullFrame κ M} (mem : child ∈ frame.children)
    (atParent : child.AtParent) : frame.Moves := by
  obtain ⟨i, found⟩ := List.mem_iff_getElem?.1 mem
  obtain ⟨map, pc | pc⟩ := atParent
  · cases fast : fastPathReductionsForSpawnReturn (frame.leftOfChild i) map child.rightReducerMap with
    | some left =>
        apply FullFrame.Moves.of_enabled (.childSection i)
        simp [frameStep, executeReductionsForSpawnReturn, found, pc, fast]
    | none =>
        apply FullFrame.Moves.of_enabled (.childSection i)
        simp [frameStep, executeReductionsForSpawnReturn, found, pc, fast]
  · apply FullFrame.Moves.of_enabled (.childSection i)
    simp [frameStep, executeReductionsForSpawnReturn, found, pc]

/-- A frame that waits for the full frame it called takes its return once that is done. -/
theorem moves_of_called {frame called : FullFrame κ M} {rest : List (Stmt κ M)}
    (pc : frame.strand = .suspended rest) (last : frame.children.getLast? = some called)
    (isCalled : called.isCallChild = true) (finished : called.Finished) : frame.Moves := by
  obtain ⟨⟨map, calledPc⟩, synched⟩ := finished
  apply FullFrame.Moves.of_enabled .callReturn
  simp [frameStep, finalizeChildForCall, pc, last, isCalled, synched, calledPc]

/-- A stalled frame has a child at work, or one that is about to decrement its join counter. -/
theorem moves_of_stalled {frame : FullFrame κ M} {rest : List (Stmt κ M)} (ok : FrameOk frame)
    (stallOk : StallOk frame) (pc : frame.strand = .stalled rest)
    (below : ∀ child ∈ frame.children,
      child.Moves ∨ child.Finished ∧ child.isCallChild = true ∨ child.AtParent) : frame.Moves := by
  cases children : frame.children with
  | nil =>
      have join := ok.join_eq
      have waits := stallOk.waits (by simp [pc])
      simp only [children, pc, List.length_nil, Strand.active] at join
      obtain ⟨departed, count⟩ := Nat.exists_eq_succ_of_ne_zero (show frame.departed ≠ 0 by omega)
      apply FullFrame.Moves.of_enabled .childJoin
      simp [frameStep, count]
  | cons child others =>
      have mem : child ∈ frame.children := by simp [children]
      rcases below child mem with moves | ⟨-, called⟩ | atParent
      · exact .of_child mem moves
      · have spawned := ok.unsuspended (by simp [pc]) child mem
        simp [called] at spawned
      · exact moves_of_atParent mem atParent

/-- Every tree has a step, unless its root is done or waits to lock its parent. -/
theorem moves_or_done {frame : FullFrame κ M} (allOk : frame.All FrameOk) (all : frame.All StallOk) :
    frame.Moves ∨ frame.Finished ∧ frame.isCallChild = true ∨ frame.AtParent := by
  induction allOk with
  | @mk frame ok below ih =>
      have children (child : FullFrame κ M) (mem : child ∈ frame.children) :=
        ih child mem (all.children child mem)
      cases pc : frame.strand with
      | running current callers map =>
          cases current with
          | cons stmt rest => exact .inl (moves_of_statement pc)
          | nil =>
              cases callers with
              | nil =>
                  rcases moves_of_end pc with moves | done
                  · exact .inl moves
                  · exact .inr (.inl done)
              | cons caller callers =>
                  apply Or.inl
                  apply FullFrame.Moves.of_enabled .execute
                  simp [frameStep, execute, pc]
      | suspended rest =>
          obtain ⟨spawned, called, childrenEq, isCalled, -, -⟩ := ok.suspended (by simp [pc])
          have mem : called ∈ frame.children := by simp [childrenEq]
          rcases children called mem with moves | ⟨finished, -⟩ | ⟨map, calledPc⟩
          · exact .inl (.of_child mem moves)
          · exact .inl (moves_of_called pc (by simp [childrenEq]) isCalled finished)
          · have returned : called.strand.Returned := by rcases calledPc with eq | eq <;> simp [eq]
            have spawned := (below called mem).here.spawned returned
            simp [isCalled] at spawned
      | returning map => exact .inr (.inr ⟨map, .inl pc⟩)
      | reduced map => exact .inr (.inr ⟨map, .inr pc⟩)
      | reducing left middle right =>
          apply Or.inl
          apply FullFrame.Moves.of_enabled .spawnReturnMerge
          simp [frameStep, pc]
      | syncing map rest =>
          cases map with
          | none =>
              apply Or.inl
              apply FullFrame.Moves.of_enabled .syncFast
              simp [frameStep, pc]
          | some map =>
              apply Or.inl
              apply FullFrame.Moves.of_enabled .syncFast
              simp [frameStep, pc]
      | syncLocking map rest =>
          apply Or.inl
          apply FullFrame.Moves.of_enabled .syncSection
          simp [frameStep, pc]
      | syncReducing left middle rest =>
          apply Or.inl
          apply FullFrame.Moves.of_enabled .syncMerge
          simp [frameStep, pc]
      | stalling rest =>
          apply Or.inl
          apply FullFrame.Moves.of_enabled .stall
          simp [frameStep, pc]
      | stalled rest => exact .inl (moves_of_stalled ok all.here pc children)
      | synched rest =>
          apply Or.inl
          apply FullFrame.Moves.of_enabled .resume
          simp [frameStep, pc]

/-- A finished frame that is not returning to a spawn has no step left in its tree. -/
theorem not_moves_of_finished {frame : FullFrame κ M} (ok : FrameOk frame) (stallOk : StallOk frame)
    (finished : frame.Finished) (called : frame.isCallChild = true) : ¬ frame.Moves := by
  obtain ⟨⟨map, pc⟩, synched⟩ := finished
  have empty := ok.children_nil synched (by simp [pc])
  have departed := stallOk.joined synched
  rintro ⟨path, action, frame', taken⟩
  cases path with
  | cons i path => simp [treeStep, empty] at taken
  | nil =>
      cases action <;>
        simp [treeStep, frameStep, execute, detachForSteal, oldestSpawn, finalizeChildForCall,
          executeReductionsForSpawnReturn, pc, synched, called, empty, departed] at taken

/-- The root of a reachable tree was called, and moves until it is done. -/
theorem moves_iff_unfinished {program : List (Stmt κ M)} {root : FullFrame κ M}
    (reachable : (frameMachine program).Reachable root) : root.Moves ↔ ¬ root.Finished := by
  have called : root.isCallChild = true := by
    apply reachable.invariant
    · rintro _ rfl
      rfl
    · intro before label after reached called taken
      exact (StepOk.of_treeStep (frameOk_reachable reached).1 taken).same.isCallChild.trans called
  have allOk := (frameOk_reachable reachable).1
  have all := allStallOk_reachable reachable
  constructor
  · intro moves finished
    exact not_moves_of_finished allOk.here all.here finished called moves
  · intro unfinished
    rcases moves_or_done allOk all with moves | ⟨finished, -⟩ | ⟨map, pc⟩
    · exact moves
    · exact absurd finished unfinished
    · have returned : root.strand.Returned := by rcases pc with pc | pc <;> simp [pc]
      have spawned := allOk.here.spawned returned
      simp [called] at spawned

/-- The potential of the tree pays for every step of an execution. -/
theorem lowers_potential (program : List (Stmt κ M)) :
    (frameMachine program).Lowers FullFrame.potential := by
  intro root label root' reachable taken
  exact potential_treeStep (allStallOk_reachable reachable) taken

/-- Every execution of a fork-join program ends, whatever the interleaving of its strands, thieves and
    reductions: its steps are bounded by the program, it halts exactly when the function of the root is done,
    and then no full frame is left below the root, whose map is the product of all updates in serial order.
    From every tree that an execution reaches, an execution goes on to such an end. -/
theorem fork_join_completes (program : List (Stmt κ M)) :
    (∀ labels root, (frameMachine program).exec (initialFrame program) labels = some root →
      labels.length ≤ programWeight program + 6) ∧
    (∀ root, (frameMachine program).Reachable root →
      ((frameMachine program).Halted root ↔ root.Finished) ∧
      (root.Finished → ∃ map, root.strand = .running [] [] map ∧ root.children = [] ∧
        root.departed = 0 ∧ mapValue map = updatesValue (programUpdates program)) ∧
      ∃ labels root', (frameMachine program).exec root labels = some root' ∧ root'.Finished) := by
  have halted (root : FullFrame κ M) (reachable : (frameMachine program).Reachable root) :
      (frameMachine program).Halted root ↔ root.Finished := by
    have moves := moves_iff_unfinished reachable
    constructor
    · intro halted
      by_contra unfinished
      obtain ⟨path, action, root', taken⟩ := moves.2 unfinished
      simpa [frameMachine, taken] using halted (path, action)
    · intro finished label
      by_contra enabled
      obtain ⟨root', taken⟩ := Option.ne_none_iff_exists'.1 enabled
      exact moves.1 ⟨label.1, label.2, root', taken⟩ finished
  refine ⟨?_, fun root reachable => ⟨halted root reachable, ?_, ?_⟩⟩
  · intro labels root run
    have length := (lowers_potential program).length_le (.start rfl) run
    have initial : (initialFrame program).potential = programWeight program + 6 := by
      rw [FullFrame.potential_eq]
      simp [initialFrame, makeFullFrame, Strand.potential, callersWeight]
    omega
  · rintro ⟨⟨map, pc⟩, synched⟩
    obtain ⟨allOk, start, serial⟩ := frameOk_reachable reachable
    obtain ⟨empty, -, value⟩ := allOk.here.finished synched pc
    refine ⟨map, pc, empty, (allStallOk_reachable reachable).here.joined synched, ?_⟩
    simpa [start, serial] using value
  · obtain ⟨labels, root', run, stopped⟩ := (lowers_potential program).exists_halted reachable
    exact ⟨labels, root', run, (halted root' (reachable.exec run)).1 stopped⟩

/-- With one spawn and one theft. -/
theorem fork_join_completes_three :
    ((frameMachine threeUpdates).Halted
        ((frameMachine threeUpdates).after (initialFrame threeUpdates) threeUpdatesTrace) ↔
      FullFrame.Finished
        ((frameMachine threeUpdates).after (initialFrame threeUpdates) threeUpdatesTrace)) ∧
    threeUpdatesTrace.length ≤ programWeight threeUpdates + 6 := by
  have start : (frameMachine threeUpdates).Reachable (initialFrame threeUpdates) := .start rfl
  have completes := fork_join_completes threeUpdates
  exact ⟨(completes.2 _ (start.after threeUpdatesTrace)).1, completes.1 threeUpdatesTrace _ rfl⟩

end CilkL
