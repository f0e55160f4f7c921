/-
Module: CilkL.Proofs.FuturePutSteps
Layer: Proofs
Purpose: The steps of `put` keep the invariant of futures: its fetch_add fixes the number of deques to
  visit, a read of `node->next` moves the walk to the first pending deque, and a deque that put holds is
  made resumable. With the steps of the getters this gives the invariant of all runs in which no link is
  reset while a walk stands at it.
Imports: CilkL.Proofs.FutureGetSteps
Trusted boundary: none (fully proved)
Main exports: FutureInv.of_putMove, FutureInv.of_visit, FutureInv.of_wake, FutureInv.of_step,
  futureInv_run
Open obligations: none
-/
import CilkL.Proofs.FutureGetSteps

namespace CilkL

variable {φ δ T : Type} [DecidableEq φ]

/-! ### How put moves -/

/-- Moves of put that find nothing, resume nothing and keep the walk where it is or have finished it. -/
theorem FutureInv.of_putMove {s : FutureState φ δ T} {f : φ} {pc : PutPc φ δ} (inv : FutureInv s)
    (fetched : pc.fetched = (s.put f).fetched) (remaining : pc.remaining = (s.put f).remaining)
    (held : pc.held = (s.put f).held) (head : ∀ g, pc.node f = .head g → g = f)
    (node : pc.node f = (s.put f).node f ∨ ¬ (s.put f).Active) (result : s.mResult f ≠ none)
    (notFirst : ∀ numDeques, pc ≠ .first numDeques) :
    FutureInv { s with put := setAt s.put f pc } := by
  have fetchedEq : ∀ g, (setAt s.put f pc g).fetched = (s.put g).fetched := by
    intro g
    by_cases here : g = f
    · simp [here, fetched]
    · rw [setAt_other here]
  have remainingEq : ∀ g, (setAt s.put f pc g).remaining = (s.put g).remaining := by
    intro g
    by_cases here : g = f
    · simp [here, remaining]
    · rw [setAt_other here]
  have heldEq : ∀ g, (setAt s.put f pc g).held = (s.put g).held := by
    intro g
    by_cases here : g = f
    · simp [here, held]
    · rw [setAt_other here]
  have activeEq : ∀ g, (setAt s.put f pc g).Active ↔ (s.put g).Active := by
    intro g
    simp only [PutPc.Active, fetchedEq, remainingEq]
  have nodeEq : ∀ g, (s.put g).Active → (setAt s.put f pc g).node g = (s.put g).node g := by
    intro g active
    by_cases here : g = f
    · subst here
      simpa using node.resolve_right (not_not_intro active)
    · rw [setAt_other here]
  have standsEq : ∀ g d, (setAt s.put f pc g).StandsAt g d → (s.put g).StandsAt g d := by
    intro g d stands
    have more : (s.put g).remaining ≠ 0 := by simpa only [remainingEq] using stands.2
    exact ⟨(nodeEq g (.inr more)).symm.trans stands.1, more⟩
  have nodesEq : ∀ g, (s.put g).Active →
      FutureState.nodes { s with put := setAt s.put f pc } g = s.nodes g := by
    intro g active
    simp only [FutureState.nodes, nodeEq g active]
    rfl
  exact
    { inv with
      count_eq := fun g => by simpa only [fetchedEq] using inv.count_eq g
      before_put := fun g => by simpa only [fetchedEq] using inv.before_put g
      result_set := by
        intro g
        by_cases here : g = f
        · exact fun _ => here ▸ result
        · simpa only [setAt_other here] using inv.result_set g
      gets_result := fun g => by simpa only [fetchedEq] using inv.gets_result g
      passed := fun g d passed => by simpa only [fetchedEq] using inv.passed g d passed
      numDeques_eq := fun g fetched => inv.numDeques_eq g (by simpa only [fetchedEq] using fetched)
      unvisited := fun g walk => by
        have active := (activeEq g).1 walk.2
        exact inv.unvisited g ⟨(nodeEq g active).symm.trans walk.1, active⟩
      remaining_eq := fun g fetched => by
        rw [remainingEq]
        exact inv.remaining_eq g (by simpa only [fetchedEq] using fetched)
      stored_of_held := fun g => by
        rw [heldEq]
        exact inv.stored_of_held g
      placed := fun g => by
        rw [heldEq]
        exact inv.placed g
      held_nodup := fun g => by
        rw [heldEq]
        exact inv.held_nodup g
      first_pos := by
        intro g n
        by_cases here : g = f
        · subst here
          simpa using fun same => absurd same (notFirst n)
        · simpa only [setAt_other here] using inv.first_pos g n
      node_head := by
        intro g h
        by_cases here : g = f
        · subst here
          simpa using head h
        · simpa only [setAt_other here] using inv.node_head g h
      threaded := fun g active => by
        have activeOld := (activeEq g).1 active
        rw [nodesEq g activeOld]
        exact inv.threaded g activeOld
      tail_eq := fun g active => by
        have activeOld := (activeEq g).1 active
        rw [nodesEq g activeOld]
        exact inv.tail_eq g activeOld
      stands_visited := fun g d stands => inv.stands_visited g d (standsEq g d stands)
      stands_owns := fun g d stands => inv.stands_owns g d (standsEq g d stands)
      stands_unique := fun g h d one two =>
        inv.stands_unique g h d (standsEq g d one) (standsEq h d two) }

/-- The walk moves to the successor of its node: the first pending deque, whose link is stored. -/
theorem FutureInv.of_visit {s : FutureState φ δ T} {f : φ} {node : LinkNode φ δ} {pc : PutPc φ δ}
    (inv : FutureInv s) (more : (s.put f).remaining ≠ 0) (fetched : (s.put f).fetched = true)
    (found : s.next ((s.put f).node f) = some node) (fetched' : pc.fetched = true)
    (remaining' : pc.remaining = (s.put f).remaining - 1) (node' : pc.node f = node)
    (held' : pc.held = node.d.toList ++ (s.put f).held) :
    FutureInv
      { s with
        put := setAt s.put f pc
        visited := setAt s.visited f (s.visited f ++ node.d.toList) } := by
  have active : (s.put f).Active := .inr more
  obtain ⟨rest, nodesRest, settled⟩ := (inv.threaded f active).read found
  obtain ⟨d, pendingRest, pendingEq, rfl, -⟩ := List.map_eq_cons_iff.1 nodesRest
  have pending : d ∈ s.pending f := by simp [pendingEq]
  have waits := inv.inList_of_pending f d pending
  have stored : (s.getter d).Stored f := by
    unfold GetterPc.InList at waits
    split at waits
    · rename_i g oldTail pc
      exact absurd ⟨d, rfl, by simp [pc, GetterPc.StoringTo]⟩ (settled oldTail)
    · rename_i pc
      simpa [pc, GetterPc.Stored] using waits
    · rename_i pc
      simpa [pc, GetterPc.Stored] using waits
    · exact waits.elim
  have unvisited := inv.pending_unvisited pending
  have pendingEq' : FutureState.pending
      { s with
        put := setAt s.put f pc
        visited := setAt s.visited f (s.visited f ++ [d]) } = setAt s.pending f pendingRest := by
    funext g
    by_cases here : g = f
    · subst here
      have dropped : (s.linked g).drop (s.visited g).length = d :: pendingRest := pendingEq
      simp only [FutureState.pending, setAt_self, List.length_append, List.length_singleton]
      rw [← List.drop_drop, dropped]
      rfl
    · simp only [FutureState.pending, setAt_other here]
  have nodesEq : ∀ g, FutureState.nodes
      { s with
        put := setAt s.put f pc
        visited := setAt s.visited f (s.visited f ++ [d]) } g =
      if g = f then .link d :: pendingRest.map .link else s.nodes g := by
    intro g
    rw [FutureState.nodes, pendingEq']
    by_cases here : g = f
    · subst here
      simp [node']
    · simp [setAt_other here, here, FutureState.nodes]
  have standsNew : ∀ g x, (setAt s.put f pc g).StandsAt g x →
      g = f ∧ x = d ∨ g ≠ f ∧ (s.put g).StandsAt g x := by
    intro g x stands
    by_cases here : g = f
    · subst here
      simp only [PutPc.StandsAt, setAt_self, node', LinkNode.link.injEq] at stands
      exact .inl ⟨rfl, stands.1.symm⟩
    · simp only [setAt_other here] at stands
      exact .inr ⟨here, stands⟩
  have notStands : ∀ g, g ≠ f → ¬ (s.put g).StandsAt g d := fun g other stands =>
    other (inv.stands_owns g d stands f waits.owns).symm
  refine
    { inv with
      count_eq := ?_, before_put := ?_, result_set := ?_, gets_result := ?_, passed := ?_
      numDeques_eq := ?_, visited_initial := ?_, unvisited := ?_, remaining_eq := ?_
      inList_of_pending := ?_, stored_of_held := ?_, placed := ?_, held_nodup := ?_
      first_pos := ?_, node_head := ?_, threaded := ?_, tail_eq := ?_, stands_visited := ?_
      stands_owns := ?_, stands_unique := ?_ }
  · intro g
    by_cases here : g = f
    · subst here
      simpa [fetched', fetched] using inv.count_eq g
    · simpa only [setAt_other here] using inv.count_eq g
  · intro g before
    by_cases here : g = f
    · simp [here, fetched'] at before
    · simp only [setAt_other here] at before
      exact inv.before_put g before
  · intro g started
    by_cases here : g = f
    · subst here
      refine inv.result_set g ?_
      rintro idle
      simp [idle, PutPc.fetched] at fetched
    · simp only [setAt_other here] at started
      exact inv.result_set g started
  · intro g got mem
    by_cases here : g = f
    · subst here
      simpa [fetched', fetched] using inv.gets_result g got mem
    · simpa only [setAt_other here] using inv.gets_result g got mem
  · intro g x passed
    by_cases here : g = f
    · simp [here, fetched']
    · simpa only [setAt_other here] using inv.passed g x passed
  · intro g fetchedG
    by_cases here : g = f
    · subst here
      exact inv.numDeques_eq g fetched
    · simp only [setAt_other here] at fetchedG
      exact inv.numDeques_eq g fetchedG
  · intro g
    by_cases here : g = f
    · subst here
      have split := inv.linked_eq g
      rw [pendingEq] at split
      exact ⟨pendingRest, by simp [split, LinkNode.d]⟩
    · simpa only [setAt_other here] using inv.visited_initial g
  · intro g walk
    by_cases here : g = f
    · subst here
      simp [node'] at walk
    · simp only [setAt_other here] at walk ⊢
      exact inv.unvisited g walk
  · intro g fetchedG
    by_cases here : g = f
    · subst here
      have counts := inv.remaining_eq g fetched
      simp only [setAt_self, remaining', LinkNode.d, Option.toList_some, List.length_append,
        List.length_singleton]
      refine Eq.trans ?_ counts
      push_cast
      omega
    · simp only [setAt_other here] at fetchedG ⊢
      exact inv.remaining_eq g fetchedG
  · intro g x mem
    replace mem : x ∈ setAt s.pending f pendingRest g := pendingEq' ▸ mem
    by_cases here : g = f
    · subst here
      rw [setAt_self] at mem
      exact inv.inList_of_pending g x (by simp [pendingEq, mem])
    · rw [setAt_other here] at mem
      exact inv.inList_of_pending g x mem
  · intro g x mem
    by_cases here : g = f
    · subst here
      simp only [setAt_self, held', LinkNode.d, Option.toList_some, List.singleton_append,
        List.mem_cons] at mem
      rcases mem with rfl | old
      · exact ⟨stored, by simp [LinkNode.d]⟩
      · obtain ⟨storedOld, visitedOld⟩ := inv.stored_of_held g x old
        exact ⟨storedOld, by simp [visitedOld]⟩
    · simp only [setAt_other here] at mem ⊢
      exact inv.stored_of_held g x mem
  · intro g x waitsX
    have placed := inv.placed g x waitsX
    change x ∈ FutureState.pending
      { s with
        put := setAt s.put f pc
        visited := setAt s.visited f (s.visited f ++ [d]) } g ∨ x ∈ (setAt s.put f pc g).held
    rw [pendingEq']
    by_cases here : g = f
    · subst here
      rw [pendingEq] at placed
      simp only [setAt_self, held', LinkNode.d, Option.toList_some, List.singleton_append,
        List.mem_cons] at placed ⊢
      tauto
    · simpa only [setAt_other here] using placed
  · intro g
    by_cases here : g = f
    · subst here
      simp only [setAt_self, held', LinkNode.d, Option.toList_some, List.singleton_append,
        List.nodup_cons]
      exact ⟨fun mem => unvisited (inv.stored_of_held g d mem).2, inv.held_nodup g⟩
    · simpa only [setAt_other here] using inv.held_nodup g
  · intro g n
    by_cases here : g = f
    · subst here
      simp only [setAt_self]
      rintro rfl
      simp [PutPc.held, LinkNode.d] at held'
    · simpa only [setAt_other here] using inv.first_pos g n
  · intro g h
    by_cases here : g = f
    · simp [here, node']
    · simpa only [setAt_other here] using inv.node_head g h
  · intro g activeG
    refine nodesEq g ▸ ?_
    split
    · rename_i here
      have threaded := inv.threaded f active
      rw [FutureState.nodes, pendingEq] at threaded
      exact threaded.of_cons
    · rename_i here
      simp only [setAt_other here] at activeG
      exact inv.threaded g activeG
  · intro g activeG
    refine nodesEq g ▸ ?_
    split
    · rename_i here
      subst here
      have tailEq := inv.tail_eq g active
      rw [FutureState.nodes, pendingEq] at tailEq
      simpa using tailEq
    · rename_i here
      simp only [setAt_other here] at activeG
      exact inv.tail_eq g activeG
  · intro g x stands
    rcases standsNew g x stands with ⟨rfl, rfl⟩ | ⟨here, standsOld⟩
    · simp [LinkNode.d]
    · simp only [setAt_other here]
      exact inv.stands_visited g x standsOld
  · intro g x stands h own
    rcases standsNew g x stands with ⟨rfl, rfl⟩ | ⟨here, standsOld⟩
    · -- The new node of the walk is in the list of `f`, so no other future uses its link.
      have listed := waits.owns
      unfold GetterPc.OwnsLink at listed own
      split at own <;> simp_all
    · exact inv.stands_owns g x standsOld h own
  · intro g h x one two
    rcases standsNew g x one with ⟨rfl, rfl⟩ | ⟨hereG, oldG⟩ <;>
      rcases standsNew h x two with ⟨rfl, same⟩ | ⟨hereH, oldH⟩
    · rfl
    · exact absurd oldH (notStands h hereH)
    · exact absurd (same ▸ oldG) (notStands g hereG)
    · exact inv.stands_unique g h x oldG oldH

variable [DecidableEq δ]

/-! ### The steps of put -/

theorem FutureInv.of_putStore {s s' : FutureState φ δ T} {f : φ} {result : T} (inv : FutureInv s)
    (taken : futureStep s (.putStore f result) = some s') : FutureInv s' := by
  simp only [futureStep] at taken
  split at taken <;> simp at taken
  rename_i pc
  subst taken
  have stored : FutureInv { s with mResult := setAt s.mResult f (some result) } := by
    refine { inv with result_set := ?_, gets_result := ?_ }
    · intro g started
      by_cases here : g = f
      · simp [here]
      · simpa only [setAt_other here] using inv.result_set g started
    · intro g got mem
      obtain ⟨afterPut, value, fetched⟩ := inv.gets_result g got mem
      have here : g ≠ f := by
        rintro rfl
        simp [pc, PutPc.fetched] at fetched
      simpa only [setAt_other here] using ⟨afterPut, value, fetched⟩
  apply stored.of_putMove
  · simp [pc, PutPc.fetched]
  · simp [pc, PutPc.remaining]
  · simp [pc, PutPc.held]
  · simp [PutPc.node]
  · simp [pc, PutPc.node]
  · simp
  · simp

theorem FutureInv.of_putFetchAdd {s s' : FutureState φ δ T} {f : φ} (inv : FutureInv s)
    (few : ∀ f, (s'.draws f).length < 2 ^ 31)
    (taken : futureStep s (.putFetchAdd f) = some s') : FutureInv s' := by
  simp only [futureStep] at taken
  split at taken <;> simp at taken
  rename_i pc
  subst taken
  have room : (s.draws f).length < 2 ^ 31 := few f
  have unfetched : (s.put f).fetched = false := by simp [pc, PutPc.fetched]
  have count := inv.count_eq f
  rw [if_neg (by simp [unfetched])] at count
  -- Before put every draw is a holder's.
  have holders : (s.holders f).length = (s.draws f).length := by
    simp only [FutureState.holders, List.length_map]
    rw [List.filter_eq_self.2]
    intro draw mem
    have before := inv.before_put f unfetched draw mem
    have sign := inv.ticket_sign f draw mem
    simp [before] at sign ⊢
    exact sign
  generalize after : (if 0 < s.mNumSuspendedDeques f then
    PutPc.first (s.mNumSuspendedDeques f) else PutPc.returned none : PutPc φ δ) = pc'
  have fetched' : pc'.fetched = true := by
    subst after
    split <;> rfl
  have remaining' : pc'.remaining = (s.holders f).length := by
    subst after
    split
    · simp only [PutPc.remaining]
      omega
    · simp only [PutPc.remaining]
      omega
  have held' : pc'.held = [] := by
    subst after
    split <;> simp [PutPc.held]
  have node' : pc'.node f = .head f := by
    subst after
    split <;> rfl
  have nodesEq : ∀ g, FutureState.nodes
      { s with
        mNumSuspendedDeques :=
          setAt s.mNumSuspendedDeques f (wrapInt (s.mNumSuspendedDeques f + int32Min))
        put := setAt s.put f pc'
        numDeques := setAt s.numDeques f (some (s.mNumSuspendedDeques f)) } g = s.nodes g := by
    intro g
    have nodeEq : (setAt s.put f pc' g).node g = (s.put g).node g := by
      by_cases here : g = f
      · subst here
        simp [node', PutPc.node_of_unfetched unfetched]
      · rw [setAt_other here]
    simp only [FutureState.nodes, nodeEq]
    rfl
  have active : (s.put f).Active := .inl unfetched
  have activeOld : ∀ g, (setAt s.put f pc' g).Active → (s.put g).Active := by
    intro g activeG
    by_cases here : g = f
    · exact here ▸ active
    · rwa [setAt_other here] at activeG
  have standsOld : ∀ g d, (setAt s.put f pc' g).StandsAt g d → (s.put g).StandsAt g d := by
    intro g d stands
    by_cases here : g = f
    · subst here
      simp [PutPc.StandsAt, node'] at stands
    · rwa [setAt_other here] at stands
  have fetchedOld : ∀ g, (s.put g).fetched = true → (setAt s.put f pc' g).fetched = true := by
    intro g fetched
    by_cases here : g = f
    · simp [here, fetched']
    · rwa [setAt_other here]
  refine
    { inv with
      count_eq := ?_, before_put := ?_, result_set := ?_
      gets_result := fun g got mem =>
        ⟨(inv.gets_result g got mem).1, (inv.gets_result g got mem).2.1,
          fetchedOld g (inv.gets_result g got mem).2.2⟩
      passed := fun g d passed => fetchedOld g (inv.passed g d passed)
      numDeques_eq := ?_
      unvisited := ?_, remaining_eq := ?_, stored_of_held := ?_, placed := ?_, held_nodup := ?_
      first_pos := ?_, node_head := ?_
      threaded := fun g activeG => by
        rw [nodesEq]
        exact inv.threaded g (activeOld g activeG)
      tail_eq := fun g activeG => by
        rw [nodesEq]
        exact inv.tail_eq g (activeOld g activeG)
      stands_visited := fun g d stands => inv.stands_visited g d (standsOld g d stands)
      stands_owns := fun g d stands => inv.stands_owns g d (standsOld g d stands)
      stands_unique := fun g h d one two =>
        inv.stands_unique g h d (standsOld g d one) (standsOld h d two) }
  · intro g
    by_cases here : g = f
    · subst here
      simp only [setAt_self, if_pos fetched']
      rw [wrapInt_of_lt (by simp only [int32Min]; omega) (by simp only [int32Min]; omega)]
      simp only [int32Min]
      omega
    · simpa only [setAt_other here] using inv.count_eq g
  · intro g unfetchedG
    by_cases here : g = f
    · subst here
      simp [fetched'] at unfetchedG
    · simp only [setAt_other here] at unfetchedG
      exact inv.before_put g unfetchedG
  · intro g started
    by_cases here : g = f
    · exact here ▸ inv.result_set f (by simp [pc])
    · simp only [setAt_other here] at started
      exact inv.result_set g started
  · intro g fetched
    by_cases here : g = f
    · subst here
      refine (setAt_self _ _ _).trans (congrArg some ?_)
      change s.mNumSuspendedDeques g = ((s.holders g).length : Int)
      omega
    · simp only [setAt_other here] at fetched
      exact (setAt_other here _ _).trans (inv.numDeques_eq g fetched)
  · intro g walk
    by_cases here : g = f
    · subst here
      exact inv.visited_nil unfetched
    · simp only [setAt_other here] at walk
      exact inv.unvisited g walk
  · intro g fetched
    by_cases here : g = f
    · subst here
      simp only [setAt_self, remaining', inv.visited_nil unfetched]
      simp
      rfl
    · simp only [setAt_other here] at fetched ⊢
      exact inv.remaining_eq g fetched
  · intro g d mem
    by_cases here : g = f
    · simp [here, held'] at mem
    · simp only [setAt_other here] at mem
      exact inv.stored_of_held g d mem
  · intro g d waits
    rcases inv.placed g d waits with pending | held
    · exact .inl pending
    · by_cases here : g = f
      · subst here
        simp [pc, PutPc.held] at held
      · simp only [setAt_other here]
        exact .inr held
  · intro g
    by_cases here : g = f
    · simp [here, held']
    · simpa only [setAt_other here] using inv.held_nodup g
  · intro g n
    by_cases here : g = f
    · subst here
      simp only [setAt_self, ← after]
      split
      · rename_i positive
        rintro same
        exact PutPc.first.inj same ▸ positive
      · simp
    · simpa only [setAt_other here] using inv.first_pos g n
  · intro g h
    by_cases here : g = f
    · subst here
      simpa [node'] using fun same => same.symm
    · simpa only [setAt_other here] using inv.node_head g h

theorem FutureInv.of_putRead {s s' : FutureState φ δ T} {f : φ} (inv : FutureInv s)
    (taken : futureStep s (.putRead f) = some s') : FutureInv s' := by
  simp only [futureStep] at taken
  split at taken
  · rename_i numDeques pc
    have more : (s.put f).remaining ≠ 0 := by
      intro finished
      have counts := inv.remaining_eq f (by simp [pc, PutPc.fetched])
      have positive := inv.first_pos f numDeques pc
      simp [pc, PutPc.remaining] at finished
      omega
    split at taken
    · exact Option.some.inj taken ▸ inv
    · rename_i node found
      cases taken
      apply inv.of_visit more
      · simp [pc, PutPc.fetched]
      · simpa [pc, PutPc.node] using found
      · rfl
      · simp [pc, PutPc.remaining]
      · rfl
      · simp [pc, PutPc.held]
  · rename_i node numDeques ret pc
    split at taken
    · rename_i finished
      cases taken
      apply inv.of_putMove
      · simp [pc, PutPc.fetched]
      · simp [pc, PutPc.remaining, finished]
      · simp [pc, PutPc.held]
      · simp [PutPc.node]
      · right
        simp [pc, PutPc.Active, PutPc.fetched, PutPc.remaining, finished]
      · exact inv.result_set f (by simp [pc])
      · simp
    · rename_i more
      split at taken
      · exact Option.some.inj taken ▸ inv
      · rename_i node' found
        cases taken
        apply inv.of_visit
        · simpa [pc, PutPc.remaining] using more
        · simp [pc, PutPc.fetched]
        · simpa [pc, PutPc.node] using found
        · rfl
        · simp [pc, PutPc.remaining]
        · rfl
        · simp [pc, PutPc.held]
  · simp at taken

/-- A deque that put holds is made resumable: it leaves the list and the hands of put. -/
theorem FutureInv.of_wake {s : FutureState φ δ T} {f g : φ} {d : δ} {pc : PutPc φ δ}
    (inv : FutureInv s) (suspended : s.getter d = .get g .suspended)
    (held : (s.put f).held = d :: pc.held) (fetched : (s.put f).fetched = true)
    (fetched' : pc.fetched = true) (remaining' : pc.remaining = (s.put f).remaining)
    (node' : pc.node f = (s.put f).node f) (notFirst : ∀ numDeques, pc ≠ .first numDeques) :
    FutureInv
      { s with
        put := setAt s.put f pc
        getter := setAt s.getter d (.get g .resumable) } := by
  obtain ⟨storedF, visited⟩ := inv.stored_of_held f d (by simp [held])
  obtain rfl : g = f := by simpa [suspended, GetterPc.Stored] using storedF
  have heldNodup := inv.held_nodup g
  rw [held, List.nodup_cons] at heldNodup
  have fetchedEq : ∀ h, (setAt s.put g pc h).fetched = (s.put h).fetched := by
    intro h
    by_cases here : h = g
    · simp [here, fetched, fetched']
    · rw [setAt_other here]
  have remainingEq : ∀ h, (setAt s.put g pc h).remaining = (s.put h).remaining := by
    intro h
    by_cases here : h = g
    · simp [here, remaining']
    · rw [setAt_other here]
  have nodeEq : ∀ h, (setAt s.put g pc h).node h = (s.put h).node h := by
    intro h
    by_cases here : h = g
    · subst here
      simp [node']
    · rw [setAt_other here]
  have activeEq : ∀ h, (setAt s.put g pc h).Active ↔ (s.put h).Active := by
    intro h
    simp only [PutPc.Active, fetchedEq, remainingEq]
  have standsEq : ∀ h x, (setAt s.put g pc h).StandsAt h x ↔ (s.put h).StandsAt h x := by
    intro h x
    simp only [PutPc.StandsAt, nodeEq, remainingEq]
  have nodesEq : ∀ h, FutureState.nodes
      { s with
        put := setAt s.put g pc
        getter := setAt s.getter d (.get g .resumable) } h = s.nodes h := by
    intro h
    simp only [FutureState.nodes, nodeEq]
    rfl
  have notPending : ∀ h, d ∉ s.pending h := by
    intro h pending
    obtain rfl := (inv.inList_of_pending h d pending).unique storedF.inList
    exact inv.pending_unvisited pending visited
  have flight : ∀ a b, (∃ x, b = .link x ∧
      (setAt s.getter d (.get g .resumable) x).StoringTo a) ↔ s.inFlight a b := by
    intro a b
    refine exists_congr fun x => and_congr_right fun _ => ?_
    exact ⟨fun storing => (setAt_of (by simp [GetterPc.StoringTo]) storing).2,
      fun storing => setAt_keep (by simp [suspended, GetterPc.StoringTo]) storing⟩
  refine
    { inv with
      count_eq := fun h => by simpa only [fetchedEq] using inv.count_eq h
      before_put := fun h => by simpa only [fetchedEq] using inv.before_put h
      result_set := ?_
      gets_result := fun h => by simpa only [fetchedEq] using inv.gets_result h
      passed := ?_
      not_failed := fun x failed =>
        inv.not_failed x (setAt_of (by simp [GetterPc.Failed]) failed).2
      numDeques_eq := fun h fetched => inv.numDeques_eq h (by simpa only [fetchedEq] using fetched)
      unvisited := fun h => by simpa only [nodeEq, activeEq] using inv.unvisited h
      remaining_eq := fun h fetched => by
        rw [remainingEq]
        exact inv.remaining_eq h (by simpa only [fetchedEq] using fetched)
      before_iff := ?_
      inList_of_pending := ?_, stored_of_held := ?_, placed := ?_, held_nodup := ?_
      first_pos := ?_
      node_head := fun h => by simpa only [nodeEq] using inv.node_head h
      fresh := fun h x exchanging =>
        inv.fresh h x (setAt_of (by simp [GetterPc.Exchanging]) exchanging).2
      threaded := fun h active => by
        rw [nodesEq]
        exact (inv.threaded h ((activeEq h).1 active)).congr (fun _ _ => rfl)
          (fun a b _ => flight a b)
      tail_eq := fun h active => by
        rw [nodesEq]
        exact inv.tail_eq h ((activeEq h).1 active)
      stands_visited := fun h x => by simpa only [standsEq] using inv.stands_visited h x
      stands_owns := fun h x stands k own => inv.stands_owns h x ((standsEq h x).1 stands) k
        (setAt_of (by simp [GetterPc.OwnsLink]) own).2
      stands_unique := fun h k x => by simpa only [standsEq] using inv.stands_unique h k x }
  · intro h started
    by_cases here : h = g
    · subst here
      refine inv.result_set h ?_
      rintro idle
      simp [idle, PutPc.fetched] at fetched
    · simp only [setAt_other here] at started
      exact inv.result_set h started
  · intro h x passed
    simp only [fetchedEq]
    by_cases here : x = d
    · subst here
      obtain rfl : g = h := by simpa [GetterPc.Passed] using passed
      exact fetched
    · simp only [setAt_other here] at passed
      exact inv.passed h x passed
  · intro h x
    refine Iff.trans ?_ (inv.before_iff h x)
    by_cases here : x = d
    · simp [here, suspended, GetterPc.BeforeLink]
    · simp only [setAt_other here]
  · intro h x pending
    have here : x ≠ d := by
      rintro rfl
      exact notPending h pending
    simp only [setAt_other here]
    exact inv.inList_of_pending h x pending
  · intro h x mem
    have memOld : x ∈ (s.put h).held ∧ x ≠ d := by
      by_cases here : h = g
      · subst here
        simp only [setAt_self] at mem
        refine ⟨by simp [held, mem], ?_⟩
        rintro rfl
        exact heldNodup.1 mem
      · simp only [setAt_other here] at mem
        refine ⟨mem, ?_⟩
        rintro rfl
        exact here ((inv.stored_of_held h x mem).1.inList.unique storedF.inList)
    simp only [setAt_other memOld.2]
    exact inv.stored_of_held h x memOld.1
  · intro h x waits
    obtain ⟨other, waitsOld⟩ := setAt_of (by simp [GetterPc.InList]) waits
    rcases inv.placed h x waitsOld with pending | mem
    · exact .inl pending
    · right
      by_cases here : h = g
      · subst here
        simpa [held, other] using mem
      · simpa only [setAt_other here] using mem
  · intro h
    by_cases here : h = g
    · subst here
      simpa using heldNodup.2
    · simpa only [setAt_other here] using inv.held_nodup h
  · intro h n
    by_cases here : h = g
    · subst here
      simpa using fun same => absurd same (notFirst n)
    · simpa only [setAt_other here] using inv.first_pos h n

theorem FutureInv.of_putWake {s s' : FutureState φ δ T} {f : φ} (inv : FutureInv s)
    (taken : futureStep s (.putWake f) = some s') : FutureInv s' := by
  simp only [futureStep] at taken
  split at taken <;> try simp at taken
  rename_i node numDeques ret pc
  obtain ⟨d, g, nodeD, suspended, rfl⟩ := makeResumable_eq taken
  apply inv.of_wake suspended
  · simp [pc, PutPc.held, nodeD]
  · simp [pc, PutPc.fetched]
  · rfl
  · simp [pc, PutPc.remaining]
  · simp [pc, PutPc.node]
  · simp

theorem FutureInv.of_putResume {s s' : FutureState φ δ T} {f : φ} (inv : FutureInv s)
    (taken : futureStep s (.putResume f) = some s') : FutureInv s' := by
  simp only [futureStep] at taken
  split at taken <;> try simp at taken
  rename_i x pc
  obtain ⟨d, g, same, suspended, rfl⟩ := makeResumable_eq taken
  obtain rfl := Option.some.inj same
  apply inv.of_wake suspended
  · simp [pc, PutPc.held]
  · simp [pc, PutPc.fetched]
  · rfl
  · simp [pc, PutPc.remaining]
  · simp [pc, PutPc.node]
  · simp

/-! ### Runs -/

/-- A step that resets no link a walk stands at keeps the invariant of futures. -/
theorem FutureInv.of_step {s s' : FutureState φ δ T} {label : FutureLabel φ δ T}
    (inv : FutureInv s) (few : ∀ f, (s'.draws f).length < 2 ^ 31) (agrees : ResetAgrees s label)
    (taken : futureStep s label = some s') : FutureInv s' := by
  cases label with
  | getTest d f => exact inv.of_getTest taken
  | getFetchAdd d => exact inv.of_getFetchAdd few taken
  | getResetLink d => exact inv.of_getResetLink agrees taken
  | getExchangeTail d => exact inv.of_getExchangeTail taken
  | getStoreNext d => exact inv.of_getStoreNext taken
  | getSuspend d => exact inv.of_getSuspend taken
  | getRun d => exact inv.of_getRun taken
  | getAssert d => exact inv.of_getAssert few taken
  | getLoad d => exact inv.of_getLoad taken
  | putStore f result => exact inv.of_putStore taken
  | putFetchAdd f => exact inv.of_putFetchAdd few taken
  | putRead f => exact inv.of_putRead taken
  | putWake f => exact inv.of_putWake taken
  | putResume f => exact inv.of_putResume taken

/-- No step takes a ticket back. -/
theorem draws_length_le {s s' : FutureState φ δ T} {label : FutureLabel φ δ T}
    (taken : futureStep s label = some s') (f : φ) :
    (s.draws f).length ≤ (s'.draws f).length := by
  have same : s'.draws = s.draws → (s.draws f).length ≤ (s'.draws f).length :=
    fun eq => Nat.le_of_eq (by rw [eq])
  cases label with
  | getFetchAdd d =>
      simp only [futureStep] at taken
      split at taken <;> simp at taken
      rename_i g pc
      subst taken
      by_cases here : f = g
      · simp [here]
      · simp [setAt_other here]
  | putWake g | putResume g =>
      simp only [futureStep] at taken
      split at taken <;> try simp at taken
      obtain ⟨d, h, -, -, rfl⟩ := makeResumable_eq taken
      exact same rfl
  | putRead g =>
      simp only [futureStep] at taken
      repeat' split at taken
      all_goals first | (cases taken; exact same rfl) | simp at taken
  | _ =>
      simp only [futureStep] at taken
      split at taken
      · cases taken
        exact same rfl
      · simp at taken

/-- The invariant of futures holds in the runs in which no link is reset while a walk stands at it. -/
theorem futureInv_run {s : FutureState φ δ T} (run : (futureMachine φ δ T).GuardedRun ResetAgrees s)
    (few : ∀ f, (s.draws f).length < 2 ^ 31) : FutureInv s := by
  revert few
  apply run.invariant
  · rintro _ rfl -
    exact .of_initial
  · intro s label s' inv agrees taken few
    exact (inv fun f => Nat.lt_of_le_of_lt (draws_length_le taken f) (few f)).of_step few agrees taken

end CilkL
