/-
Module: CilkL.Proofs.FutureGetSteps
Layer: Proofs
Purpose: The steps of getters keep the invariant of futures. A step concerns one future and one deque;
  for the other futures it is enough that the deque is in no other list and that the link the step
  writes belongs to no other list.
Imports: CilkL.Proofs.FutureInvariant
Trusted boundary: none (fully proved)
Main exports: FutureInv.of_getter, FutureInv.of_getFetchAdd, FutureInv.of_getResetLink,
  FutureInv.of_getExchangeTail, FutureInv.of_getStoreNext
Open obligations: none
-/
import CilkL.Proofs.FutureInvariant

namespace CilkL

variable {φ δ T : Type} [DecidableEq δ]

/-! ### Steps that only move a getter -/

theorem FutureInv.of_getter {s : FutureState φ δ T} {d : δ} {pc : GetterPc φ δ} (inv : FutureInv s)
    (role : (s.getter d).SameRole pc) (passed : ∀ f, pc.Passed f → (s.put f).fetched = true)
    (notFailed : ¬ pc.Failed) : FutureInv { s with getter := setAt s.getter d pc } := by
  have before : ∀ f x, (setAt s.getter d pc x).BeforeLink f ↔ (s.getter x).BeforeLink f := by
    intro f x
    by_cases here : x = d
    · simpa [here] using role.before f
    · rw [setAt_other here]
  have inList : ∀ f x, (setAt s.getter d pc x).InList f ↔ (s.getter x).InList f := by
    intro f x
    by_cases here : x = d
    · simpa [here] using role.inList f
    · rw [setAt_other here]
  have stored : ∀ f x, (setAt s.getter d pc x).Stored f ↔ (s.getter x).Stored f := by
    intro f x
    by_cases here : x = d
    · simpa [here] using role.stored f
    · rw [setAt_other here]
  have owns : ∀ f x, (setAt s.getter d pc x).OwnsLink f → (s.getter x).OwnsLink f := by
    intro f x
    by_cases here : x = d
    · simpa [here] using role.owns f
    · rw [setAt_other here]
      exact id
  have storing : ∀ x node,
      (setAt s.getter d pc x).StoringTo node ↔ (s.getter x).StoringTo node := by
    intro x node
    by_cases here : x = d
    · simpa [here] using role.storing node
    · rw [setAt_other here]
  exact
    { inv with
      passed := by
        intro f x
        by_cases here : x = d
        · simpa [here] using passed f
        · simpa only [setAt_other here] using inv.passed f x
      not_failed := by
        intro x
        by_cases here : x = d
        · simpa [here] using notFailed
        · simpa only [setAt_other here] using inv.not_failed x
      before_iff := fun f x => (before f x).trans (inv.before_iff f x)
      inList_of_pending := fun f x mem => (inList f x).2 (inv.inList_of_pending f x mem)
      stored_of_held := fun f x mem =>
        ⟨(stored f x).2 (inv.stored_of_held f x mem).1, (inv.stored_of_held f x mem).2⟩
      placed := fun f x waits => inv.placed f x ((inList f x).1 waits)
      fresh := by
        intro f x
        by_cases here : x = d
        · simpa [here] using fun exchanging => inv.fresh f d (role.fresh f exchanging)
        · simpa only [setAt_other here] using inv.fresh f x
      threaded := fun f active => (inv.threaded f active).congr (fun _ _ => rfl)
        fun a b _ => by simp only [FutureState.inFlight, storing]
      stands_owns := fun f x stands g own => inv.stands_owns f x stands g (owns g x own) }

/-- What `__cilkrts_make_resumable` does. -/
theorem makeResumable_eq {s s' : FutureState φ δ T} {d : Option δ}
    (made : makeResumable s d = some s') :
    ∃ x f, d = some x ∧ s.getter x = .get f .suspended ∧
      s' = { s with getter := setAt s.getter x (.get f .resumable) } := by
  unfold makeResumable at made
  split at made
  · simp at made
  · rename_i x
    split at made
    · rename_i f pc
      exact ⟨x, f, rfl, pc, (Option.some.inj made).symm⟩
    · simp at made

variable [DecidableEq φ]

theorem FutureInv.of_getTest {s s' : FutureState φ δ T} {d : δ} {f : φ} (inv : FutureInv s)
    (taken : futureStep s (.getTest d f) = some s') : FutureInv s' := by
  cases pc : s.getter d <;> simp [futureStep, pc] at taken
  subst taken
  apply inv.of_getter
  · apply GetterPc.NoRole.sameRole
    · simp [pc, GetterPc.NoRole]
    · split <;> trivial
  · intro g passed
    split at passed <;> simp [GetterPc.Passed] at passed
    rename_i negative
    exact passed ▸ inv.fetched_of_neg negative
  · split <;> simp [GetterPc.Failed]

theorem FutureInv.of_getSuspend {s s' : FutureState φ δ T} {d : δ} (inv : FutureInv s)
    (taken : futureStep s (.getSuspend d) = some s') : FutureInv s' := by
  simp only [futureStep] at taken
  split at taken <;> simp at taken
  rename_i f pc
  subst taken
  apply inv.of_getter
  · constructor <;> simp [pc, GetterPc.BeforeLink, GetterPc.InList, GetterPc.Stored,
      GetterPc.OwnsLink, GetterPc.StoringTo, GetterPc.Exchanging]
  · simp [GetterPc.Passed]
  · simp [GetterPc.Failed]

theorem FutureInv.of_getRun {s s' : FutureState φ δ T} {d : δ} (inv : FutureInv s)
    (taken : futureStep s (.getRun d) = some s') : FutureInv s' := by
  simp only [futureStep] at taken
  split at taken <;> simp at taken
  rename_i f pc
  subst taken
  apply inv.of_getter
  · exact GetterPc.NoRole.sameRole (by simp [pc, GetterPc.NoRole]) trivial
  · intro g passed
    exact inv.passed g d (by simpa [pc, GetterPc.Passed] using passed)
  · simp [GetterPc.Failed]

theorem FutureInv.of_getAssert {s s' : FutureState φ δ T} {d : δ} (inv : FutureInv s)
    (few : ∀ f, (s'.draws f).length < 2 ^ 31)
    (taken : futureStep s (.getAssert d) = some s') : FutureInv s' := by
  simp only [futureStep] at taken
  split at taken <;> simp at taken
  rename_i f pc
  subst taken
  have fetched := inv.passed f d (by simp [pc, GetterPc.Passed])
  rw [if_pos (inv.neg_of_fetched (few f) fetched)]
  apply inv.of_getter
  · exact GetterPc.NoRole.sameRole (by simp [pc, GetterPc.NoRole]) trivial
  · intro g passed
    exact inv.passed g d (by simpa [pc, GetterPc.Passed] using passed)
  · simp [GetterPc.Failed]

theorem FutureInv.of_getLoad {s s' : FutureState φ δ T} {d : δ} (inv : FutureInv s)
    (taken : futureStep s (.getLoad d) = some s') : FutureInv s' := by
  simp only [futureStep] at taken
  split at taken <;> simp at taken
  rename_i f pc
  subst taken
  have fetched := inv.passed f d (by simp [pc, GetterPc.Passed])
  have moved : FutureInv { s with getter := setAt s.getter d .running } := by
    apply inv.of_getter
    · exact GetterPc.NoRole.sameRole (by simp [pc, GetterPc.NoRole]) trivial
    · simp [GetterPc.Passed]
    · simp [GetterPc.Failed]
  refine { moved with gets_result := ?_ }
  intro g got mem
  by_cases here : g = f
  · subst here
    simp only [setAt_self, List.mem_append, List.mem_singleton] at mem
    rcases mem with old | rfl
    · exact inv.gets_result g got old
    · exact ⟨fetched, rfl, fetched⟩
  · simp only [setAt_other here] at mem
    exact inv.gets_result g got mem

/-! ### The fetch_add of a getter -/

theorem wrapInt_of_lt {x : Int} (lower : -2 ^ 31 ≤ x) (upper : x < 2 ^ 31) : wrapInt x = x := by
  simp only [wrapInt]
  omega

/-- A fetch_add after put draws a negative ticket and leaves the holders alone. -/
theorem FutureInv.of_lateFetchAdd {s : FutureState φ δ T} {d : δ} {f : φ} (inv : FutureInv s)
    (pc : s.getter d = .get f .fetchAdd) (fetched : (s.put f).fetched = true)
    (few : (s.draws f).length + 1 < 2 ^ 31) :
    FutureInv
      { s with
        mNumSuspendedDeques :=
          setAt s.mNumSuspendedDeques f (wrapInt (s.mNumSuspendedDeques f + 1))
        getter := setAt s.getter d (.get f .assertReady)
        draws := setAt s.draws f
          (s.draws f ++ [⟨d, s.mNumSuspendedDeques f, (s.put f).fetched⟩]) } := by
  have count := inv.count_eq f
  rw [if_pos fetched] at count
  have negative : s.mNumSuspendedDeques f < 0 := by omega
  have moved : FutureInv { s with getter := setAt s.getter d (.get f .assertReady) } := by
    apply inv.of_getter
    · exact GetterPc.NoRole.sameRole (by simp [pc, GetterPc.NoRole]) trivial
    · intro g passed
      obtain rfl : f = g := by simpa [GetterPc.Passed] using passed
      exact fetched
    · simp [GetterPc.Failed]
  have holdersEq : ∀ g, FutureState.holders
      { s with
        mNumSuspendedDeques :=
          setAt s.mNumSuspendedDeques f (wrapInt (s.mNumSuspendedDeques f + 1))
        getter := setAt s.getter d (.get f .assertReady)
        draws := setAt s.draws f
          (s.draws f ++ [⟨d, s.mNumSuspendedDeques f, (s.put f).fetched⟩]) } g = s.holders g := by
    intro g
    by_cases here : g = f
    · subst here
      simp [FutureState.holders, fetched]
    · simp [FutureState.holders, setAt_other here]
  refine
    { moved with
      count_eq := ?_, ticket_sign := ?_, before_put := ?_
      numDeques_eq := fun g fetched => by rw [holdersEq]; exact inv.numDeques_eq g fetched
      holders_nodup := fun g => by rw [holdersEq]; exact inv.holders_nodup g
      linked_sub := fun g => by rw [holdersEq]; exact inv.linked_sub g
      remaining_eq := fun g fetched => by rw [holdersEq]; exact inv.remaining_eq g fetched
      before_iff := fun g x => by rw [holdersEq]; exact moved.before_iff g x }
  · intro g
    by_cases here : g = f
    · subst here
      simp only [setAt_self, List.length_append, List.length_singleton, if_pos fetched]
      rw [wrapInt_of_lt (by omega) (by omega)]
      push_cast
      omega
    · simpa only [setAt_other here] using inv.count_eq g
  · intro g draw mem
    by_cases here : g = f
    · subst here
      simp only [setAt_self, List.mem_append, List.mem_singleton] at mem
      rcases mem with old | rfl
      · exact inv.ticket_sign g draw old
      · simp [negative, fetched]
    · simp only [setAt_other here] at mem
      exact inv.ticket_sign g draw mem
  · intro g unfetched draw mem
    by_cases here : g = f
    · subst here
      exact absurd fetched (by simp [unfetched])
    · simp only [setAt_other here] at mem
      exact inv.before_put g unfetched draw mem

/-- A fetch_add before put makes the deque a holder that has yet to link itself. -/
theorem FutureInv.of_earlyFetchAdd {s : FutureState φ δ T} {d : δ} {f : φ} (inv : FutureInv s)
    (pc : s.getter d = .get f .fetchAdd) (unfetched : (s.put f).fetched = false)
    (few : (s.draws f).length + 1 < 2 ^ 31) :
    FutureInv
      { s with
        mNumSuspendedDeques :=
          setAt s.mNumSuspendedDeques f (wrapInt (s.mNumSuspendedDeques f + 1))
        getter := setAt s.getter d (.get f .resetLink)
        draws := setAt s.draws f
          (s.draws f ++ [⟨d, s.mNumSuspendedDeques f, (s.put f).fetched⟩]) } := by
  have count := inv.count_eq f
  rw [if_neg (by simp [unfetched])] at count
  have ticket : 0 ≤ s.mNumSuspendedDeques f := by omega
  have free : (s.getter d).NoRole := by simp [pc, GetterPc.NoRole]
  have notHolder : d ∉ s.holders f := by
    intro holder
    rcases inv.holder_cases holder with before | pending | visited
    · exact free.beforeLink f before
    · exact free.inList f (inv.inList_of_pending f d pending)
    · simp [inv.visited_nil unfetched] at visited
  have notLinked : d ∉ s.linked f := fun linked => notHolder (inv.linked_sub f linked)
  have holdersEq : ∀ g, FutureState.holders
      { s with
        mNumSuspendedDeques :=
          setAt s.mNumSuspendedDeques f (wrapInt (s.mNumSuspendedDeques f + 1))
        getter := setAt s.getter d (.get f .resetLink)
        draws := setAt s.draws f
          (s.draws f ++ [⟨d, s.mNumSuspendedDeques f, (s.put f).fetched⟩]) } g =
      if g = f then s.holders f ++ [d] else s.holders g := by
    intro g
    by_cases here : g = f
    · subst here
      simp [FutureState.holders, unfetched, ticket]
    · simp [FutureState.holders, setAt_other here, here]
  have flight : ∀ a b, (∃ x, b = .link x ∧
      (setAt s.getter d (.get f .resetLink) x).StoringTo a) ↔ s.inFlight a b := by
    intro a b
    refine exists_congr fun x => and_congr_right fun _ => ?_
    exact ⟨fun holds => (setAt_of (by simp [GetterPc.StoringTo]) holds).2,
      fun holds => setAt_keep (free.storingTo a) holds⟩
  refine
    { inv with
      count_eq := ?_, ticket_sign := ?_, before_put := ?_, numDeques_eq := ?_
      passed := fun g x passed =>
        inv.passed g x (setAt_of (by simp [GetterPc.Passed]) passed).2
      not_failed := fun x failed =>
        inv.not_failed x (setAt_of (by simp [GetterPc.Failed]) failed).2
      holders_nodup := ?_, linked_sub := ?_, remaining_eq := ?_, before_iff := ?_
      inList_of_pending := fun g x pending =>
        setAt_keep (free.inList g) (inv.inList_of_pending g x pending)
      stored_of_held := fun g x held =>
        ⟨setAt_keep (free.stored g) (inv.stored_of_held g x held).1, (inv.stored_of_held g x held).2⟩
      placed := fun g x waits => inv.placed g x (setAt_of (by simp [GetterPc.InList]) waits).2
      fresh := fun g x exchanging =>
        inv.fresh g x (setAt_of (by simp [GetterPc.Exchanging]) exchanging).2
      threaded := fun g active =>
        (inv.threaded g active).congr (fun _ _ => rfl) (fun a b _ => flight a b)
      stands_owns := fun g x stands h own => inv.stands_owns g x stands h
        (setAt_of (by simp [GetterPc.OwnsLink]) own).2 }
  · intro g
    by_cases here : g = f
    · subst here
      rw [if_neg (by simp [unfetched])]
      simp only [setAt_self, List.length_append, List.length_singleton]
      rw [wrapInt_of_lt (by omega) (by omega)]
      push_cast
      omega
    · simpa only [setAt_other here] using inv.count_eq g
  · intro g draw mem
    by_cases here : g = f
    · subst here
      simp only [setAt_self, List.mem_append, List.mem_singleton] at mem
      rcases mem with old | rfl
      · exact inv.ticket_sign g draw old
      · simp [unfetched, ticket]
    · simp only [setAt_other here] at mem
      exact inv.ticket_sign g draw mem
  · intro g before draw mem
    by_cases here : g = f
    · subst here
      simp only [setAt_self, List.mem_append, List.mem_singleton] at mem
      rcases mem with old | rfl
      · exact inv.before_put g before draw old
      · exact unfetched
    · simp only [setAt_other here] at mem
      exact inv.before_put g before draw mem
  · intro g fetched
    have here : g ≠ f := by
      rintro rfl
      simp [unfetched] at fetched
    rw [holdersEq, if_neg here]
    exact inv.numDeques_eq g fetched
  · intro g
    rw [holdersEq]
    split
    · exact (inv.holders_nodup f).append (List.nodup_singleton d) (by simpa using notHolder)
    · exact inv.holders_nodup g
  · intro g
    rw [holdersEq]
    split
    · rename_i here
      subst here
      exact fun x mem => List.mem_append_left _ (inv.linked_sub g mem)
    · exact inv.linked_sub g
  · intro g fetched
    have here : g ≠ f := by
      rintro rfl
      simp [unfetched] at fetched
    rw [holdersEq, if_neg here]
    exact inv.remaining_eq g fetched
  · intro g x
    rw [holdersEq]
    have before := inv.before_iff g x
    by_cases new : x = d
    · subst new
      by_cases here : g = f
      · subst here
        simp [GetterPc.BeforeLink, notLinked]
      · simp only [setAt_self, GetterPc.BeforeLink, if_neg here, Ne.symm here, false_iff]
        rw [← before]
        exact free.beforeLink g
    · simp only [setAt_other new]
      by_cases here : g = f
      · subst here
        simpa [new] using before
      · simpa only [if_neg here] using before

theorem FutureInv.of_getFetchAdd {s s' : FutureState φ δ T} {d : δ} (inv : FutureInv s)
    (few : ∀ f, (s'.draws f).length < 2 ^ 31)
    (taken : futureStep s (.getFetchAdd d) = some s') : FutureInv s' := by
  simp only [futureStep] at taken
  split at taken <;> simp at taken
  rename_i f pc
  subst taken
  have room : (s.draws f).length + 1 < 2 ^ 31 := by simpa using few f
  have count := inv.count_eq f
  cases fetched : (s.put f).fetched with
  | true =>
      rw [if_pos fetched] at count
      rw [if_neg (by omega), ← fetched]
      exact inv.of_lateFetchAdd pc fetched room
  | false =>
      rw [if_neg (by simp [fetched])] at count
      rw [if_pos (by omega), ← fetched]
      exact inv.of_earlyFetchAdd pc fetched room

/-! ### Linking -/

theorem FutureInv.of_getResetLink {s s' : FutureState φ δ T} {d : δ} (inv : FutureInv s)
    (agrees : ∀ f, ¬ (s.put f).StandsAt f d)
    (taken : futureStep s (.getResetLink d) = some s') : FutureInv s' := by
  simp only [futureStep] at taken
  split at taken <;> simp at taken
  rename_i f pc
  subst taken
  have notInList : ∀ g, ¬ (s.getter d).InList g := by simp [pc, GetterPc.InList]
  refine
    { inv with
      passed := fun g x passed =>
        inv.passed g x (setAt_of (by simp [GetterPc.Passed]) passed).2
      not_failed := fun x failed =>
        inv.not_failed x (setAt_of (by simp [GetterPc.Failed]) failed).2
      before_iff := ?_
      inList_of_pending := fun g x pending =>
        setAt_keep (notInList g) (inv.inList_of_pending g x pending)
      stored_of_held := fun g x held =>
        ⟨setAt_keep (by simp [pc, GetterPc.Stored]) (inv.stored_of_held g x held).1,
          (inv.stored_of_held g x held).2⟩
      placed := fun g x waits => inv.placed g x (setAt_of (by simp [GetterPc.InList]) waits).2
      fresh := ?_, threaded := ?_, stands_owns := ?_ }
  · intro g x
    refine Iff.trans ?_ (inv.before_iff g x)
    by_cases here : x = d
    · simp [here, pc, GetterPc.BeforeLink]
    · simp only [setAt_other here]
  · intro g x exchanging
    by_cases here : x = d
    · simp [here]
    · simp only [setAt_other here] at exchanging
      exact (setAt_other (by simpa using here) _ _).trans (inv.fresh g x exchanging)
  · intro g active
    refine (inv.threaded g active).congr ?_ ?_
    · intro node mem
      apply setAt_other
      rintro rfl
      rcases inv.link_mem_nodes active mem with stands | waits
      · exact agrees g stands
      · exact notInList g waits
    · intro a b _
      refine exists_congr fun x => and_congr_right fun _ => ?_
      exact ⟨fun storing => (setAt_of (by simp [GetterPc.StoringTo]) storing).2,
        fun storing => setAt_keep (by simp [pc, GetterPc.StoringTo]) storing⟩
  · intro g x stands h own
    by_cases here : x = d
    · exact absurd stands (here ▸ agrees g)
    · simp only [setAt_other here] at own
      exact inv.stands_owns g x stands h own

theorem FutureInv.of_getExchangeTail {s s' : FutureState φ δ T} {d : δ} (inv : FutureInv s)
    (taken : futureStep s (.getExchangeTail d) = some s') : FutureInv s' := by
  simp only [futureStep] at taken
  split at taken <;> simp at taken
  rename_i f pc
  subst taken
  obtain ⟨holder, unlinked⟩ := (inv.before_iff f d).1 (by simp [pc, GetterPc.BeforeLink])
  have unvisited : d ∉ s.visited f := fun visited => unlinked (inv.visited_linked visited)
  have active := inv.active_of_unvisited holder unvisited
  have notInList : ∀ g, ¬ (s.getter d).InList g := by simp [pc, GetterPc.InList]
  have pendingEq : FutureState.pending
      { s with
        tail := setAt s.tail f (.link d)
        getter := setAt s.getter d (.get f (.storeNext (s.tail f)))
        linked := setAt s.linked f (s.linked f ++ [d]) } = setAt s.pending f (s.pending f ++ [d]) := by
    funext g
    by_cases here : g = f
    · subst here
      simp [FutureState.pending, List.drop_append_of_le_length (inv.visited_initial g).length_le]
    · simp [FutureState.pending, setAt_other here]
  -- The link of `d` is a target of no list yet.
  have notTarget : ∀ g, .link d ∉ (s.nodes g).tail := by
    intro g mem
    simp only [FutureState.nodes, List.tail_cons, List.mem_map, LinkNode.link.injEq,
      exists_eq_right] at mem
    exact notInList g (inv.inList_of_pending g d mem)
  have flight : ∀ g a, ∀ b ∈ (s.nodes g).tail,
      (∃ x, b = .link x ∧ (setAt s.getter d (.get f (.storeNext (s.tail f))) x).StoringTo a) ↔
        s.inFlight a b := by
    intro g a b mem
    refine exists_congr fun x => and_congr_right fun link => ?_
    subst link
    rw [setAt_other]
    rintro rfl
    exact notTarget g mem
  refine
    { inv with
      passed := fun g x passed =>
        inv.passed g x (setAt_of (by simp [GetterPc.Passed]) passed).2
      not_failed := fun x failed =>
        inv.not_failed x (setAt_of (by simp [GetterPc.Failed]) failed).2
      linked_nodup := ?_, linked_sub := ?_, visited_initial := ?_, before_iff := ?_
      inList_of_pending := ?_
      stored_of_held := fun g x held =>
        ⟨setAt_keep (by simp [pc, GetterPc.Stored]) (inv.stored_of_held g x held).1,
          (inv.stored_of_held g x held).2⟩
      placed := ?_
      fresh := fun g x exchanging =>
        inv.fresh g x (setAt_of (by simp [GetterPc.Exchanging]) exchanging).2
      threaded := ?_, tail_eq := ?_, stands_owns := ?_ }
  · intro g
    by_cases here : g = f
    · subst here
      simpa using (inv.linked_nodup g).append (List.nodup_singleton d) (by simpa using unlinked)
    · simpa only [setAt_other here] using inv.linked_nodup g
  · intro g
    change setAt s.linked f (s.linked f ++ [d]) g ⊆ s.holders g
    by_cases here : g = f
    · subst here
      simpa [List.append_subset] using ⟨inv.linked_sub g, holder⟩
    · simpa only [setAt_other here] using inv.linked_sub g
  · intro g
    by_cases here : g = f
    · subst here
      simpa using (inv.visited_initial g).trans (List.prefix_append _ _)
    · simpa only [setAt_other here] using inv.visited_initial g
  · intro g x
    have before := inv.before_iff g x
    change (setAt s.getter d (.get f (.storeNext (s.tail f))) x).BeforeLink g ↔
      x ∈ s.holders g ∧ x ∉ setAt s.linked f (s.linked f ++ [d]) g
    by_cases new : x = d
    · subst new
      by_cases here : g = f
      · subst here
        simp [GetterPc.BeforeLink]
      · simpa [GetterPc.BeforeLink, setAt_other here, pc, Ne.symm here] using before
    · simp only [setAt_other new]
      by_cases here : g = f
      · subst here
        simpa [new] using before
      · simpa only [setAt_other here] using before
  · intro g x pending
    rw [pendingEq] at pending
    by_cases here : g = f
    · subst here
      simp only [setAt_self, List.mem_append, List.mem_singleton] at pending
      rcases pending with old | rfl
      · exact setAt_keep (notInList g) (inv.inList_of_pending g x old)
      · simp [GetterPc.InList]
    · simp only [setAt_other here] at pending
      exact setAt_keep (notInList g) (inv.inList_of_pending g x pending)
  · intro g x waits
    rw [pendingEq]
    by_cases new : x = d
    · subst new
      obtain rfl : f = g := by simpa [GetterPc.InList] using waits
      simp
    · simp only [setAt_other new] at waits
      rcases inv.placed g x waits with pending | held
      · by_cases here : g = f
        · subst here
          simp [pending]
        · simp only [setAt_other here]
          exact .inl pending
      · exact .inr held
  · intro g activeG
    simp only [FutureState.nodes, pendingEq]
    by_cases here : g = f
    · subst here
      simp only [setAt_self, List.map_append, List.map_cons, List.map_nil, ← List.cons_append]
      refine ((inv.threaded g activeG).congr (fun _ _ => rfl) (flight g)).exchange
        (inv.tail_eq g activeG) ⟨d, rfl, by simp [GetterPc.StoringTo]⟩ ?_
      exact inv.fresh g d (by simp [pc, GetterPc.Exchanging])
    · simp only [setAt_other here]
      exact (inv.threaded g activeG).congr (fun _ _ => rfl) (flight g)
  · intro g activeG
    simp only [FutureState.nodes, pendingEq]
    by_cases here : g = f
    · subst here
      simp only [setAt_self, List.map_append, List.map_cons, List.map_nil]
      rw [← List.cons_append]
      exact List.getLast?_concat
    · simp only [setAt_other here]
      exact inv.tail_eq g activeG
  · intro g x stands h own
    by_cases here : x = d
    · subst here
      obtain rfl : f = h := by simpa [GetterPc.OwnsLink] using own
      exact inv.stands_owns g x stands f (by simp [pc, GetterPc.OwnsLink])
    · simp only [setAt_other here] at own
      exact inv.stands_owns g x stands h own

theorem FutureInv.of_getStoreNext {s s' : FutureState φ δ T} {d : δ} (inv : FutureInv s)
    (taken : futureStep s (.getStoreNext d) = some s') : FutureInv s' := by
  simp only [futureStep] at taken
  split at taken <;> simp at taken
  rename_i f oldTail pc
  subst taken
  have waits : (s.getter d).InList f := by simp [pc, GetterPc.InList]
  have pending : d ∈ s.pending f := by
    refine (inv.placed f d waits).resolve_right fun held => ?_
    simpa [pc, GetterPc.Stored] using (inv.stored_of_held f d held).1
  have active := inv.active_of_unvisited (inv.linked_sub f (inv.pending_linked pending))
    (inv.pending_unvisited pending)
  have flight : s.inFlight oldTail (.link d) := ⟨d, rfl, by simp [pc, GetterPc.StoringTo]⟩
  have unique : ∀ node, s.inFlight node (.link d) → node = oldTail := by
    rintro node ⟨x, link, storing⟩
    obtain rfl := LinkNode.link.inj link
    exact (by simpa [pc, GetterPc.StoringTo] using storing : oldTail = node).symm
  have target : .link d ∈ (s.nodes f).tail := List.mem_map_of_mem pending
  have source := (inv.threaded f active).mem_of_inFlight flight unique target
  have inList : ∀ g x, (setAt s.getter d (.get f .suspend) x).InList g ↔ (s.getter x).InList g := by
    intro g x
    by_cases here : x = d
    · simp [here, pc, GetterPc.InList]
    · rw [setAt_other here]
  have flight' : ∀ a x, x ≠ d →
      ((∃ y, (LinkNode.link x : LinkNode φ δ) = .link y ∧
        (setAt s.getter d (.get f .suspend) y).StoringTo a) ↔ s.inFlight a (.link x)) := by
    intro a x other
    refine exists_congr fun y => and_congr_right fun link => ?_
    obtain rfl := LinkNode.link.inj link
    rw [setAt_other other]
  refine
    { inv with
      passed := fun g x passed =>
        inv.passed g x (setAt_of (by simp [GetterPc.Passed]) passed).2
      not_failed := fun x failed =>
        inv.not_failed x (setAt_of (by simp [GetterPc.Failed]) failed).2
      before_iff := ?_
      inList_of_pending := fun g x pending => (inList g x).2 (inv.inList_of_pending g x pending)
      stored_of_held := fun g x held =>
        ⟨setAt_keep (by simp [pc, GetterPc.Stored]) (inv.stored_of_held g x held).1,
          (inv.stored_of_held g x held).2⟩
      placed := fun g x waits => inv.placed g x ((inList g x).1 waits)
      fresh := ?_, threaded := ?_, stands_owns := ?_ }
  · intro g x
    refine Iff.trans ?_ (inv.before_iff g x)
    by_cases here : x = d
    · simp [here, pc, GetterPc.BeforeLink]
    · simp only [setAt_other here]
  · intro g x exchanging
    have exchangingOld : (s.getter x).Exchanging g :=
      (setAt_of (by simp [GetterPc.Exchanging]) exchanging).2
    refine (setAt_other ?_ _ _).trans (inv.fresh g x exchangingOld)
    -- The node that gets its successor is in the list of `f`; an exchanging deque is in no list.
    rintro rfl
    obtain ⟨stage, at_⟩ : ∃ stage, s.getter x = .get g stage ∧ stage = .exchangeTail := by
      unfold GetterPc.Exchanging at exchangingOld
      split at exchangingOld <;> simp_all
    obtain ⟨at_, rfl⟩ := at_
    rcases inv.link_mem_nodes active source with stands | waits
    · obtain rfl := inv.stands_owns f x stands g (by simp [at_, GetterPc.OwnsLink])
      have unlinked := ((inv.before_iff g x).1 (by simp [at_, GetterPc.BeforeLink])).2
      exact unlinked (inv.visited_linked (inv.stands_visited g x stands))
    · simp [at_, GetterPc.InList] at waits
  · intro g activeG
    by_cases here : g = f
    · subst here
      refine (inv.threaded g activeG).store (inv.nodes_nodup activeG) flight unique target
        (setAt_self _ _ _) (fun node other => setAt_other other _ _) ?_ ?_
      · rintro node ⟨x, link, storing⟩
        obtain rfl := LinkNode.link.inj link
        simp [GetterPc.StoringTo] at storing
      · intro a b other
        refine exists_congr fun x => and_congr_right fun link => ?_
        subst link
        have off : x ≠ d := by simpa using other
        simp only [setAt_other off]
    · refine (inv.threaded g activeG).congr ?_ ?_
      · intro node mem
        apply setAt_other
        rintro rfl
        exact here (inv.nodes_disjoint activeG active mem source)
      · intro a b mem
        obtain ⟨x, pendingG, rfl⟩ := List.mem_map.1 mem
        apply flight'
        rintro rfl
        exact here ((inv.inList_of_pending g x pendingG).unique waits)
  · intro g x stands h own
    apply inv.stands_owns g x stands h
    by_cases here : x = d
    · simpa [here, pc, GetterPc.OwnsLink] using own
    · simpa only [setAt_other here] using own

end CilkL
