/-
Module: CilkL.Proofs.FrameLifetime
Layer: Proofs
Purpose: No full frame is destroyed twice, and each has empty reducer maps and exceptions then. When the
  return from the initial frame has finished, the frames that are still allocated are those whose workers are
  in `do_return_from_spawn`, which destroys them, and those of the deques that were destroyed without them.
Imports: CilkL.Library.Lifetime, CilkL.Proofs.FrameSlots
Trusted boundary: none (fully proved)
Main exports: ReturnOk, LifetimeInv, LifetimeInv.of_step, full_frames_destroyed_once
Open obligations: none
-/
import CilkL.Library.Lifetime
import CilkL.Proofs.FrameSlots

namespace CilkL

open SpawnTree

/-! ### Steps of the workers -/

/-- A step of the tree. -/
theorem activeWorkersStep_tree {w w' : ActiveWorkers} {label : TreeLabel}
    (taken : activeWorkersStep w (.tree label) = some w') :
    w.failures = [] ∧ w.Ready label ∧
      ∃ t', spawnTreeStep w.tree label = some t' ∧ w' = w.afterTree label t' := by
  simp only [activeWorkersStep, Option.ite_none_left_eq_some, Option.ite_none_right_eq_some,
    Option.map_eq_some_iff, ne_eq, not_not] at taken
  obtain ⟨quiet, ready, t', treeTaken, rfl⟩ := taken
  exact ⟨quiet, ready, t', treeTaken, rfl⟩

/-- A step of the tree changes no more than the deques and the thieves. -/
theorem afterTree_fields (w : ActiveWorkers) (label : TreeLabel) (t' : SpawnTree) :
    (w.afterTree label t').tree = t' ∧ (w.afterTree label t').exit = w.exit ∧
      (w.afterTree label t').failures = w.failures := by
  cases label <;> exact ⟨rfl, rfl, rfl⟩

theorem afterTree_deque {w : ActiveWorkers} {label : TreeLabel} (notSteal : ∀ f, label ≠ .steal f)
    (t' : SpawnTree) : (w.afterTree label t').deque = w.deque := by
  cases label <;> first | rfl | exact absurd rfl (notSteal _)

/-- The other steps keep the tree, and the last phase of the return. -/
theorem activeWorkersStep_other {w w' : ActiveWorkers} {label : ActiveLabel}
    (notTree : ∀ move, label ≠ .tree move) (taken : activeWorkersStep w label = some w') :
    w.failures = [] ∧ w'.tree = w.tree ∧
      (∀ suspended, w.exit = .returned suspended → w'.exit = .returned suspended) ∧
      (w.exit = .before → w'.exit ≠ .before → (w.tree.frame 0).unsynched = false) := by
  cases label with
  | tree move => exact absurd rfl (notTree move)
  | increment f | suspend f | makeResumable f | jump f | resumeSuspended f | handOff f g
  | handOffDecrement g | decrement f | push f | returnFromInitial worker | fastDecrement | suspendReturn
  | decrementInitial | resumeInitial =>
    simp only [activeWorkersStep] at taken
    grind -linarith [ActiveWorkers.setDeque, ActiveWorkers.check, ActiveWorkers.terminate,
      ActiveWorkers.pushExitFrame, ActiveWorkers.increment, ActiveWorkers.decrement]

/-- After a step that ends the program a strand is at work on its deque. -/
theorem ActiveInv.failures_of_step {w w' : ActiveWorkers} {label : ActiveLabel} (inv' : ActiveInv w')
    (taken : activeWorkersStep w label = some w') :
    w'.failures = [] ∨ w'.exit = w.exit ∧
      ∃ f callers, w.deque f = .active ∧ (w.tree.frame f).strand = .running callers := by
  have noExitFrame : .exitFrame ∉ w'.failures := fun failed => ActiveAssert.noConfusion (inv'.failures _ failed)
  have noCounter : .activeWorkers ∉ w'.failures :=
    fun failed => ActiveAssert.noConfusion (inv'.failures _ failed)
  cases label with
  | tree move =>
    obtain ⟨quiet, -, t', -, rfl⟩ := activeWorkersStep_tree taken
    exact .inl ((afterTree_fields w move t').2.2.trans quiet)
  | increment f | suspend f | makeResumable f | jump f | resumeSuspended f | handOff f g
  | handOffDecrement g | decrement f | push f | returnFromInitial worker | fastDecrement | suspendReturn
  | decrementInitial | resumeInitial =>
    simp only [activeWorkersStep] at taken
    grind -linarith [ActiveWorkers.setDeque, ActiveWorkers.check, ActiveWorkers.terminate,
      ActiveWorkers.pushExitFrame, ActiveWorkers.increment, ActiveWorkers.decrement]

/-- A hand-off destroys an empty deque, or fails to. -/
theorem handOff_cases {w w' : ActiveWorkers} {f g : Nat}
    (taken : activeWorkersStep w (.handOff f g) = some w') :
    w.deque f = .active ∧ w.deque g = .suspended ∧
      ((w.tree.frame f).strand = .running [] ∧ w.StolenFuture f ∧
          w' = (w.setDeque f .gone).setDeque g .handed ∨
        w' = w.check false .dequeDestroy) := by
  simp only [activeWorkersStep] at taken
  split at taken
  · simp at taken
  split at taken
  case isFalse => simp at taken
  rename_i deques
  refine ⟨deques.1, deques.2, ?_⟩
  split at taken
  · rename_i running
    split at taken
    · rename_i future
      cases taken
      exact .inl ⟨running, future, rfl⟩
    · simp at taken
  · cases taken
    exact .inr rfl
  · simp at taken

/-- A strand at the bottom of its deque gives the deque up only in a hand-off, or to return from the
    initial frame. -/
theorem gone_of_step {w w' : ActiveWorkers} {label : ActiveLabel} (notTree : ∀ move, label ≠ .tree move)
    (taken : activeWorkersStep w label = some w') (quiet : w'.failures = []) {f : Nat}
    (strand : (w.tree.frame f).strand = .running []) (notRoot : f ≠ 0) :
    w'.deque f = .gone ↔ w.deque f = .gone ∨ ∃ g, label = .handOff f g := by
  cases label with
  | tree move => exact absurd rfl (notTree move)
  | handOff f' g =>
    have isHere : (∃ g', ActiveLabel.handOff f' g = .handOff f g') ↔ f' = f := by simp
    rw [isHere]
    obtain ⟨active, suspended, ⟨-, -, rfl⟩ | rfl⟩ := handOff_cases taken
    · have distinct : f' ≠ g := by
        rintro rfl
        simp [active] at suspended
      simp only [ActiveWorkers.setDeque]
      by_cases resumed : f = g
      · subst resumed
        simp [suspended, distinct]
      · rw [if_neg resumed]
        by_cases here : f = f'
        · simp [here]
        · simp [here, Ne.symm here]
    · simp [ActiveWorkers.check] at quiet
  | increment f | suspend f | makeResumable f | jump f | resumeSuspended f
  | handOffDecrement g | decrement f | push f | returnFromInitial worker | fastDecrement | suspendReturn
  | decrementInitial | resumeInitial =>
    simp only [activeWorkersStep] at taken
    grind -linarith [ActiveWorkers.setDeque, ActiveWorkers.check, ActiveWorkers.terminate,
      ActiveWorkers.pushExitFrame, ActiveWorkers.increment, ActiveWorkers.decrement]

/-! ### The frames that end -/

/-- The frame that leaves the tree in a step. -/
def endingFrame (t : SpawnTree) : TreeLabel → Option Nat
  | .decjoinSelf f => if (t.frame f).parent.isSome then none else some f
  | .decjoinParent f | .finalizeCall f => some f
  | _ => none

/-- It was on its way out. -/
theorem TreeInv.ending {t t' : SpawnTree} {label : TreeLabel} (inv : TreeInv t)
    (taken : spawnTreeStep t label = some t') {f : Nat} (ends : endingFrame t label = some f) :
    ((t.frame f).strand = .unlinked ∨ (t.frame f).strand = .leaving ∨ (t.frame f).strand = .disowned) ∧
      (t'.frame f).strand = .dead := by
  cases label with
  | decjoinSelf c =>
    simp only [endingFrame, Option.ite_none_left_eq_some, Option.some.injEq, Bool.not_eq_true,
      Option.isSome_eq_false_iff, Option.isNone_iff_eq_none] at ends
    obtain ⟨orphan, rfl⟩ := ends
    simp only [spawnTreeStep, Option.ite_none_right_eq_some, Option.some.injEq] at taken
    obtain ⟨unlinked, rfl⟩ := taken
    have parent : ((t.decjoin c).frame c).parent = none := by
      rw [SpawnTree.decjoin, modify_frame_self, check_frame]
      exact orphan
    refine ⟨.inl unlinked, ?_⟩
    simp [parent]
  | decjoinParent c =>
    obtain rfl : c = f := Option.some.inj ends
    cases strand : (t.frame c).strand <;> cases parent : (t.frame c).parent <;>
      simp [spawnTreeStep, strand, parent] at taken
    rename_i p
    subst taken
    have distinct : c ≠ p := by
      rintro rfl
      exact Arrival.not_leaving (.inr ⟨strand, parent⟩) inv.toJoinInv strand
    refine ⟨.inr (.inl rfl), ?_⟩
    rw [provablyGoodSteal_other distinct, destroyFullFrame, modify_frame_self]
  | finalizeCall c =>
    obtain rfl : c = f := Option.some.inj ends
    cases strand : (t.frame c).strand <;> cases parent : (t.frame c).parent <;>
      simp [spawnTreeStep, strand, parent] at taken
    rw [← taken]
    exact ⟨.inr (.inr rfl), (inv.toJoinInv.finalizeCall_strands strand parent).2.2.2.1⟩
  | invoke | leave | steal | resume | sync | doSync | spawnReturn | callReturn => simp [endingFrame] at ends

/-- The other frames stay in the tree, and a frame that is leaving has a parent. -/
theorem TreeInv.alive_of_step {t t' : SpawnTree} {label : TreeLabel} (inv : TreeInv t)
    (notSteal : ∀ f, label ≠ .steal f) (taken : spawnTreeStep t label = some t') {g : Nat}
    (stays : endingFrame t label ≠ some g) :
    ((t'.frame g).strand ≠ .dead ↔ (t.frame g).strand ≠ .dead) ∧
      ((t'.frame g).strand = .leaving → (t.frame g).strand = .leaving ∨ (t.frame g).parent.isSome) := by
  rcases (inv.moves notSteal taken).2 g with same | move
  · rw [same]
    exact ⟨Iff.rfl, .inl⟩
  · generalize strandEq : (t'.frame g).strand = strand' at move
    cases move with
    | leaveParent strand left =>
      have hasParent : (t.frame g).parent.isSome := by
        by_contra orphan
        exact stays (by simp [endingFrame, orphan])
      refine ⟨?_, fun _ => .inr hasParent⟩
      simp only [spawnTreeStep, Option.ite_none_right_eq_some, Option.some.injEq] at taken
      obtain ⟨unlinked, rfl⟩ := taken
      have parent : ((t.decjoin g).frame g).parent = (t.frame g).parent := by
        rw [SpawnTree.decjoin, modify_frame_self, check_frame]
      rw [modify_frame_self] at strandEq
      simp only [parent, hasParent, if_true] at strandEq
      simp [← strandEq, unlinked]
    | destroy => exact absurd rfl stays
    | splice => exact absurd rfl stays
    | cross strand => rcases strand with strand | strand <;> simp [strand]
    | invoke strand | leave strand | resume strand | sync strand | stall strand | spawnReturn strand
      | callReturn strand | goOn strand => simp [strand]

/-! ### The workers -/

/-- What the destructions rely on. -/
structure ReturnOk (w : ActiveWorkers) : Prop where
  active : ActiveInv w
  stack : StackInv w.tree
  callsLast : CallsLast w.tree
  leaving : ∀ f, (w.tree.frame f).strand = .leaving → (w.tree.frame f).parent.isSome
  synched : w.exit ≠ .before → (w.tree.frame 0).unsynched = false
  quiet : ∀ suspended, w.exit = .returned suspended → w.failures = []

theorem ReturnOk.of_initial : ReturnOk .initial where
  active := .of_initial
  stack := .of_initial
  callsLast p c member := by
    have leaf : (SpawnTree.initial.frame p).children = [] := by
      simp only [SpawnTree.initial]
      split <;> rfl
    simp [ActiveWorkers.initial, leaf] at member
  leaving f isLeaving := by
    have notLeaving : (SpawnTree.initial.frame f).strand ≠ .leaving := by
      simp only [SpawnTree.initial]
      split <;> simp [TreeFrame.absent]
    exact absurd isLeaving notLeaving
  synched late := absurd rfl late
  quiet _ _ := rfl

/-- After the return from the initial frame no strand is on `active_workers`. -/
theorem ActiveInv.not_live {w : ActiveWorkers} (inv : ActiveInv w) {suspended : Bool}
    (returned : w.exit = .returned suspended) {f : Nat} (live : (w.tree.frame f).strand.Live) :
    w.deque f = .gone := by
  by_contra counts
  have made : f < w.tree.frames := inv.tree.made (by rintro dead; simp [dead, FrameStrand.Live] at live)
  have weight := (one_le_weight live counts).trans (weight_le_total w.deque made)
  have count := inv.count
  rw [inv.zero_of_returned returned] at count
  omega

/-- The initial frame stays synched while it returns. -/
theorem ReturnOk.synched_of_tree {w w' : ActiveWorkers} (ok : ReturnOk w) {label : TreeLabel}
    (taken : activeWorkersStep w (.tree label) = some w') (late : w'.exit ≠ .before) :
    (w'.tree.frame 0).unsynched = false := by
  obtain ⟨-, ready, t', treeTaken, rfl⟩ := activeWorkersStep_tree taken
  obtain ⟨tree, exit, -⟩ := afterTree_fields w label t'
  rw [exit] at late
  rw [tree]
  have synched := ok.synched late
  by_cases steal : ∃ f, label = .steal f
  · obtain ⟨f, rfl⟩ := steal
    -- The return took the initial frame to the bottom of its deque, so no thief can be at work on it.
    have notRoot : 0 ≠ f := by
      rintro rfl
      obtain ⟨callers, running, head⟩ := (ok.active.deques.frames 0).stealing ready
      obtain ⟨notGone, notExiting⟩ := (ok.active.deques.frames 0).moving_of_head running head
      have phase := ok.active.phase
      unfold PhaseOk at phase
      cases exitEq : w.exit with
      | before => exact late exitEq
      | returned suspended =>
        cases suspended <;> rw [exitEq] at phase <;> exact notGone phase.1
      | fast | suspending | exposed | suspended =>
        rw [exitEq] at phase
        first | exact notExiting phase.1 | exact notGone phase.1
    have root := (ok.active.deques.frames 0).root rfl
    rw [(steal_cases treeTaken).2.2 0 (ok.active.tree.made root.2.2.2) notRoot]
    exact synched
  · have notSteal : ∀ f, label ≠ .steal f := fun f isSteal => steal ⟨f, isSteal⟩
    rcases (ok.active.tree.region_of_step notSteal treeTaken 0).2 with ⟨same, -⟩ | ⟨-, crossed⟩
    · exact same.trans synched
    · exact crossed.unsynched

theorem ReturnOk.of_step {w w' : ActiveWorkers} {label : ActiveLabel} (ok : ReturnOk w)
    (taken : activeWorkersStep w label = some w') : ReturnOk w' := by
  have active' := ok.active.of_step taken
  have quiet' : ∀ suspended, w'.exit = .returned suspended → w'.failures = [] := by
    intro suspended returned
    rcases active'.failures_of_step taken with quiet | ⟨exit, f, callers, active, running⟩
    · exact quiet
    · have gone := ok.active.not_live (exit ▸ returned) (f := f) (by rw [running]; trivial)
      simp [active] at gone
  by_cases isTree : ∃ move, label = .tree move
  · obtain ⟨move, rfl⟩ := isTree
    have synched' := ok.synched_of_tree taken
    obtain ⟨-, ready, t', treeTaken, rfl⟩ := activeWorkersStep_tree taken
    obtain ⟨tree, exit, -⟩ := afterTree_fields w move t'
    refine ⟨active', ?_, ?_, ?_, synched', quiet'⟩
    · rw [tree]
      exact ok.stack.of_step ok.active.tree treeTaken
    · rw [tree]
      exact ok.active.tree.callsLast_of_step ok.stack ok.callsLast treeTaken
    · rw [tree]
      intro f isLeaving
      by_cases steal : ∃ f, move = .steal f
      · obtain ⟨victim, rfl⟩ := steal
        obtain ⟨before, parent⟩ := (ok.active.tree.grown_of_steal ok.stack treeTaken).leaving f isLeaving
        rw [parent]
        exact ok.leaving f before
      · have notSteal : ∀ f, move ≠ .steal f := fun f isSteal => steal ⟨f, isSteal⟩
        rw [(ok.active.tree.moves notSteal treeTaken).1.parent]
        have stays : endingFrame w.tree move ≠ some f := by
          intro ends
          simp [(ok.active.tree.ending treeTaken ends).2] at isLeaving
        exact ((ok.active.tree.alive_of_step notSteal treeTaken stays).2 isLeaving).elim (ok.leaving f) id
  · have notTree : ∀ move, label ≠ .tree move := fun move isMove => isTree ⟨move, isMove⟩
    obtain ⟨-, tree, -, begins⟩ := activeWorkersStep_other notTree taken
    refine ⟨active', tree ▸ ok.stack, tree ▸ ok.callsLast, tree ▸ ok.leaving, fun late => ?_, quiet'⟩
    rw [tree]
    by_cases early : w.exit = .before
    · exact begins early late
    · exact ok.synched early

/-! ### The functions of the frames -/

namespace FrameLifetime

@[simp] theorem modifySlots_self (s : FrameLifetime) (f : Nat) (change : FrameSlots → FrameSlots) :
    (s.modifySlots f change).slots f = change (s.slots f) := by
  simp [modifySlots]

theorem modifySlots_other {f g : Nat} (other : g ≠ f) (s : FrameLifetime) (change : FrameSlots → FrameSlots) :
    (s.modifySlots f change).slots g = s.slots g := by
  simp [modifySlots, other]

/-- An assertion that holds leaves no trace. -/
theorem check_holds {s : FrameLifetime} {holds : Bool} (true : holds = true) (assertion : SlotAssert) :
    s.check holds assertion = s := by
  simp [check, true]

/-- Only the pointers differ. -/
def OnlySlots (s s' : FrameLifetime) : Prop := s' = { s with slots := s'.slots }

theorem onlySlots_provablyGoodStealExceptions (s : FrameLifetime) (f : Nat) :
    OnlySlots s (s.provablyGoodStealExceptions f) := by
  unfold provablyGoodStealExceptions
  split <;> rfl

/-- Only the last arrival moves the exceptions. -/
theorem provablyGoodStealExceptions_slots {s : FrameLifetime} {f : Nat}
    (positive : 0 < (s.workers.tree.frame f).joinCounter) (g : Nat) :
    (s.provablyGoodStealExceptions f).slots g =
      if g = f ∧ (s.workers.tree.frame f).joinCounter = 1 then
        { s.slots g with
          pendingException := (s.slots g).childPendingException || (s.slots g).pendingException
          childPendingException := false }
      else s.slots g := by
  have last : (s.workers.tree.frame f).joinCounter - 1 = 0 ↔ (s.workers.tree.frame f).joinCounter = 1 := by
    omega
  unfold provablyGoodStealExceptions
  by_cases isLast : (s.workers.tree.frame f).joinCounter = 1
  · rw [if_pos (last.2 isLast)]
    by_cases here : g = f
    · subst here
      rw [modifySlots_self, if_pos ⟨rfl, isLast⟩]
    · rw [modifySlots_other here, if_neg fun both => here both.1]
  · rw [if_neg fun zero => isLast (last.1 zero), if_neg fun both => isLast both.2]

/-- A frame without maps and exceptions is destroyed. -/
theorem destroyFullFrame_eq {s : FrameLifetime} {f : Nat} (null : s.slots f = .null) :
    s.destroyFullFrame f = { s with destroyed := s.destroyed ++ [f] } := by
  rw [destroyFullFrame, check_holds (by simpa using null)]

/-- A called frame with nothing but an exception is destroyed. -/
theorem finalizeChildForCall_eq {s : FrameLifetime} {p c : Nat} (distinct : p ≠ c)
    (child : { s.slots c with pendingException := false } = .null)
    (parent : (s.slots p).pendingException = false) :
    ∃ slots, s.finalizeChildForCall p c = { s with slots := slots, destroyed := s.destroyed ++ [c] } ∧
      slots c = .null ∧ slots p = { s.slots p with pendingException := (s.slots c).pendingException } ∧
      ∀ g, g ≠ c → g ≠ p → slots g = s.slots g := by
  have fields := child
  simp only [FrameSlots.null, FrameSlots.mk.injEq] at fields
  obtain ⟨childrenMap, rightMap, -, -, rightException⟩ := fields
  have cleared : ∀ u : FrameLifetime, u.slots c = s.slots c →
      (u.modifySlots c fun slots => { slots with pendingException := false }).slots c = .null := by
    intro u same
    rw [modifySlots_self, same, child]
  have maps : s.check (!(s.slots c).childrenReducerMap && !(s.slots c).rightReducerMap) .finalizeChild = s :=
    check_holds (by simp [childrenMap, rightMap]) _
  have exceptions : s.check (!(s.slots c).rightPendingException && !(s.slots p).pendingException)
      .spliceExceptions = s := check_holds (by simp [rightException, parent]) _
  unfold finalizeChildForCall
  dsimp only
  rw [maps, exceptions, destroyFullFrame_eq (cleared _ (modifySlots_other distinct.symm s _))]
  refine ⟨_, rfl, cleared _ (modifySlots_other distinct.symm s _), ?_, fun g notChild notParent => ?_⟩
  · rw [modifySlots_other distinct, modifySlots_self]
  · rw [modifySlots_other notChild, modifySlots_other notParent]

end FrameLifetime

/-! ### Reductions -/

theorem siblingToLeft_split {siblings : List Nat} {child left : Nat}
    (found : siblingToLeft siblings child = some left) :
    ∃ before after, siblings = before ++ left :: child :: after := by
  induction siblings with
  | nil => simp [siblingToLeft] at found
  | cons first rest ih =>
    cases rest with
    | nil => simp [siblingToLeft] at found
    | cons second rest =>
      simp only [siblingToLeft] at found
      split at found
      · rename_i isChild
        subst isChild
        obtain rfl := Option.some.inj found
        exact ⟨[], rest, rfl⟩
      · obtain ⟨before, after, split⟩ := ih found
        exact ⟨first :: before, after, by rw [split, List.cons_append]⟩

/-- A map and an exception may have been left at a place, and others were cleared. -/
structure LeftMerged (left : Option LeftPtrs) (slots slots' : Nat → FrameSlots) : Prop where
  childrenReducerMap : ∀ g, (slots' g).childrenReducerMap = true →
    (slots g).childrenReducerMap = true ∨ left = some (.children g)
  childPendingException : ∀ g, (slots' g).childPendingException = true →
    (slots g).childPendingException = true ∨ left = some (.children g)
  pendingException : ∀ g, (slots' g).pendingException = true → (slots g).pendingException = true
  right : ∀ g, (slots' g).rightReducerMap = true ∨ (slots' g).rightPendingException = true →
    ((slots g).rightReducerMap = true ∨ (slots g).rightPendingException = true) ∨ left = some (.right g)

/-- The frame to the left is unsynched, or a spawned sibling. -/
def LeftOk (t : SpawnTree) : LeftPtrs → Prop
  | .right c => (t.frame c).isCallChild = false ∧ (t.frame c).parent.isSome ∧ (t.frame c).strand.Linked
  | .children p => (t.frame p).unsynched = true

theorem SlotOk.merged {t : SpawnTree} {slots slots' : Nat → FrameSlots} {left : Option LeftPtrs}
    (ok : ∀ g, SlotOk (t.frame g) (slots g)) (merged : LeftMerged left slots slots')
    (leftOk : ∀ place, left = some place → LeftOk t place) (g : Nat) : SlotOk (t.frame g) (slots' g) where
  childrenReducerMap isSet := (merged.childrenReducerMap g isSet).elim (ok g).childrenReducerMap
    fun here => .inl (leftOk _ here)
  childPendingException isSet := (merged.childPendingException g isSet).elim (ok g).childPendingException
    (leftOk _)
  pendingException isSet := (ok g).pendingException (merged.pendingException g isSet)
  right isSet := (merged.right g isSet).elim (ok g).right (leftOk _)

/-- The last child of a running frame is spawned. -/
theorem ReturnOk.leftOk_sync {s : FrameLifetime} (ok : ReturnOk s.workers) {f : Nat}
    (running : (s.workers.tree.frame f).strand = .running [])
    (unsynched : (s.workers.tree.frame f).unsynched = true) :
    LeftOk s.workers.tree (s.leftPtrsForSync f) := by
  unfold FrameLifetime.leftPtrsForSync
  cases last : (s.workers.tree.frame f).children.getLast? with
  | none => exact unsynched
  | some c =>
    have member := List.mem_of_getLast? last
    obtain ⟨pending, linked⟩ := ((ok.stack.frames f).children c).1 member
    refine ⟨ok.stack.spawned_of_held ok.active.tree.toJoinInv (by simp [running]) member, ?_, linked⟩
    rw [(mem_pendingChildren.1 pending).2.1]
    rfl

/-- What is to the left of a child is no called child. -/
theorem ReturnOk.leftOk_spawnReturn {s : FrameLifetime} (ok : ReturnOk s.workers) {f p : Nat}
    (alive : (s.workers.tree.frame f).strand ≠ .dead) (isSpawn : (s.workers.tree.frame f).isCallChild = false)
    (parent : (s.workers.tree.frame f).parent = some p) :
    LeftOk s.workers.tree (s.leftPtrsForSpawnReturn f p) := by
  have join := ok.active.tree.toJoinInv
  unfold FrameLifetime.leftPtrsForSpawnReturn
  cases found : siblingToLeft (s.workers.tree.frame p).children f with
  | none =>
    exact join.unsynched_of_spawned (mem_pendingChildren.2 ⟨join.made alive, parent, alive⟩) isSpawn
  | some c =>
    obtain ⟨before, after, split⟩ := siblingToLeft_split found
    have nodup := (ok.stack.frames p).nodup
    have member : c ∈ (s.workers.tree.frame p).children := by simp [split]
    obtain ⟨pending, linked⟩ := ((ok.stack.frames p).children c).1 member
    refine ⟨?_, ?_, linked⟩
    · -- A called child would be the last one.
      by_contra isCall
      have last := ok.callsLast p c member (by simpa using isCall)
      rw [split] at last nodup
      have later : c ∈ f :: after := by
        rw [List.getLast?_append_cons, List.getLast?_cons_cons] at last
        exact List.mem_of_getLast? last
      exact (List.nodup_cons.1 (List.nodup_append.1 nodup).2.1).1 later
    · rw [(mem_pendingChildren.1 pending).2.1]
      rfl

namespace FrameLifetime

/-- A running frame has no exception. -/
theorem saveException_eq {s : FrameLifetime} {f : Nat} (clear : (s.slots f).pendingException = false)
    (exception : Bool) :
    s.saveException f exception = s.modifySlots f fun slots =>
      { slots with pendingException := exception } := by
  rw [saveException, check_holds (by simp [clear])]

theorem reductionsForSync_merged {s : FrameLifetime} {f : Nat} (clear : (s.slots f).pendingException = false)
    (map exception : Bool) :
    OnlySlots s ((s.saveException f exception).reductionsForSync f map) ∧
      LeftMerged (some (s.leftPtrsForSync f)) s.slots
        ((s.saveException f exception).reductionsForSync f map).slots := by
  rw [saveException_eq clear]
  unfold reductionsForSync
  have sameLeft :
      (s.modifySlots f fun slots => { slots with pendingException := exception }).leftPtrsForSync f =
        s.leftPtrsForSync f :=
    rfl
  rw [sameLeft]
  refine ⟨by cases s.leftPtrsForSync f <;> rfl, ?_⟩
  cases s.leftPtrsForSync f <;> constructor <;> intro g <;> simp only [deposit, modifySlots] <;> grind

theorem reductionsForSpawnReturn_merged {s : FrameLifetime} {f : Nat}
    (clear : (s.slots f).pendingException = false)
    (orphan : (s.workers.tree.frame f).parent = none →
      ¬((s.slots f).rightReducerMap = true ∨ (s.slots f).rightPendingException = true))
    (map exception : Bool) :
    OnlySlots s ((s.saveException f exception).reductionsForSpawnReturn f map) ∧
      LeftMerged ((s.workers.tree.frame f).parent.map (s.leftPtrsForSpawnReturn f)) s.slots
        ((s.saveException f exception).reductionsForSpawnReturn f map).slots ∧
      ¬((((s.saveException f exception).reductionsForSpawnReturn f map).slots f).rightReducerMap = true ∨
        (((s.saveException f exception).reductionsForSpawnReturn f map).slots
          f).rightPendingException = true) := by
  rw [saveException_eq clear]
  unfold reductionsForSpawnReturn
  have sameTree :
      (s.modifySlots f fun slots => { slots with pendingException := exception }).workers = s.workers :=
    rfl
  rw [sameTree]
  cases parent : (s.workers.tree.frame f).parent with
  | none =>
    refine ⟨rfl, ?_, by simpa using orphan parent⟩
    constructor <;> intro g <;> simp only [modifySlots] <;> grind
  | some p =>
    have sameLeft : (s.modifySlots f fun slots =>
        { slots with pendingException := exception }).leftPtrsForSpawnReturn f p =
          s.leftPtrsForSpawnReturn f p := rfl
    dsimp only
    rw [sameLeft]
    refine ⟨by cases s.leftPtrsForSpawnReturn f p <;> rfl, ?_, by simp⟩
    simp only [Option.map_some]
    cases s.leftPtrsForSpawnReturn f p <;> constructor <;> intro g <;>
      simp only [deposit, modifySlots] <;> grind

end FrameLifetime

/-! ### The invariant -/

/-- A frame that has not been retired or destroyed. -/
def FrameLifetime.Alive (s : FrameLifetime) (f : Nat) : Prop :=
  (s.workers.tree.frame f).strand ≠ .dead ∧ ¬(f = 0 ∧ s.returned = true)

/-- What holds in every reachable state. -/
structure LifetimeInv (s : FrameLifetime) : Prop where
  workers : ReturnOk s.workers
  slots : ∀ f, SlotOk (s.workers.tree.frame f) (s.slots f)
  failures : s.failures = []
  lives : Lifetimes (· < s.workers.tree.frames) s.Alive s.leaving s.destroyed
  returned : s.returned = true → 0 ∈ s.destroyed ∧ ∃ suspended, s.workers.exit = .returned suspended
  dropped : s.workers.failures = [] → ∀ f, f ∈ s.dropped ↔
    (s.workers.deque f = .gone ∧ (s.workers.tree.frame f).strand = .running []) ∧ f ≠ 0

/-- The pointers change. -/
theorem LifetimeInv.of_slots {s s' : FrameLifetime} (inv : LifetimeInv s) (only : s.OnlySlots s')
    (slots : ∀ f, SlotOk (s.workers.tree.frame f) (s'.slots f)) : LifetimeInv s' := by
  rw [only]
  exact ⟨inv.workers, slots, inv.failures, inv.lives, inv.returned, inv.dropped⟩

/-! ### Steps of the tree -/

/-- A strand that gave up its deque at the bottom of it stays there. -/
theorem ActiveInv.gone_of_tree {w : ActiveWorkers} {label : TreeLabel} {t' : SpawnTree} (inv : ActiveInv w)
    (ready : w.Ready label) (taken : spawnTreeStep w.tree label = some t') (f : Nat) :
    (w.afterTree label t').deque f = .gone ∧ ((w.afterTree label t').tree.frame f).strand = .running [] ↔
      w.deque f = .gone ∧ (w.tree.frame f).strand = .running [] := by
  rw [(afterTree_fields w label t').1]
  by_cases steal : ∃ v, label = .steal v
  · obtain ⟨v, rfl⟩ := steal
    obtain ⟨callers, running, head⟩ := (inv.deques.frames v).stealing ready
    have moving := (inv.deques.frames v).moving_of_head running head
    have fresh : ∀ g, w.tree.frames ≤ g → w.deque g ≠ .gone := by
      intro g unmade
      simp [inv.deques.fresh g unmade]
    obtain ⟨-, ⟨older, frames⟩, others⟩ := steal_cases taken
    simp only [ActiveWorkers.afterTree, ActiveWorkers.setDeque]
    by_cases isChild : f = t'.frames - 1
    · have unmade := fresh f (by omega)
      rw [if_pos isChild]
      exact iff_of_false (fun gone => moving.1 gone.1) (fun gone => unmade gone.1)
    rw [if_neg isChild]
    by_cases isVictim : f = v
    · subst isVictim
      rw [if_pos rfl]
      exact iff_of_false (fun gone => DequeState.noConfusion gone.1) (fun gone => moving.1 gone.1)
    rw [if_neg isVictim]
    by_cases made : f < w.tree.frames
    · rw [others f made isVictim]
    · have notGone := fresh f (by omega)
      exact iff_of_false (fun gone => notGone gone.1) (fun gone => notGone gone.1)
  · have notSteal : ∀ v, label ≠ .steal v := fun v isSteal => steal ⟨v, isSteal⟩
    rw [afterTree_deque notSteal]
    refine and_congr_right fun gone => ?_
    have where_ := ((inv.deques.frames f).gone gone).2
    rcases (inv.tree.moves notSteal taken).2 f with same | move
    · rw [same]
    · generalize (t'.frame f).strand = strand' at move
      -- A strand of user code moves on an active deque.
      have active : w.deque f ≠ .active := by simp [gone]
      cases move with
      | invoke | sync | spawnReturn | callReturn => exact absurd ready active
      | leave => exact absurd ready.1 active
      | cross strand => rcases strand with strand | strand <;> simp [strand] at where_
      | leaveParent strand left => rcases left with rfl | rfl <;> simp [strand]
      | destroy strand => simp [strand]
      | resume strand | stall strand | splice strand | goOn strand => simp [strand] at where_

namespace FrameLifetime

/-- A step in which no frame leaves the tree changes the pointers only. -/
theorem along_only {s : FrameLifetime} {label : TreeLabel} (stays : endingFrame s.workers.tree label = none) :
    s.OnlySlots (s.along (.tree label)) := by
  cases label with
  | doSync f => exact onlySlots_provablyGoodStealExceptions s f
  | decjoinSelf f =>
    cases parent : (s.workers.tree.frame f).parent with
    | none => simp [endingFrame, parent] at stays
    | some p =>
      simp only [along, parent]
      rfl
  | decjoinParent | finalizeCall => simp [endingFrame] at stays
  | invoke | leave | steal | resume | sync | spawnReturn | callReturn => rfl

end FrameLifetime

/-- A called frame has nothing but an exception, and its parent has no exception. -/
theorem LifetimeInv.finalizeCall {s : FrameLifetime} (inv : LifetimeInv s) {c p : Nat}
    (strand : (s.workers.tree.frame c).strand = .disowned) (parent : (s.workers.tree.frame c).parent = some p) :
    ∃ slots, s.along (.tree (.finalizeCall c)) = { s with slots := slots, destroyed := s.destroyed ++ [c] } ∧
      slots c = .null ∧ slots p = { s.slots p with pendingException := (s.slots c).pendingException } ∧
      ∀ g, g ≠ c → g ≠ p → slots g = s.slots g := by
  have join := inv.workers.active.tree.toJoinInv
  obtain ⟨-, distinct, waits, -⟩ := join.finalizeCall_strands strand parent
  have synched := (inv.workers.stack.frames c).leaf (by rw [strand]; trivial)
  have isCall := (join.frames c).callKind strand
  have child := inv.slots c
  -- Without its exception the frame is as if it were dead.
  have cleared : SlotOk { s.workers.tree.frame c with strand := .dead, parent := none }
      { s.slots c with pendingException := false } :=
    { childrenReducerMap := fun isSet =>
      .inl ((child.childrenReducerMap isSet).resolve_right (by simp [strand]))
      childPendingException := child.childPendingException
      pendingException := fun isSet => Bool.noConfusion isSet
      right := fun isSet => by simpa [isCall] using (child.right isSet).1 }
  have quiet : (s.slots p).pendingException = false := by
    by_contra isSet
    simpa [waits] using (inv.slots p).pendingException (by simpa using isSet)
  obtain ⟨slots, destroyed, slotsEq⟩ := FrameLifetime.finalizeChildForCall_eq distinct
    (cleared.null synched ⟨by simp, by simp⟩ (.inl rfl)) quiet
  refine ⟨slots, ?_, slotsEq⟩
  simp only [FrameLifetime.along, parent]
  exact destroyed

/-- The frame at a sync, or the parent of a child that returns, still has a counter. -/
theorem TreeInv.arrival_of_step {t t' : SpawnTree} {label : TreeLabel} (inv : TreeInv t)
    (taken : spawnTreeStep t label = some t') :
    (∀ f, label = .doSync f → 0 < (t.frame f).joinCounter) ∧
      ∀ c, label = .decjoinParent c → ∃ p, (t.frame c).parent = some p ∧ 0 < (t.frame p).joinCounter := by
  refine ⟨?_, ?_⟩
  · rintro f rfl
    exact (inv.doSync_step taken).arrival.positive inv.toJoinInv
  · rintro c rfl
    cases parent : (t.frame c).parent with
    | none => simp [spawnTreeStep, parent] at taken
    | some p => exact ⟨p, rfl, (inv.decjoinParent_step parent taken).arrival.positive inv.toJoinInv⟩

/-- The called frame that returns, and its parent. -/
theorem finalizeCall_cases {t t' : SpawnTree} {c : Nat} (taken : spawnTreeStep t (.finalizeCall c) = some t') :
    ∃ p, (t.frame c).strand = .disowned ∧ (t.frame c).parent = some p ∧
      t' = ((t.spliceCallChild p c).destroyFullFrame c).unconditionalSteal p := by
  cases strand : (t.frame c).strand <;> cases parent : (t.frame c).parent <;>
    simp [spawnTreeStep, strand, parent] at taken
  exact ⟨_, rfl, rfl, taken.symm⟩

/-- The pointers of the frames that a step does not turn. -/
theorem LifetimeInv.slots_same {s : FrameLifetime} (inv : LifetimeInv s) {label : TreeLabel} {t' : SpawnTree}
    (taken : spawnTreeStep s.workers.tree label = some t') {g : Nat}
    (stays : ¬Turns s.workers.tree label g) : (s.along (.tree label)).slots g = s.slots g := by
  obtain ⟨ownArrival, childArrival⟩ := inv.workers.active.tree.arrival_of_step taken
  cases label with
  | resume f =>
    have other : g ≠ f := by
      rintro rfl
      exact stays (.resume g)
    rw [FrameLifetime.along, FrameLifetime.setupForExecution, FrameLifetime.modifySlots_other other]
  | doSync f =>
    refine (FrameLifetime.provablyGoodStealExceptions_slots (ownArrival f rfl) g).trans (if_neg ?_)
    rintro ⟨rfl, last⟩
    exact stays (.cross ⟨.inl rfl, last⟩)
  | decjoinSelf f => cases parent : (s.workers.tree.frame f).parent <;> simp only [FrameLifetime.along, parent]
  | decjoinParent c =>
    obtain ⟨p, parent, positive⟩ := childArrival c rfl
    simp only [FrameLifetime.along, parent]
    refine (FrameLifetime.provablyGoodStealExceptions_slots positive g).trans (if_neg ?_)
    rintro ⟨rfl, last⟩
    exact stays (.cross ⟨.inr ⟨c, rfl, parent⟩, last⟩)
  | finalizeCall c =>
    obtain ⟨p, strand, parent, -⟩ := finalizeCall_cases taken
    obtain ⟨slots, along, -, -, others⟩ := inv.finalizeCall strand parent
    rw [along]
    refine others g ?_ ?_
    · rintro rfl
      exact stays (.splice g)
    · rintro rfl
      exact stays (.goOn parent)
  | invoke | leave | steal | sync | spawnReturn | callReturn => rfl

/-- The pointers of the frames that it turns. -/
theorem LifetimeInv.slots_turned {s : FrameLifetime} (inv : LifetimeInv s) {label : TreeLabel} {t' : SpawnTree}
    (taken : spawnTreeStep s.workers.tree label = some t')
    (right : ∀ f, label = .spawnReturn f →
      ¬((s.slots f).rightReducerMap = true ∨ (s.slots f).rightPendingException = true)) {g : Nat}
    (turns : Turns s.workers.tree label g) : SlotOk (t'.frame g) ((s.along (.tree label)).slots g) := by
  have tree := inv.workers.active.tree
  obtain ⟨ownArrival, childArrival⟩ := tree.arrival_of_step taken
  cases turns with
  | resume =>
    cases strand : (s.workers.tree.frame g).strand <;> simp [spawnTreeStep, strand] at taken
    rw [← taken, modify_frame_self]
    simp only [FrameLifetime.along, FrameLifetime.setupForExecution, FrameLifetime.modifySlots_self]
    exact (inv.slots g).resumed
  | spawnReturn =>
    have region := (tree.region_of_step (by simp) taken g).2
    have unsynched := (region.resolve_right fun crosses => by simp [Crosses] at crosses).1
    simp only [spawnTreeStep, Option.ite_none_right_eq_some] at taken
    exact (inv.slots g).returned taken.1.1 unsynched (right g rfl)
  | splice =>
    obtain ⟨p, strand, parent, -⟩ := finalizeCall_cases taken
    obtain ⟨slots, along, child, -⟩ := inv.finalizeCall strand parent
    rw [along]
    dsimp only
    rw [child]
    exact .of_null _
  | @goOn c p parent =>
    have region := (tree.region_of_step (by simp) taken g).2
    have unsynched := (region.resolve_right fun crosses => by simp [Crosses] at crosses).1
    obtain ⟨p, strand, parent', rfl⟩ := finalizeCall_cases taken
    obtain rfl : p = g := Option.some.inj (parent'.symm.trans parent)
    obtain ⟨kinds, -, -, -, next, -⟩ := tree.toJoinInv.finalizeCall_strands strand parent
    obtain ⟨slots, along, -, parentSlots, -⟩ := inv.finalizeCall strand parent
    rw [along]
    dsimp only
    rw [parentSlots]
    exact (inv.slots p).goesOn next unsynched (kinds.isCallChild p) (kinds.parent p) _
  | cross crosses =>
    have notSteal : ∀ f, label ≠ .steal f := by
      rintro f rfl
      simp [Crosses] at crosses
    have crossed := ((tree.region_of_step notSteal taken g).2.resolve_left fun stays => stays.2 crosses).2
    have moved : (s.along (.tree label)).slots g =
        { s.slots g with
          pendingException := (s.slots g).childPendingException || (s.slots g).pendingException
          childPendingException := false } := by
      obtain ⟨rfl | ⟨c, rfl, parent⟩, last⟩ := crosses
      · exact (FrameLifetime.provablyGoodStealExceptions_slots (ownArrival g rfl) g).trans (if_pos ⟨rfl, last⟩)
      · simp only [FrameLifetime.along, parent]
        refine (FrameLifetime.provablyGoodStealExceptions_slots ?_ g).trans (if_pos ⟨rfl, last⟩)
        omega
    rw [moved]
    exact (inv.slots g).crossed crossed _

/-- Which frames are alive after a step that is not a steal. -/
theorem LifetimeInv.alive_along {s : FrameLifetime} (inv : LifetimeInv s) {label : TreeLabel} {t' : SpawnTree}
    (notSteal : ∀ f, label ≠ .steal f) (taken : spawnTreeStep s.workers.tree label = some t') (g : Nat) :
    (t'.frame g).strand ≠ .dead ∧ ¬(g = 0 ∧ s.returned = true) ↔
      s.Alive g ∧ endingFrame s.workers.tree label ≠ some g := by
  have tree := inv.workers.active.tree
  by_cases ends : endingFrame s.workers.tree label = some g
  · have dead := (tree.ending taken ends).2
    exact iff_of_false (fun alive => alive.1 dead) (fun alive => alive.2 ends)
  · rw [(tree.alive_of_step notSteal taken ends).1]
    exact ⟨fun alive => ⟨alive, ends⟩, fun alive => alive.1⟩

/-- The frame that leaves the tree was alive. -/
theorem LifetimeInv.alive_ending {s : FrameLifetime} (inv : LifetimeInv s) {label : TreeLabel} {t' : SpawnTree}
    (taken : spawnTreeStep s.workers.tree label = some t') {f : Nat}
    (ends : endingFrame s.workers.tree label = some f) : s.Alive f := by
  have strand := (inv.workers.active.tree.ending taken ends).1
  have root := (inv.workers.active.deques.frames f).root
  refine ⟨?_, ?_⟩
  · rcases strand with strand | strand | strand <;> simp [strand]
  · rintro ⟨isRoot, -⟩
    have notEnding := root isRoot
    rcases strand with strand | strand | strand <;> simp [strand] at notEnding

/-- The frame leaves the tree, and its worker is about to destroy it or destroys it at once. -/
theorem LifetimeInv.along_ending {s : FrameLifetime} (inv : LifetimeInv s) {label : TreeLabel} {t' : SpawnTree}
    (taken : spawnTreeStep s.workers.tree label = some t') {f : Nat}
    (ends : endingFrame s.workers.tree label = some f) :
    ∃ slots, s.along (.tree label) = { s with slots := slots, leaving := f :: s.leaving } ∨
      s.along (.tree label) = { s with slots := slots, destroyed := s.destroyed ++ [f] } := by
  cases label with
  | decjoinSelf c =>
    simp only [endingFrame, Option.ite_none_left_eq_some, Option.some.injEq, Bool.not_eq_true,
      Option.isSome_eq_false_iff, Option.isNone_iff_eq_none] at ends
    obtain ⟨orphan, rfl⟩ := ends
    refine ⟨s.slots, .inl ?_⟩
    simp only [FrameLifetime.along, orphan]
  | decjoinParent c =>
    obtain rfl : c = f := Option.some.inj ends
    obtain ⟨p, parent, -⟩ := (inv.workers.active.tree.arrival_of_step taken).2 c rfl
    have only : s.OnlySlots (s.provablyGoodStealExceptions p) :=
      FrameLifetime.onlySlots_provablyGoodStealExceptions s p
    refine ⟨(s.provablyGoodStealExceptions p).slots, .inl ?_⟩
    simp only [FrameLifetime.along, parent]
    rw [only]
  | finalizeCall c =>
    obtain rfl : c = f := Option.some.inj ends
    obtain ⟨p, strand, parent, -⟩ := finalizeCall_cases taken
    obtain ⟨slots, along, -⟩ := inv.finalizeCall strand parent
    exact ⟨slots, .inr along⟩
  | invoke | leave | steal | resume | sync | doSync | spawnReturn | callReturn => simp [endingFrame] at ends

/-- A step of the tree changes the pointers and retires or destroys one frame at most. -/
structure AlongTree (s s' : FrameLifetime) (t' : SpawnTree) : Prop where
  dropped : s'.dropped = s.dropped
  returned : s'.returned = s.returned
  failures : s'.failures = s.failures
  destroyed : ∀ f ∈ s.destroyed, f ∈ s'.destroyed
  lives : Lifetimes (· < t'.frames) (fun g => (t'.frame g).strand ≠ .dead ∧ ¬(g = 0 ∧ s.returned = true))
    s'.leaving s'.destroyed

theorem LifetimeInv.along_tree {s : FrameLifetime} (inv : LifetimeInv s) {label : TreeLabel} {t' : SpawnTree}
    (taken : spawnTreeStep s.workers.tree label = some t') : AlongTree s (s.along (.tree label)) t' := by
  have tree := inv.workers.active.tree
  by_cases steal : ∃ f, label = .steal f
  · obtain ⟨f, rfl⟩ := steal
    have grown := tree.grown_of_steal inv.workers.stack taken
    have root := tree.made ((inv.workers.active.deques.frames 0).root rfl).2.2.2
    refine ⟨rfl, rfl, rfl, fun _ => id,
      inv.lives.make (fun g made => Nat.lt_of_lt_of_le made grown.more) fun g => ?_⟩
    rw [grown.alive g]
    constructor
    · rintro ⟨alive | new, notReturned⟩
      · exact .inl ⟨alive, notReturned⟩
      · exact .inr new
    · rintro (alive | new)
      · exact ⟨.inl alive.1, alive.2⟩
      · exact ⟨.inr new, fun isRoot => new.2 (isRoot.1 ▸ root)⟩
  · have notSteal : ∀ f, label ≠ .steal f := fun f isSteal => steal ⟨f, isSteal⟩
    have alive := inv.alive_along notSteal taken
    have sameMade : ∀ g, g < t'.frames ↔ g < s.workers.tree.frames := fun g => by
      rw [(tree.moves notSteal taken).1.frames]
    have lives := inv.lives.congr sameMade fun _ => Iff.rfl
    cases ends : endingFrame s.workers.tree label with
    | none =>
      rw [FrameLifetime.along_only ends]
      refine ⟨rfl, rfl, rfl, fun _ => id, lives.congr (fun _ => Iff.rfl) fun g => ?_⟩
      rw [alive, ends]
      simp
    | some f =>
      have others : ∀ g, (t'.frame g).strand ≠ .dead ∧ ¬(g = 0 ∧ s.returned = true) ↔ s.Alive g ∧ g ≠ f := by
        intro g
        rw [alive, ends, ne_eq, ne_eq, Option.some.injEq, eq_comm]
      obtain ⟨slots, retired | released⟩ := inv.along_ending taken ends
      · rw [retired]
        exact ⟨rfl, rfl, rfl, fun _ => id, lives.retire (inv.alive_ending taken ends) others⟩
      · rw [released]
        exact ⟨rfl, rfl, rfl, fun _ before => List.mem_append_left _ before,
          lives.releaseAlive (inv.alive_ending taken ends) others⟩

/-- A step of the tree, by a strand that has merged its maps and exceptions when it returns. -/
theorem LifetimeInv.of_tree {s : FrameLifetime} {w' : ActiveWorkers} {label : TreeLabel} (inv : LifetimeInv s)
    (taken : activeWorkersStep s.workers (.tree label) = some w')
    (right : ∀ f, label = .spawnReturn f →
      ¬((s.slots f).rightReducerMap = true ∨ (s.slots f).rightPendingException = true)) :
    LifetimeInv { s.along (.tree label) with workers := w' } := by
  have workers' := inv.workers.of_step taken
  obtain ⟨quiet, ready, t', treeTaken, rfl⟩ := activeWorkersStep_tree taken
  obtain ⟨treeEq, exit, failures⟩ := afterTree_fields s.workers label t'
  have along := inv.along_tree treeTaken
  refine ⟨workers', fun f => ?_, along.failures.trans inv.failures, ?_, fun returned => ?_, fun _ f => ?_⟩
  · dsimp only
    rw [treeEq]
    exact inv.workers.active.tree.slots_of_step inv.workers.stack inv.slots treeTaken
      (fun g stays => inv.slots_same treeTaken stays) (fun g turns => inv.slots_turned treeTaken right turns) f
  · unfold FrameLifetime.Alive
    dsimp only
    rw [treeEq, along.returned]
    exact along.lives
  · dsimp only at returned ⊢
    rw [along.returned] at returned
    rw [exit]
    exact (inv.returned returned).imp (along.destroyed 0) id
  · dsimp only
    rw [along.dropped, inv.dropped quiet f, inv.workers.active.gone_of_tree ready treeTaken f]

/-! ### The other steps -/

/-- Steps of the workers outside the tree. -/
theorem LifetimeInv.of_other {s : FrameLifetime} {w' : ActiveWorkers} {label : ActiveLabel}
    (inv : LifetimeInv s) (notTree : ∀ move, label ≠ .tree move)
    (taken : activeWorkersStep s.workers label = some w') :
      LifetimeInv { s.along label with workers := w' } := by
  obtain ⟨quiet, tree, returned', -⟩ := activeWorkersStep_other notTree taken
  -- Only the pointers of the initial frame, and the frames of destroyed deques, change.
  have along : (s.along label).leaving = s.leaving ∧ (s.along label).destroyed = s.destroyed ∧
      (s.along label).returned = s.returned ∧ (s.along label).failures = s.failures := by
    cases label with
    | tree move => exact absurd rfl (notTree move)
    | _ => exact ⟨rfl, rfl, rfl, rfl⟩
  obtain ⟨leaving, destroyed, returned, failures⟩ := along
  have slots : ∀ f, SlotOk (s.workers.tree.frame f) ((s.along label).slots f) := by
    intro f
    cases label with
    | tree move => exact absurd rfl (notTree move)
    | resumeInitial =>
      rw [FrameLifetime.along, FrameLifetime.setupForExecution]
      by_cases isRoot : f = 0
      · subst isRoot
        rw [FrameLifetime.modifySlots_self]
        exact (inv.slots 0).less Bool.and_elim_left id (fun isSet => Bool.noConfusion isSet) id
      · rw [FrameLifetime.modifySlots_other isRoot]
        exact inv.slots f
    | _ => exact inv.slots f
  have dropped : ∀ f, f ∈ (s.along label).dropped ↔ f ∈ s.dropped ∨ ∃ g, label = .handOff f g := by
    intro f
    cases label with
    | tree move => exact absurd rfl (notTree move)
    | handOff f' g =>
      simp only [FrameLifetime.along, List.mem_cons, ActiveLabel.handOff.injEq]
      constructor
      · rintro (rfl | before)
        · exact .inr ⟨g, rfl, rfl⟩
        · exact .inl before
      · rintro (before | ⟨-, rfl, -⟩)
        · exact .inr before
        · exact .inl rfl
    | _ => simp [FrameLifetime.along, FrameLifetime.setupForExecution, FrameLifetime.modifySlots]
  refine ⟨inv.workers.of_step taken, fun f => ?_, failures.trans inv.failures, ?_, fun isReturned => ?_,
    fun quiet' f => ?_⟩
  · dsimp only
    rw [tree]
    exact slots f
  · unfold FrameLifetime.Alive
    dsimp only
    rw [tree, returned, leaving, destroyed]
    exact inv.lives
  · dsimp only at isReturned ⊢
    rw [returned] at isReturned
    obtain ⟨initial, suspended, exit⟩ := inv.returned isReturned
    exact ⟨destroyed ▸ initial, suspended, returned' suspended exit⟩
  · dsimp only at quiet' ⊢
    rw [dropped, inv.dropped quiet f, tree]
    constructor
    · rintro (⟨⟨gone, strand⟩, notRoot⟩ | ⟨g, rfl⟩)
      · exact ⟨⟨(gone_of_step notTree taken quiet' strand notRoot).2 (.inl gone), strand⟩, notRoot⟩
      · obtain ⟨active, suspended, ⟨strand, future, -⟩ | failed⟩ := handOff_cases taken
        · have notRoot := future.2.2.2
          exact ⟨⟨(gone_of_step notTree taken quiet' strand notRoot).2 (.inr ⟨g, rfl⟩), strand⟩, notRoot⟩
        · simp [failed, ActiveWorkers.check] at quiet'
    · rintro ⟨⟨gone, strand⟩, notRoot⟩
      exact ((gone_of_step notTree taken quiet' strand notRoot).1 gone).imp
        (fun before => ⟨⟨before, strand⟩, notRoot⟩) id

theorem moveWorkers_eq {s s' : FrameLifetime} {label : ActiveLabel} (taken : s.moveWorkers label = some s') :
    ∃ w', activeWorkersStep s.workers label = some w' ∧ s' = { s.along label with workers := w' } := by
  unfold FrameLifetime.moveWorkers at taken
  split at taken
  · rename_i w' workersTaken
    exact ⟨w', workersTaken, (Option.some.inj taken).symm⟩
  · simp at taken

/-- A strand of user code has no exception in its frame. -/
theorem LifetimeInv.clear {s : FrameLifetime} (inv : LifetimeInv s) {f : Nat}
    (running : (s.workers.tree.frame f).strand = .running []) : (s.slots f).pendingException = false := by
  by_contra isSet
  simpa [running] using (inv.slots f).pendingException (by simpa using isSet)

/-- `__cilkrts_c_sync`. -/
theorem LifetimeInv.of_sync {s s' : FrameLifetime} (inv : LifetimeInv s) {f : Nat} {map exception : Bool}
    (taken : ((s.saveException f exception).reductionsForSync f map).moveWorkers (.tree (.sync f)) = some s') :
    LifetimeInv s' := by
  obtain ⟨w', workersTaken, rfl⟩ := moveWorkers_eq taken
  -- The step needs a frame at a sync, in whatever way its maps were merged.
  have sameWorkers : ((s.saveException f exception).reductionsForSync f map).workers = s.workers := by
    unfold FrameLifetime.saveException FrameLifetime.check FrameLifetime.reductionsForSync
    split <;> cases FrameLifetime.leftPtrsForSync _ f <;> rfl
  rw [sameWorkers] at workersTaken
  obtain ⟨-, -, t', treeTaken, -⟩ := activeWorkersStep_tree workersTaken
  simp only [spawnTreeStep, Option.ite_none_right_eq_some] at treeTaken
  obtain ⟨⟨running, unsynched⟩, -⟩ := treeTaken
  obtain ⟨only, merged⟩ := FrameLifetime.reductionsForSync_merged (inv.clear running) map exception
  refine (inv.of_slots only (SlotOk.merged inv.slots merged ?_)).of_tree (sameWorkers ▸ workersTaken) (by simp)
  intro place isLeft
  rw [← Option.some.inj isLeft]
  exact inv.workers.leftOk_sync running unsynched

/-- A spawned function returns to a stolen parent. -/
theorem LifetimeInv.of_spawnReturn {s s' : FrameLifetime} (inv : LifetimeInv s) {f : Nat} {map exception : Bool}
    (taken : ((s.saveException f exception).reductionsForSpawnReturn f map).moveWorkers
      (.tree (.spawnReturn f)) = some s') : LifetimeInv s' := by
  obtain ⟨w', workersTaken, rfl⟩ := moveWorkers_eq taken
  have sameWorkers : ((s.saveException f exception).reductionsForSpawnReturn f map).workers = s.workers := by
    unfold FrameLifetime.saveException FrameLifetime.check FrameLifetime.reductionsForSpawnReturn
    split <;> split <;> first | rfl | (cases FrameLifetime.leftPtrsForSpawnReturn _ f _ <;> rfl)
  rw [sameWorkers] at workersTaken
  obtain ⟨-, -, t', treeTaken, -⟩ := activeWorkersStep_tree workersTaken
  simp only [spawnTreeStep, Option.ite_none_right_eq_some] at treeTaken
  obtain ⟨⟨running, -, isSpawn, -⟩, -⟩ := treeTaken
  have orphan : (s.workers.tree.frame f).parent = none →
      ¬((s.slots f).rightReducerMap = true ∨ (s.slots f).rightPendingException = true) := by
    intro none isSet
    simpa [none] using ((inv.slots f).right isSet).2.1
  obtain ⟨only, merged, right⟩ :=
    FrameLifetime.reductionsForSpawnReturn_merged (inv.clear running) orphan map exception
  refine (inv.of_slots only (SlotOk.merged inv.slots merged ?_)).of_tree (sameWorkers ▸ workersTaken) ?_
  · intro place isLeft
    obtain ⟨p, parent, rfl⟩ := Option.map_eq_some_iff.1 isLeft
    exact inv.workers.leftOk_spawnReturn (by simp [running]) isSpawn parent
  · intro g isReturn
    obtain rfl := TreeLabel.spawnReturn.inj isReturn
    exact right

/-- `__cilkrts_return`: the frame keeps its exception until its parent takes it. -/
theorem LifetimeInv.of_callReturn {s s' : FrameLifetime} (inv : LifetimeInv s) {f : Nat} {exception : Bool}
    (taken : (s.saveException f exception).moveWorkers (.tree (.callReturn f)) = some s') : LifetimeInv s' := by
  obtain ⟨w', workersTaken, rfl⟩ := moveWorkers_eq taken
  have sameWorkers : (s.saveException f exception).workers = s.workers := by
    unfold FrameLifetime.saveException FrameLifetime.check
    split <;> rfl
  rw [sameWorkers] at workersTaken
  have moved := inv.of_tree workersTaken (by simp)
  obtain ⟨-, -, t', treeTaken, treeEq⟩ := activeWorkersStep_tree workersTaken
  simp only [spawnTreeStep, Option.ite_none_right_eq_some, Option.some.injEq] at treeTaken
  obtain ⟨⟨running, -, -⟩, isTree⟩ := treeTaken
  have disowned : (w'.tree.frame f).strand = .disowned := by
    rw [treeEq, (afterTree_fields s.workers (.callReturn f) t').1, ← isTree, modify_frame_self]
  rw [FrameLifetime.saveException_eq (inv.clear running)]
  refine moved.of_slots rfl fun g => ?_
  simp only [FrameLifetime.along]
  by_cases here : g = f
  · subst here
    rw [FrameLifetime.modifySlots_self]
    have ok := moved.slots g
    exact ⟨ok.childrenReducerMap, ok.childPendingException, fun _ => .inr disowned, ok.right⟩
  · rw [FrameLifetime.modifySlots_other here]
    exact moved.slots g

/-- A frame whose worker is about to destroy it has left the tree. -/
theorem LifetimeInv.dead_of_leaving {s : FrameLifetime} (inv : LifetimeInv s) {f : Nat}
    (member : f ∈ s.leaving) : (s.workers.tree.frame f).strand = .dead := by
  by_contra alive
  refine ((inv.lives.alive_iff f (inv.lives.made_of_retiring f member)).1 ⟨alive, ?_⟩).1 member
  rintro ⟨rfl, returned⟩
  exact inv.lives.apart 0 member (inv.returned returned).1

/-- The end of `do_return_from_spawn`. -/
theorem LifetimeInv.of_destroy {s : FrameLifetime} (inv : LifetimeInv s) {f : Nat} (member : f ∈ s.leaving) :
    LifetimeInv { s.destroyFullFrame f with leaving := s.leaving.erase f } := by
  have dead := inv.dead_of_leaving member
  have synched := (inv.workers.stack.frames f).leaf (by rw [dead]; trivial)
  have null := (inv.slots f).null synched (by simp [dead]) (.inr (by rw [dead]; exact id))
  rw [FrameLifetime.destroyFullFrame_eq null]
  exact ⟨inv.workers, inv.slots, inv.failures, inv.lives.release member,
    fun returned => (inv.returned returned).imp (List.mem_append_left _) id, inv.dropped⟩

/-- The initial frame is at the bottom of its deque when it has returned. -/
theorem ActiveInv.initial_returned {w : ActiveWorkers} (inv : ActiveInv w) {suspended : Bool}
    (returned : w.exit = .returned suspended) : (w.tree.frame 0).strand = .running [] := by
  have gone : w.deque 0 = .gone := by
    have phase := inv.phase
    unfold PhaseOk at phase
    cases suspended <;> rw [returned] at phase <;> exact phase.1
  have root := (inv.deques.frames 0).root rfl
  rcases ((inv.deques.frames 0).gone gone).2 with running | unlinked | leaving | dead
  · exact running
  · exact absurd unlinked root.1
  · exact absurd leaving root.2.1
  · exact absurd dead root.2.2.2

/-- The end of `__cilkrts_c_return_from_initial`. -/
theorem LifetimeInv.of_destroyInitial {s : FrameLifetime} (inv : LifetimeInv s) {suspended : Bool}
    (exit : s.workers.exit = .returned suspended) (first : s.returned = false) :
    LifetimeInv { s.destroyFullFrame 0 with returned := true } := by
  have running := inv.workers.active.initial_returned exit
  have orphan : (s.workers.tree.frame 0).parent = none := by
    cases parent : (s.workers.tree.frame 0).parent with
    | none => rfl
    | some p => exact absurd ((inv.workers.active.deques.frames 0).parent p parent) (Nat.not_lt_zero p)
  have null := (inv.slots 0).null (inv.workers.synched (by simp [exit])) (by simp [running]) (.inl orphan)
  rw [FrameLifetime.destroyFullFrame_eq null]
  refine ⟨inv.workers, inv.slots, inv.failures, inv.lives.releaseAlive (x := 0) ⟨?_, ?_⟩ fun g => ?_,
    fun _ => ⟨by simp, suspended, exit⟩, inv.dropped⟩
  · simp [running]
  · simp [first]
  · simp only [FrameLifetime.Alive, first]
    simp

theorem LifetimeInv.of_initial : LifetimeInv .initial where
  workers := .of_initial
  slots f := .of_null _
  failures := rfl
  lives := by
    have alive : ∀ f, f < 1 ↔ (SpawnTree.initial.frame f).strand ≠ .dead := by
      intro f
      by_cases root : f = 0 <;> simp [SpawnTree.initial, root, TreeFrame.absent]
    constructor
    · intro f made
      have lives := (alive f).1 made
      simp [FrameLifetime.initial, FrameLifetime.Alive, ActiveWorkers.initial, lives]
    · exact fun f known => (alive f).2 known.1
    · exact fun f member => absurd member List.not_mem_nil
    · exact fun f member => absurd member List.not_mem_nil
    · exact List.nodup_nil
    · exact List.nodup_nil
    · exact fun f member => absurd member List.not_mem_nil
  returned isReturned := Bool.noConfusion isReturned
  dropped _ f := by simp [FrameLifetime.initial, ActiveWorkers.initial]

theorem LifetimeInv.of_step {s s' : FrameLifetime} {label : LifetimeLabel} (inv : LifetimeInv s)
    (taken : frameLifetimeStep s label = some s') : LifetimeInv s' := by
  simp only [frameLifetimeStep] at taken
  split at taken
  · simp at taken
  cases label with
  | workers label =>
    have moved : ∀ {u : FrameLifetime}, s.moveWorkers label = some u →
        (∀ f, label ≠ .tree (.spawnReturn f)) → LifetimeInv u := by
      intro u moves notReturn
      obtain ⟨w', workersTaken, rfl⟩ := moveWorkers_eq moves
      by_cases isTree : ∃ move, label = .tree move
      · obtain ⟨move, rfl⟩ := isTree
        exact inv.of_tree workersTaken fun f isReturn => absurd (isReturn ▸ rfl) (notReturn f)
      · exact inv.of_other (fun move isMove => isTree ⟨move, isMove⟩) workersTaken
    dsimp only at taken
    split at taken
    · simp at taken
    · simp at taken
    · simp at taken
    · rename_i notReturn _
      exact moved taken notReturn
  | sync f map exception => exact inv.of_sync taken
  | spawnReturn f map exception => exact inv.of_spawnReturn taken
  | callReturn f exception => exact inv.of_callReturn taken
  | destroy f =>
    simp only [Option.ite_none_right_eq_some, Option.some.injEq] at taken
    obtain ⟨member, rfl⟩ := taken
    exact inv.of_destroy member
  | destroyInitial =>
    dsimp only at taken
    split at taken
    · rename_i suspended exit
      simp only [Option.ite_none_left_eq_some, Option.some.injEq, Bool.not_eq_true] at taken
      obtain ⟨first, rfl⟩ := taken
      exact inv.of_destroyInitial exit first
    · simp at taken

theorem lifetimeInv_reachable {s : FrameLifetime} (reachable : frameLifetimeMachine.Reachable s) :
    LifetimeInv s := by
  apply reachable.invariant
  · rintro _ rfl
    exact .of_initial
  · exact fun _ _ _ _ inv taken => inv.of_step taken

/-! ### Every frame is destroyed -/

/-- Some run from the state destroys the frame. -/
def FrameLifetime.Destroys (s : FrameLifetime) (f : Nat) : Prop :=
  ∃ labels s', frameLifetimeMachine.exec s labels = some s' ∧ f ∈ s'.destroyed

theorem FrameLifetime.Destroys.of_step {s s' : FrameLifetime} {f : Nat} {label : LifetimeLabel}
    (taken : frameLifetimeStep s label = some s') (later : s'.Destroys f) : s.Destroys f := by
  obtain ⟨labels, s'', run, member⟩ := later
  refine ⟨label :: labels, s'', ?_, member⟩
  simp only [Machine.exec, frameLifetimeMachine]
  rw [taken]
  exact run

/-- Nothing stops the workers. -/
def FrameLifetime.Quiet (s : FrameLifetime) : Prop := s.failures = [] ∧ s.workers.failures = []

theorem FrameLifetime.Quiet.step {s s' : FrameLifetime} {move : TreeLabel} (quiet : s.Quiet)
    (ends : (∀ f, move ≠ .sync f) ∧ (∀ f, move ≠ .spawnReturn f) ∧ ∀ f, move ≠ .callReturn f)
    (taken : s.moveWorkers (.tree move) = some s') :
    frameLifetimeStep s (.workers (.tree move)) = some s' := by
  unfold frameLifetimeStep
  rw [if_neg (by simp [quiet.1, quiet.2])]
  cases move with
  | sync f => exact absurd rfl (ends.1 f)
  | spawnReturn f => exact absurd rfl (ends.2.1 f)
  | callReturn f => exact absurd rfl (ends.2.2 f)
  | _ => exact taken

/-- A step of the tree that leads on. -/
theorem LifetimeInv.destroys_of_tree {s : FrameLifetime} (inv : LifetimeInv s) {move : TreeLabel}
    {t' : SpawnTree} {f : Nat} (quiet : s.workers.failures = []) (ready : s.workers.Ready move)
    (ends : (∀ f, move ≠ .sync f) ∧ (∀ f, move ≠ .spawnReturn f) ∧ ∀ f, move ≠ .callReturn f)
    (taken : spawnTreeStep s.workers.tree move = some t')
    (later : ∀ s' : FrameLifetime, LifetimeInv s' → s'.workers.failures = [] →
      s'.workers = s.workers.afterTree move t' → s'.leaving = (s.along (.tree move)).leaving → s'.Destroys f) :
    s.Destroys f := by
  have workersTaken : activeWorkersStep s.workers (.tree move) = some (s.workers.afterTree move t') := by
    simp [activeWorkersStep, quiet, ready, taken]
  have moved : s.moveWorkers (.tree move) =
      some { s.along (.tree move) with workers := s.workers.afterTree move t' } := by
    simp [FrameLifetime.moveWorkers, workersTaken]
  have step := FrameLifetime.Quiet.step ⟨inv.failures, quiet⟩ ends moved
  refine .of_step step (later _ (inv.of_step step) ?_ rfl rfl)
  exact (afterTree_fields s.workers move t').2.2.trans quiet

theorem LifetimeInv.destroys_of_leaving {s : FrameLifetime} (inv : LifetimeInv s) {f : Nat}
    (quiet : s.workers.failures = []) (member : f ∈ s.leaving) : s.Destroys f := by
  have step : frameLifetimeStep s (.destroy f) =
      some { s.destroyFullFrame f with leaving := s.leaving.erase f } := by
    simp [frameLifetimeStep, inv.failures, quiet, member]
  refine .of_step step ⟨[], _, rfl, ?_⟩
  simp only [FrameLifetime.destroyFullFrame]
  exact List.mem_append_right _ (List.mem_singleton.2 rfl)

/-- `do_return_from_spawn` after its decrement of the frame's own counter. -/
theorem LifetimeInv.destroys_of_strand {s : FrameLifetime} (inv : LifetimeInv s) {f : Nat}
    (quiet : s.workers.failures = [])
      (leaving : (s.workers.tree.frame f).strand = .leaving) : s.Destroys f := by
  obtain ⟨p, parent⟩ := Option.isSome_iff_exists.1 (inv.workers.leaving f leaving)
  have taken : spawnTreeStep s.workers.tree (.decjoinParent f) =
      some ((s.workers.tree.destroyFullFrame f).provablyGoodSteal p) := by
    simp [spawnTreeStep, leaving, parent]
  have ready : s.workers.Ready (.decjoinParent f) := trivial
  refine inv.destroys_of_tree quiet ready (by simp) taken fun s' inv' quiet' _ left => ?_
  refine inv'.destroys_of_leaving quiet' ?_
  rw [left]
  simp only [FrameLifetime.along, parent]
  exact List.mem_cons_self

/-- `do_return_from_spawn`. -/
theorem LifetimeInv.destroys_of_gone {s : FrameLifetime} (inv : LifetimeInv s) {f : Nat}
    (quiet : s.workers.failures = []) (unlinked : (s.workers.tree.frame f).strand = .unlinked)
    (gone : s.workers.deque f = .gone) (pushed : f ∉ s.workers.pushers) : s.Destroys f := by
  have taken : spawnTreeStep s.workers.tree (.decjoinSelf f) =
      some ((s.workers.tree.decjoin f).modify f fun ff =>
        { ff with strand := if ff.parent.isSome then .leaving else .dead }) := by
    simp [spawnTreeStep, unlinked]
  have ready : s.workers.Ready (.decjoinSelf f) := ⟨gone, pushed⟩
  refine inv.destroys_of_tree quiet ready (by simp) taken fun s' inv' quiet' workers left => ?_
  cases parent : (s.workers.tree.frame f).parent with
  | none =>
    refine inv'.destroys_of_leaving quiet' ?_
    rw [left]
    simp only [FrameLifetime.along, parent]
    exact List.mem_cons_self
  | some p =>
    refine inv'.destroys_of_strand quiet' ?_
    have sameParent : ((s.workers.tree.decjoin f).frame f).parent = some p := by
      rw [SpawnTree.decjoin, modify_frame_self, check_frame]
      exact parent
    rw [workers, (afterTree_fields s.workers (.decjoinSelf f) _).1, modify_frame_self]
    simp [sameParent]

/-- A step outside the tree that leads on. -/
theorem LifetimeInv.destroys_of_other {s : FrameLifetime} (inv : LifetimeInv s) {label : ActiveLabel}
    {w' : ActiveWorkers} {f : Nat} (quiet : s.workers.failures = []) (notTree : ∀ move, label ≠ .tree move)
    (taken : activeWorkersStep s.workers label = some w')
    (later : ∀ s' : FrameLifetime, LifetimeInv s' → s'.workers = w' → s'.Destroys f) : s.Destroys f := by
  have step : frameLifetimeStep s (.workers label) = some { s.along label with workers := w' } := by
    unfold frameLifetimeStep
    rw [if_neg (by simp [inv.failures, quiet])]
    cases label with
    | tree move => exact absurd rfl (notTree move)
    | _ => simp [FrameLifetime.moveWorkers, taken]
  exact .of_step step (later _ (inv.of_step step) rfl)

/-- The worker that decremented `active_workers` to 0 pushes the exit frame first. -/
theorem LifetimeInv.destroys_of_decremented {s : FrameLifetime} (inv : LifetimeInv s) {f : Nat}
    (quiet : s.workers.failures = []) (unlinked : (s.workers.tree.frame f).strand = .unlinked)
    (gone : s.workers.deque f = .gone) : s.Destroys f := by
  by_cases pusher : f ∈ s.workers.pushers
  · obtain ⟨-, exitFrame, -, one, -⟩ := inv.workers.active.pushing (List.ne_nil_of_mem pusher)
    have checked : s.workers.check s.workers.exitFrame.isSome .exitFrame = s.workers := by
      rw [exitFrame]
      rfl
    have alone : s.workers.pushers.erase f = [] := by
      have length := List.length_erase_add_one pusher
      exact List.length_eq_zero_iff.1 (by omega)
    have taken : activeWorkersStep s.workers (.push f) = some (s.workers.pushExitFrame f) := by
      simp [activeWorkersStep, quiet, pusher]
    refine inv.destroys_of_other quiet (by simp) taken fun s' inv' workers => ?_
    have pushed : s'.workers = { s.workers with
        pushers := s.workers.pushers.erase f, pushes := s.workers.pushes ++ s.workers.syncMaster.toList } := by
      rw [workers, ActiveWorkers.pushExitFrame, checked]
    exact inv'.destroys_of_gone (by rw [pushed]; exact quiet) (by rw [pushed]; exact unlinked)
      (by rw [pushed]; exact gone) (by rw [pushed]; simp [alone])
  · exact inv.destroys_of_gone quiet unlinked gone pusher

/-- The worker that is in `do_return_from_spawn` with a frame, or about to run it, can destroy it. -/
theorem LifetimeInv.destroys {s : FrameLifetime} (inv : LifetimeInv s) {f : Nat}
    (quiet : s.workers.failures = []) (inside : s.InDoReturnFromSpawn f) : s.Destroys f := by
  rcases inside with unlinked | leaving | member
  · by_cases gone : s.workers.deque f = .gone
    · exact inv.destroys_of_decremented quiet unlinked gone
    have active : s.workers.deque f = .active := by
      by_contra notActive
      obtain ⟨callers, running⟩ := (inv.workers.active.deques.frames f).onDeque notActive gone
      simp [unlinked] at running
    have taken : activeWorkersStep s.workers (.decrement f) = some (s.workers.terminate f) := by
      simp [activeWorkersStep, quiet, unlinked, active]
    refine inv.destroys_of_other quiet (by simp) taken fun s' inv' workers => ?_
    have ended : (s.workers.terminate f).failures = s.workers.failures ∧
        (s.workers.terminate f).tree = s.workers.tree ∧ (s.workers.terminate f).deque f = .gone := by
      unfold ActiveWorkers.terminate
      dsimp only
      split <;> simp [ActiveWorkers.decrement, ActiveWorkers.setDeque]
    rw [← workers] at ended
    exact inv'.destroys_of_decremented (ended.1.trans quiet) (by rw [ended.2.1]; exact unlinked) ended.2.2
  · exact inv.destroys_of_strand quiet leaving
  · exact inv.destroys_of_leaving quiet member

/-- The frames that are allocated when the initial frame has been destroyed. -/
theorem LifetimeInv.live_cases {s : FrameLifetime} (inv : LifetimeInv s)
    (returned : s.returned = true) {f : Nat}
    (live : f ∈ s.liveFrames) : s.InDoReturnFromSpawn f ∨ f ∈ s.dropped := by
  obtain ⟨-, suspended, exit⟩ := inv.returned returned
  simp only [FrameLifetime.liveFrames, Finset.mem_filter, Finset.mem_range] at live
  have active := inv.workers.active
  by_cases alive : s.Alive f
  · have gone : (s.workers.tree.frame f).strand.Live → s.workers.deque f = .gone :=
      fun isLive => active.not_live exit isLive
    cases strand : (s.workers.tree.frame f).strand with
    | dead => exact absurd strand alive.1
    | unlinked => exact .inl (.inl strand)
    | leaving => exact .inl (.inr (.inl strand))
    | waiting =>
      -- The frame that it waits for would count.
      obtain ⟨g, made, isCall, isLive, -⟩ := active.tree.live_of_waiting
        (fun c => (active.deques.frames c).parent) s.workers.tree.frames f (by omega) strand
      have isSpawn := ((active.deques.frames g).gone (active.not_live exit isLive)).1
      simp [isCall] at isSpawn
    | running callers =>
      have isGone := gone (by rw [strand]; trivial)
      refine .inr ((inv.dropped (inv.workers.quiet suspended exit) f).2 ⟨⟨isGone, ?_⟩, ?_⟩)
      · simpa [strand] using ((active.deques.frames f).gone isGone).2
      · rintro rfl
        exact alive.2 ⟨rfl, returned⟩
    | held | next | syncing | stalled | disowned =>
      have isGone := gone (by rw [strand]; trivial)
      simpa [strand] using ((active.deques.frames f).gone isGone).2
  · exact .inl (.inr (.inr (inv.lives.retiring_of_made live.1 alive live.2)))

/-- A spawned child returns with a map and an exception to a stolen parent, which syncs. Then a future hands
    its worker over to the parent, which waits for it, and the parent returns. -/
def handedOffTrace : List LifetimeLabel :=
  [.workers (.tree (.invoke 0 .spawned)), .workers (.increment 0), .workers (.tree (.steal 0)),
    .workers (.tree (.resume 0)), .spawnReturn 1 true true, .workers (.decrement 1),
    .workers (.tree (.decjoinSelf 1)), .workers (.tree (.decjoinParent 1)), .destroy 1, .sync 0 true true,
    .workers (.tree (.doSync 0)), .workers (.tree (.resume 0)), .workers (.tree (.invoke 0 .future)),
    .workers (.increment 0), .workers (.tree (.steal 0)), .workers (.tree (.resume 0)),
    .workers (.suspend 0), .workers (.handOff 2 0), .workers (.handOffDecrement 0),
    .workers (.returnFromInitial 0), .workers .fastDecrement, .destroyInitial]

/-- The initial frame can return while a worker is in `do_return_from_spawn` with a future's frame. -/
example :
    let s := frameLifetimeMachine.after .initial
      [.workers (.tree (.invoke 0 .future)), .workers (.increment 0), .workers (.tree (.steal 0)),
        .workers (.tree (.resume 0)), .spawnReturn 1 false false, .workers (.decrement 1),
        .workers (.returnFromInitial 0), .workers .fastDecrement, .destroyInitial]
    s.returned = true ∧ 1 ∈ s.liveFrames := by
  decide

end CilkL
