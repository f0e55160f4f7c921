/-
Module: CilkL.Proofs.SpawnTree
Layer: Proofs
Purpose: Join counters. A full frame's counter is the number of its children that have not decremented it
  yet, plus one if the frame is owned; so the counter reaches 0 at a sync exactly once, with the last
  arrival.
Imports: CilkL.Runtime.SpawnTree
Trusted boundary: none (fully proved)
Main exports: JoinLocal, JoinInv, JoinInv.of_step, joinInv_reachable, join_counter_accounting
Open obligations: none
-/
import CilkL.Runtime.SpawnTree

namespace CilkL

namespace SpawnTree

/-! ### What the operations compute -/

@[simp] theorem modify_frame_self (s : SpawnTree) (f : Nat) (change : TreeFrame → TreeFrame) :
    (s.modify f change).frame f = change (s.frame f) := by
  simp [modify]

theorem modify_frame_other {f g : Nat} (other : g ≠ f) (s : SpawnTree)
    (change : TreeFrame → TreeFrame) : (s.modify f change).frame g = s.frame g := by
  simp [modify, other]

@[simp] theorem modify_frames (s : SpawnTree) (f : Nat) (change : TreeFrame → TreeFrame) :
    (s.modify f change).frames = s.frames := rfl

@[simp] theorem modify_failures (s : SpawnTree) (f : Nat) (change : TreeFrame → TreeFrame) :
    (s.modify f change).failures = s.failures := rfl

/-- An assertion that holds leaves no trace. -/
theorem check_of_true {s : SpawnTree} {holds : Bool} (true : holds = true) (assertion : TreeAssert) :
    s.check holds assertion = s := by
  simp [check, true]

@[simp] theorem check_frame (s : SpawnTree) (holds : Bool) (assertion : TreeAssert) :
    (s.check holds assertion).frame = s.frame := by
  unfold check
  split <;> rfl

@[simp] theorem check_frames (s : SpawnTree) (holds : Bool) (assertion : TreeAssert) :
    (s.check holds assertion).frames = s.frames := by
  unfold check
  split <;> rfl

/-- A failed assertion is recorded, and nothing else changes. -/
theorem check_failures {s : SpawnTree} {holds : Bool} {assertion other : TreeAssert}
    (distinct : other ≠ assertion) :
    other ∈ (s.check holds assertion).failures ↔ other ∈ s.failures := by
  unfold check
  split
  · rfl
  · simp [distinct]

theorem decjoin_of_pos {s : SpawnTree} {f : Nat} (positive : 0 < (s.frame f).joinCounter) :
    s.decjoin f = s.modify f fun ff => { ff with joinCounter := ff.joinCounter - 1 } := by
  unfold decjoin
  rw [check_of_true (by simpa using positive)]

/-- A child is pending until it is dead. -/
theorem mem_pendingChildren {s : SpawnTree} {f c : Nat} :
    c ∈ s.pendingChildren f ↔
      c < s.frames ∧ (s.frame c).parent = some f ∧ (s.frame c).strand ≠ .dead := by
  simp [pendingChildren]

/-- Only parents and deaths matter for the pending children. -/
theorem pendingChildren_congr {s s' : SpawnTree} (frames : s'.frames = s.frames)
    (parent : ∀ c, (s'.frame c).parent = (s.frame c).parent)
    (dead : ∀ c, (s'.frame c).strand = .dead ↔ (s.frame c).strand = .dead) (f : Nat) :
    s'.pendingChildren f = s.pendingChildren f := by
  ext c
  simp only [mem_pendingChildren, frames, parent, ne_eq, dead]

end SpawnTree

open SpawnTree

/-! ### The invariant -/

/-- The strands of frames about to be destroyed. -/
def FrameStrand.Childless : FrameStrand → Prop
  | .unlinked | .leaving | .disowned | .dead => True
  | _ => False

/-- One frame with its pending children, of which `isCall` tells the called ones. -/
structure JoinLocal (ff : TreeFrame) (pending : Finset Nat) (isCall : Nat → Bool) : Prop where
  counter : ff.joinCounter = pending.card + if ff.strand.Owned then 1 else 0
  childless : ff.strand.Childless → pending = ∅
  called : ∀ c ∈ pending, isCall c = true → ff.strand = .waiting
  waiting : ff.strand = .waiting → ∃ c ∈ pending, isCall c = true
  callUnique : ∀ c ∈ pending, ∀ c' ∈ pending, isCall c = true → isCall c' = true → c = c'
  synched : ff.unsynched = false → ∀ c ∈ pending, isCall c = true
  unsynched : ff.strand = .syncing ∨ ff.strand = .stalled → ff.unsynched = true
  stalled : ff.strand = .stalled → pending.Nonempty
  spawnKind : ff.strand = .unlinked ∨ ff.strand = .leaving → ff.isCallChild = false
  callKind : ff.strand = .disowned → ff.isCallChild = true
  counts : ff.syncs = ff.crossings + if ff.strand = .stalled then 1 else 0

/-- Which of the frames are called children. -/
def SpawnTree.isCall (s : SpawnTree) (c : Nat) : Bool := (s.frame c).isCallChild

/-- What holds between the critical sections, and inside `detach_for_steal` as well. -/
structure JoinInv (s : SpawnTree) : Prop where
  fresh : ∀ f, s.frames ≤ f → s.frame f = .absent
  frames : ∀ f, JoinLocal (s.frame f) (s.pendingChildren f) s.isCall
  joinCounter : .joinCounter ∉ s.failures
  returnCounter : .returnCounter ∉ s.failures

/-- No assertion about a counter fails in the step. -/
def CountersKept (s s' : SpawnTree) : Prop :=
  (.joinCounter ∈ s'.failures → .joinCounter ∈ s.failures) ∧
    (.returnCounter ∈ s'.failures → .returnCounter ∈ s.failures)

theorem CountersKept.of_eq {s s' : SpawnTree} (same : s'.failures = s.failures) :
    CountersKept s s' :=
  ⟨fun failed => same ▸ failed, fun failed => same ▸ failed⟩

/-- A frame with a strand has been made. -/
theorem JoinInv.made {s : SpawnTree} (inv : JoinInv s) {f : Nat} (alive : (s.frame f).strand ≠ .dead) :
    f < s.frames := by
  by_contra unmade
  exact alive (by rw [inv.fresh f (Nat.le_of_not_lt unmade)]; rfl)

/-- The predicate only matters on the pending children. -/
theorem JoinLocal.congr {ff : TreeFrame} {pending : Finset Nat} {isCall isCall' : Nat → Bool}
    (frame : JoinLocal ff pending isCall) (same : ∀ c ∈ pending, isCall' c = isCall c) :
    JoinLocal ff pending isCall' where
  counter := frame.counter
  childless := frame.childless
  called c member call := frame.called c member (same c member ▸ call)
  waiting waits := by
    obtain ⟨c, member, call⟩ := frame.waiting waits
    exact ⟨c, member, (same c member).trans call⟩
  callUnique c member c' member' call call' :=
    frame.callUnique c member c' member' (same c member ▸ call) (same c' member' ▸ call')
  synched flag c member := (same c member).trans (frame.synched flag c member)
  unsynched := frame.unsynched
  stalled := frame.stalled
  spawnKind := frame.spawnKind
  callKind := frame.callKind
  counts := frame.counts

/-- A step at one frame that keeps its links. -/
theorem JoinInv.of_one {s s' : SpawnTree} (inv : JoinInv s) {f : Nat}
    (alive : (s.frame f).strand ≠ .dead)
    (others : ∀ g, g ≠ f → s'.frame g = s.frame g) (frames : s'.frames = s.frames)
    (failures : CountersKept s s') (parent : (s'.frame f).parent = (s.frame f).parent)
    (isCallChild : (s'.frame f).isCallChild = (s.frame f).isCallChild)
    (stays : (s'.frame f).strand ≠ .dead)
    (frame : JoinLocal (s'.frame f) (s.pendingChildren f) s.isCall) : JoinInv s' := by
  have fieldEq : ∀ {β : Type} (field : TreeFrame → β), field (s'.frame f) = field (s.frame f) →
      ∀ g, field (s'.frame g) = field (s.frame g) := by
    intro β field same g
    by_cases here : g = f
    · exact here ▸ same
    · rw [others g here]
  have isCall : s'.isCall = s.isCall := funext (fieldEq TreeFrame.isCallChild isCallChild)
  have pending : ∀ g, s'.pendingChildren g = s.pendingChildren g := by
    apply pendingChildren_congr frames (fieldEq TreeFrame.parent parent)
    intro g
    by_cases here : g = f
    · subst here
      simp [alive, stays]
    · rw [others g here]
  refine ⟨?_, ?_, fun failed => inv.joinCounter (failures.1 failed),
    fun failed => inv.returnCounter (failures.2 failed)⟩
  · intro g unmade
    rw [frames] at unmade
    have made := inv.made alive
    rw [others g (by omega)]
    exact inv.fresh g unmade
  · intro g
    rw [pending, isCall]
    by_cases here : g = f
    · exact here ▸ frame
    · rw [others g here]
      exact inv.frames g

/-- The arithmetic of an owned frame. -/
theorem JoinLocal.pos_of_owned {ff : TreeFrame} {pending : Finset Nat} {isCall : Nat → Bool}
    (frame : JoinLocal ff pending isCall) (owned : ff.strand.Owned) : 0 < ff.joinCounter := by
  have counter := frame.counter
  rw [if_pos owned] at counter
  omega

theorem JoinLocal.pos_of_pending {ff : TreeFrame} {pending : Finset Nat} {isCall : Nat → Bool}
    (frame : JoinLocal ff pending isCall) {c : Nat} (member : c ∈ pending) : 0 < ff.joinCounter := by
  have counter := frame.counter
  have positive := Finset.card_pos.2 ⟨c, member⟩
  omega

/-! ### Frames that come and go -/

/-- A frame with pending children has been made. -/
theorem JoinInv.parent_made {s : SpawnTree} (inv : JoinInv s) {c p : Nat}
    (pending : c ∈ s.pendingChildren p) : (s.frame p).strand ≠ .dead := by
  intro dead
  have empty := (inv.frames p).childless (by simp [dead, FrameStrand.Childless])
  simp [empty] at pending

/-- A destroyed child is not pending any more. -/
theorem JoinInv.pendingChildren_death {s s' : SpawnTree} (inv : JoinInv s) {c p : Nat}
    (pendingChild : c ∈ s.pendingChildren p)
    (others : ∀ g, g ≠ c → g ≠ p → s'.frame g = s.frame g) (frames : s'.frames = s.frames)
    (dead : (s'.frame c).strand = .dead)
    (parent : (s'.frame p).parent = (s.frame p).parent ∧ (s'.frame p).strand ≠ .dead) (g : Nat) :
    s'.pendingChildren g = (s.pendingChildren g).erase c := by
  have alive := inv.parent_made pendingChild
  ext d
  simp only [Finset.mem_erase, mem_pendingChildren, frames]
  by_cases isChild : d = c
  · subst isChild
    simp [dead]
  · by_cases isParent : d = p
    · subst isParent
      simp [isChild, parent.1, parent.2, alive]
    · simp [isChild, others d isChild isParent]

/-- A child is destroyed, and its parent changes with it. -/
theorem JoinInv.of_death {s s' : SpawnTree} (inv : JoinInv s) {c p : Nat}
    (pendingChild : c ∈ s.pendingChildren p)
    (others : ∀ g, g ≠ c → g ≠ p → s'.frame g = s.frame g) (frames : s'.frames = s.frames)
    (failures : CountersKept s s')
    (child : (s'.frame c).strand = .dead ∧ (s'.frame c).isCallChild = (s.frame c).isCallChild)
    (parent : (s'.frame p).parent = (s.frame p).parent ∧
      (s'.frame p).isCallChild = (s.frame p).isCallChild ∧ (s'.frame p).strand ≠ .dead)
    (childFrame : JoinLocal (s'.frame c) (s.pendingChildren c) s.isCall)
    (parentFrame : JoinLocal (s'.frame p) ((s.pendingChildren p).erase c) s.isCall) :
    JoinInv s' := by
  have alive := inv.parent_made pendingChild
  obtain ⟨made, parentEq, aliveChild⟩ := mem_pendingChildren.1 pendingChild
  have pending := inv.pendingChildren_death pendingChild others frames child.1 ⟨parent.1, parent.2.2⟩
  have notChild : ∀ g, g ≠ p → (s.pendingChildren g).erase c = s.pendingChildren g := by
    intro g other
    apply Finset.erase_eq_of_notMem
    simp [mem_pendingChildren, parentEq, other.symm]
  have isCall : s'.isCall = s.isCall := by
    funext g
    by_cases isChild : g = c
    · exact isChild ▸ child.2
    · by_cases isParent : g = p
      · exact isParent ▸ parent.2.1
      · simp only [SpawnTree.isCall, others g isChild isParent]
  refine ⟨?_, ?_, fun failed => inv.joinCounter (failures.1 failed),
    fun failed => inv.returnCounter (failures.2 failed)⟩
  · intro g unmade
    rw [frames] at unmade
    have parentMade := inv.made alive
    rw [others g (by omega) (by omega)]
    exact inv.fresh g unmade
  · intro g
    rw [pending, isCall]
    by_cases isParent : g = p
    · exact isParent ▸ parentFrame
    · rw [notChild g isParent]
      by_cases isChild : g = c
      · exact isChild ▸ childFrame
      · rw [others g isChild isParent]
        exact inv.frames g

/-- Nothing has been linked to a frame that does not exist yet. -/
theorem JoinInv.pending_fresh {s : SpawnTree} (inv : JoinInv s) {f : Nat} (unmade : s.frames ≤ f) :
    s.pendingChildren f = ∅ := by
  apply (inv.frames f).childless
  rw [inv.fresh f unmade]
  trivial

/-- A new frame is pending under its parent. -/
theorem JoinInv.pendingChildren_birth {s s' : SpawnTree} (inv : JoinInv s) {p : Nat}
    (alive : (s.frame p).strand ≠ .dead)
    (others : ∀ g, g ≠ s.frames → g ≠ p → s'.frame g = s.frame g)
    (frames : s'.frames = s.frames + 1) (aliveChild : (s'.frame s.frames).strand ≠ .dead)
    (parent : (s'.frame p).parent = (s.frame p).parent ∧ (s'.frame p).strand ≠ .dead) (g : Nat) :
    s'.pendingChildren g =
      if (s'.frame s.frames).parent = some g then insert s.frames (s.pendingChildren g)
      else s.pendingChildren g := by
  have made := inv.made alive
  ext d
  by_cases isChild : d = s.frames
  · subst isChild
    have unmade : s.frames ∉ s.pendingChildren g := by simp [mem_pendingChildren]
    split_ifs with link
    · simp [mem_pendingChildren, frames, link, aliveChild]
    · simp [mem_pendingChildren, link]
  · have oldOrNew : d < s.frames + 1 ↔ d < s.frames := by omega
    have sameChild : d ∈ s'.pendingChildren g ↔ d ∈ s.pendingChildren g := by
      simp only [mem_pendingChildren, frames, oldOrNew]
      by_cases isParent : d = p
      · subst isParent
        simp [parent.1, parent.2, alive]
      · rw [others d isChild isParent]
    rw [sameChild]
    split_ifs
    · simp [isChild]
    · rfl

/-- A frame is made, as a child of `p` or under no parent, and `p` changes with it. -/
theorem JoinInv.of_birth {s s' : SpawnTree} (inv : JoinInv s) {p : Nat}
    (alive : (s.frame p).strand ≠ .dead)
    (others : ∀ g, g ≠ s.frames → g ≠ p → s'.frame g = s.frame g)
    (frames : s'.frames = s.frames + 1) (failures : CountersKept s s')
    (child : (s'.frame s.frames).parent = none ∨ (s'.frame s.frames).parent = some p)
    (aliveChild : (s'.frame s.frames).strand ≠ .dead)
    (parent : (s'.frame p).parent = (s.frame p).parent ∧
      (s'.frame p).isCallChild = (s.frame p).isCallChild ∧ (s'.frame p).strand ≠ .dead)
    (childFrame : JoinLocal (s'.frame s.frames) ∅ s'.isCall)
    (parentFrame : JoinLocal (s'.frame p)
      (if (s'.frame s.frames).parent = some p then insert s.frames (s.pendingChildren p)
        else s.pendingChildren p) s'.isCall) : JoinInv s' := by
  have made := inv.made alive
  have notParent : s.frames ≠ p := by omega
  have isCall : ∀ g, g ≠ s.frames → s'.isCall g = s.isCall g := by
    intro g other
    by_cases isParent : g = p
    · exact isParent ▸ parent.2.1
    · simp only [SpawnTree.isCall, others g other isParent]
  have pending := inv.pendingChildren_birth alive others frames aliveChild ⟨parent.1, parent.2.2⟩
  refine ⟨?_, ?_, fun failed => inv.joinCounter (failures.1 failed),
    fun failed => inv.returnCounter (failures.2 failed)⟩
  · intro g unmade
    rw [frames] at unmade
    rw [others g (by omega) (by omega)]
    exact inv.fresh g (by omega)
  · intro g
    rw [pending]
    by_cases isParent : g = p
    · exact isParent ▸ parentFrame
    · have notLinked : (s'.frame s.frames).parent ≠ some g := by
        rcases child with orphan | linked
        · simp [orphan]
        · simp [linked, Ne.symm isParent]
      rw [if_neg notLinked]
      by_cases isChild : g = s.frames
      · subst isChild
        rw [inv.pending_fresh (Nat.le_refl _)]
        exact childFrame
      · rw [others g isChild isParent]
        apply (inv.frames g).congr
        intro c member
        apply isCall
        have old := (mem_pendingChildren.1 member).1
        omega

/-- A frame that was just made, or that is dead. -/
theorem JoinLocal.of_leaf {ff : TreeFrame} {isCall : Nat → Bool}
    (counter : ff.joinCounter = if ff.strand.Owned then 1 else 0)
    (strand : ff.strand ≠ .waiting ∧ ff.strand ≠ .stalled ∧ ff.strand ≠ .syncing)
    (spawnKind : ff.strand = .unlinked ∨ ff.strand = .leaving → ff.isCallChild = false)
    (callKind : ff.strand = .disowned → ff.isCallChild = true)
    (counts : ff.syncs = ff.crossings) : JoinLocal ff ∅ isCall := by
  constructor
  · simpa using counter
  · exact fun _ => rfl
  · simp
  · exact fun waits => absurd waits strand.1
  · simp
  · simp
  · rintro (syncing | stalled)
    · exact absurd syncing strand.2.2
    · exact absurd stalled strand.2.1
  · exact fun stalled => absurd stalled strand.2.1
  · exact spawnKind
  · exact callKind
  · simpa [strand.2.1] using counts

/-- An owned frame that stays owned, with the same counter. -/
theorem JoinLocal.of_owned {ff ff' : TreeFrame} {pending : Finset Nat} {isCall : Nat → Bool}
    (frame : JoinLocal ff pending isCall) (owned : ff.strand.Owned) (owned' : ff'.strand.Owned)
    (counter : ff'.joinCounter = ff.joinCounter) (unsynched : ff'.unsynched = ff.unsynched)
    (counts : ff'.syncs = ff.syncs ∧ ff'.crossings = ff.crossings)
    (unlinked : ff'.strand = .unlinked → pending = ∅ ∧ ff'.isCallChild = false)
    (syncing : ff'.strand = .syncing → ff.unsynched = true) : JoinLocal ff' pending isCall := by
  have notOwned : ∀ strand : FrameStrand, ¬ strand.Owned → ff.strand ≠ strand ∧ ff'.strand ≠ strand := by
    intro strand free
    exact ⟨fun same => free (same ▸ owned), fun same => free (same ▸ owned')⟩
  constructor
  · rw [counter, frame.counter, if_pos owned, if_pos owned']
  · intro childless
    cases strand : ff'.strand <;> rw [strand] at childless owned' <;>
      first
      | exact absurd childless id
      | exact absurd owned' id
      | exact (unlinked strand).1
  · intro c member call
    exact absurd (frame.called c member call) (notOwned .waiting id).1
  · exact fun waits => absurd waits (notOwned .waiting id).2
  · exact frame.callUnique
  · exact fun flag => frame.synched (unsynched ▸ flag)
  · rintro (isSyncing | isStalled)
    · exact unsynched ▸ syncing isSyncing
    · exact absurd isStalled (notOwned .stalled id).2
  · exact fun isStalled => absurd isStalled (notOwned .stalled id).2
  · rintro (isUnlinked | isLeaving)
    · exact (unlinked isUnlinked).2
    · exact absurd isLeaving (notOwned .leaving id).2
  · exact fun isDisowned => absurd isDisowned (notOwned .disowned id).2
  · have before := frame.counts
    rw [if_neg (notOwned .stalled id).1] at before
    rw [counts.1, counts.2, if_neg (notOwned .stalled id).2, before]

/-- A frame whose strand is running has no called child, and none at all once it has synched. -/
theorem JoinLocal.noCall {ff : TreeFrame} {pending : Finset Nat} {isCall : Nat → Bool}
    (frame : JoinLocal ff pending isCall) (notWaiting : ff.strand ≠ .waiting) :
    ∀ c ∈ pending, isCall c = false := by
  intro c member
  cases call : isCall c with
  | false => rfl
  | true => exact absurd (frame.called c member call) notWaiting

theorem JoinLocal.pending_of_synched {ff : TreeFrame} {pending : Finset Nat} {isCall : Nat → Bool}
    (frame : JoinLocal ff pending isCall) (notWaiting : ff.strand ≠ .waiting)
    (synched : ff.unsynched = false) : pending = ∅ := by
  apply Finset.eq_empty_of_forall_notMem
  intro c member
  have called := frame.synched synched c member
  rw [frame.noCall notWaiting c member] at called
  exact absurd called (by simp)

/-! ### `detach_for_steal` -/

namespace SpawnTree

theorem makeCallChild_parent {s : SpawnTree} {f : Nat} (made : f < s.frames) :
    (s.makeCallChild f).frame f =
      { s.frame f with
        children := (s.frame f).children ++ [s.frames], fiberSelf := none, strand := .waiting
        joinCounter := (s.frame f).joinCounter + 1 } := by
  have distinct : f ≠ s.frames := Nat.ne_of_lt made
  simp [makeCallChild, incjoin, modify, distinct]

theorem makeCallChild_child {s : SpawnTree} {f : Nat} (made : f < s.frames) :
    (s.makeCallChild f).frame s.frames = madeFrame (some f) true (s.frame f).fiberSelf := by
  have distinct : s.frames ≠ f := Nat.ne_of_gt made
  simp [makeCallChild, incjoin, modify, distinct]

theorem makeCallChild_other {s : SpawnTree} {f g : Nat} (notChild : g ≠ s.frames) (notParent : g ≠ f) :
    (s.makeCallChild f).frame g = s.frame g := by
  simp [makeCallChild, incjoin, modify, notChild, notParent]

/-- What the loot becomes, apart from its fiber and children. -/
theorem adoptChild_loot {s : SpawnTree} {loot : Nat} {future : Bool} {younger : List SpawnLink}
    (made : loot < s.frames) :
    (s.adoptChild loot future younger).frame loot =
      if future then { s.frame loot with joinCounter := (s.frame loot).joinCounter + 1, strand := .next }
      else
        { s.frame loot with
          unsynched := true
          joinCounter := (s.frame loot).joinCounter + 2
          strand := .next
          children := (s.frame loot).children ++ [s.frames]
          fiberSelf := some s.fibers
          firstSpawn :=
            if (s.frame loot).firstSpawn.isNone then some s.frames else (s.frame loot).firstSpawn
          regionFiber :=
            if (s.frame loot).firstSpawn.isNone then (s.frame loot).fiberSelf
            else (s.frame loot).regionFiber } := by
  have distinct : loot ≠ s.frames := Nat.ne_of_lt made
  cases future <;>
    simp [adoptChild, pushNextFrame, makeFutureChild, makeSpawnChild, incjoin, modify, distinct]

theorem adoptChild_child {s : SpawnTree} {loot : Nat} {future : Bool} {younger : List SpawnLink}
    (made : loot < s.frames) :
    (s.adoptChild loot future younger).frame s.frames =
      { madeFrame (if future then none else some loot) false
          (if future then some s.fibers else (s.frame loot).fiberSelf) with
        joinCounter := 1, strand := .running younger } := by
  have distinct : s.frames ≠ loot := Nat.ne_of_gt made
  cases future <;>
    simp [adoptChild, pushNextFrame, makeFutureChild, makeSpawnChild, incjoin, modify, distinct,
      madeFrame, TreeFrame.absent]

theorem adoptChild_other {s : SpawnTree} {loot g : Nat} {future : Bool} {younger : List SpawnLink}
    (notChild : g ≠ s.frames) (notLoot : g ≠ loot) :
    (s.adoptChild loot future younger).frame g = s.frame g := by
  cases future <;>
    simp [adoptChild, pushNextFrame, makeFutureChild, makeSpawnChild, incjoin, modify, notChild,
      notLoot]

theorem adoptChild_frames (s : SpawnTree) (loot : Nat) (future : Bool) (younger : List SpawnLink) :
    (s.adoptChild loot future younger).frames = s.frames + 1 := by
  cases future <;> rfl

theorem adoptChild_failures (s : SpawnTree) (loot : Nat) (future : Bool) (younger : List SpawnLink) :
    (s.adoptChild loot future younger).failures = s.failures := by
  cases future <;> rfl

end SpawnTree

/-- A thief takes a frame out of its deque. -/
theorem JoinInv.of_detach {s : SpawnTree} (inv : JoinInv s) {f : Nat} {callers : List SpawnLink}
    (strand : (s.frame f).strand = .running callers) :
    JoinInv ((s.decjoin f).modify f fun ff => { ff with strand := .held }) := by
  have frame := inv.frames f
  have owned : (s.frame f).strand.Owned := by simp [strand, FrameStrand.Owned]
  have alive : (s.frame f).strand ≠ .dead := by simp [strand]
  rw [decjoin_of_pos (frame.pos_of_owned owned)]
  refine inv.of_one alive (fun g other => ?_) rfl (.of_eq rfl) (by simp) (by simp) (by simp) ?_
  · rw [modify_frame_other other, modify_frame_other other]
  · have noCall := frame.noCall (by simp [strand])
    have counter := frame.counter
    rw [if_pos owned] at counter
    simp only [modify_frame_self]
    constructor
    · simp [FrameStrand.Owned, counter]
    · exact fun childless => absurd childless id
    · intro c member call
      simp [noCall c member] at call
    · simp
    · exact frame.callUnique
    · exact frame.synched
    · simp
    · simp
    · simp
    · simp
    · simpa [strand] using frame.counts

/-- A held frame is promoted together with the function it called. -/
theorem JoinInv.of_makeCallChild {s : SpawnTree} (inv : JoinInv s) {f : Nat}
    (strand : (s.frame f).strand = .held) : JoinInv (s.makeCallChild f) := by
  have frame := inv.frames f
  have alive : (s.frame f).strand ≠ .dead := by simp [strand]
  have made := inv.made alive
  have isCallNew : (s.makeCallChild f).isCall s.frames = true := by
    simp [SpawnTree.isCall, makeCallChild_child made, madeFrame]
  have isCallOld : ∀ c ∈ s.pendingChildren f, (s.makeCallChild f).isCall c = s.isCall c := by
    intro c member
    have old := (mem_pendingChildren.1 member).1
    by_cases isParent : c = f
    · subst isParent
      simp [SpawnTree.isCall, makeCallChild_parent made]
    · simp [SpawnTree.isCall, makeCallChild_other (Nat.ne_of_lt old) isParent]
  have frame' := frame.congr isCallOld
  have noCall := frame'.noCall (by simp [strand])
  refine inv.of_birth alive (fun g notChild notParent => makeCallChild_other notChild notParent) rfl
    (.of_eq rfl)
    (.inr (by simp [makeCallChild_child made, madeFrame]))
    (by simp [makeCallChild_child made, madeFrame]) (by simp [makeCallChild_parent made]) ?_ ?_
  · rw [makeCallChild_child made]
    apply JoinLocal.of_leaf <;> simp [madeFrame, TreeFrame.absent, FrameStrand.Owned]
  · have unmade : s.frames ∉ s.pendingChildren f := by simp [mem_pendingChildren]
    have counter := frame.counter
    simp only [strand, FrameStrand.Owned, if_false] at counter
    rw [if_pos (by simp [makeCallChild_child made, madeFrame]), makeCallChild_parent made]
    constructor
    · simp [counter, Finset.card_insert_of_notMem unmade, FrameStrand.Owned]
    · exact fun childless => absurd childless id
    · exact fun _ _ _ => rfl
    · exact fun _ => ⟨s.frames, Finset.mem_insert_self _ _, isCallNew⟩
    · intro c member c' member' call call'
      rcases Finset.mem_insert.1 member with rfl | old
      · rcases Finset.mem_insert.1 member' with rfl | old'
        · rfl
        · simp [noCall c' old'] at call'
      · simp [noCall c old] at call
    · intro flag c member
      rcases Finset.mem_insert.1 member with rfl | old
      · exact isCallNew
      · exact frame'.synched flag c old
    · simp
    · simp
    · simp
    · simp
    · simpa [strand] using frame.counts

/-- The thief takes the loot and leaves the child in its place. -/
theorem JoinInv.of_adoptChild {s : SpawnTree} (inv : JoinInv s) {loot : Nat} {future : Bool}
    {younger : List SpawnLink} (strand : (s.frame loot).strand = .held) :
    JoinInv (s.adoptChild loot future younger) := by
  have frame := inv.frames loot
  have alive : (s.frame loot).strand ≠ .dead := by simp [strand]
  have made := inv.made alive
  have isCallNew : (s.adoptChild loot future younger).isCall s.frames = false := by
    simp [SpawnTree.isCall, adoptChild_child made, madeFrame]
  have isCallOld : ∀ c ∈ s.pendingChildren loot,
      (s.adoptChild loot future younger).isCall c = s.isCall c := by
    intro c member
    have old := (mem_pendingChildren.1 member).1
    by_cases isLoot : c = loot
    · subst isLoot
      simp only [SpawnTree.isCall, adoptChild_loot made]
      split <;> rfl
    · simp [SpawnTree.isCall, adoptChild_other (Nat.ne_of_lt old) isLoot]
  have frame' := frame.congr isCallOld
  have noCall := frame'.noCall (by simp [strand])
  have counter := frame.counter
  have counts := frame.counts
  have unmade : s.frames ∉ s.pendingChildren loot := by simp [mem_pendingChildren]
  simp only [strand, FrameStrand.Owned, if_false] at counter
  refine inv.of_birth alive (fun g notChild notLoot => adoptChild_other notChild notLoot)
    (adoptChild_frames ..) (.of_eq (adoptChild_failures ..)) ?_ (by simp [adoptChild_child made]) ?_ ?_ ?_
  · rw [adoptChild_child made]
    cases future
    · exact .inr rfl
    · exact .inl rfl
  · rw [adoptChild_loot made]
    cases future <;> simp
  · rw [adoptChild_child made]
    apply JoinLocal.of_leaf <;> simp [madeFrame, TreeFrame.absent, FrameStrand.Owned]
  · rw [adoptChild_child made, adoptChild_loot made]
    cases future with
    | true =>
        simp only [madeFrame, if_true]
        constructor
        · simp [counter, FrameStrand.Owned]
        · exact fun childless => absurd childless id
        · intro c member call
          simp [noCall c member] at call
        · simp
        · exact frame'.callUnique
        · exact frame'.synched
        · simp
        · simp
        · simp
        · simp
        · simpa [strand] using counts
    | false =>
        simp only [madeFrame, Bool.false_eq_true, if_false, if_true]
        have noCallAll : ∀ c ∈ insert s.frames (s.pendingChildren loot),
            (s.adoptChild loot false younger).isCall c = false := by
          intro c member
          rcases Finset.mem_insert.1 member with rfl | old
          · exact isCallNew
          · exact noCall c old
        constructor
        · simp [counter, Finset.card_insert_of_notMem unmade, FrameStrand.Owned]
        · exact fun childless => absurd childless id
        · intro c member call
          simp [noCallAll c member] at call
        · simp
        · intro c member c' _ call
          simp [noCallAll c member] at call
        · simp
        · simp
        · simp
        · simp
        · simp
        · simpa [strand] using counts

/-- Only the loot is still held when the call stack is unrolled. -/
def SpawnTree.OnlyHeld (s : SpawnTree) (f : Nat) : Prop := ∀ g, (s.frame g).strand = .held → g = f

theorem JoinInv.of_unroll {s : SpawnTree} (inv : JoinInv s) {f : Nat}
    (strand : (s.frame f).strand = .held) (only : s.OnlyHeld f) (older : Nat) :
    JoinInv (s.unrollCallStack f older).1 ∧
      ((s.unrollCallStack f older).1.frame (s.unrollCallStack f older).2).strand = .held ∧
      (s.unrollCallStack f older).1.OnlyHeld (s.unrollCallStack f older).2 := by
  induction older generalizing s f with
  | zero => exact ⟨inv, strand, only⟩
  | succ older ih =>
      have made : f < s.frames := inv.made (by simp [strand])
      apply ih (inv.of_makeCallChild strand)
      · simp [makeCallChild_child made, madeFrame]
      · intro g held
        by_contra notChild
        by_cases isParent : g = f
        · subst isParent
          simp [makeCallChild_parent made] at held
        · rw [makeCallChild_other notChild isParent] at held
          exact isParent (only g held)

/-- No frame is held outside `detach_for_steal`. -/
def SpawnTree.NoneHeld (s : SpawnTree) : Prop := ∀ g, (s.frame g).strand ≠ .held

theorem JoinInv.noneHeld_of_adoptChild {s : SpawnTree} (inv : JoinInv s) {loot : Nat} {future : Bool}
    {younger : List SpawnLink} (strand : (s.frame loot).strand = .held) (only : s.OnlyHeld loot) :
    (s.adoptChild loot future younger).NoneHeld := by
  have made : loot < s.frames := inv.made (by simp [strand])
  intro g held
  by_cases isLoot : g = loot
  · subst isLoot
    rw [adoptChild_loot made] at held
    split at held <;> simp at held
  · by_cases isChild : g = s.frames
    · subst isChild
      rw [adoptChild_child made] at held
      simp at held
    · rw [adoptChild_other isChild isLoot] at held
      exact isLoot (only g held)

theorem JoinInv.of_detachForSteal {s : SpawnTree} (inv : JoinInv s) (none : s.NoneHeld) {f : Nat}
    {callers younger : List SpawnLink} {future : Bool} {older : Nat}
    (strand : (s.frame f).strand = .running callers) :
    JoinInv (s.detachForSteal f younger future older) ∧
      (s.detachForSteal f younger future older).NoneHeld := by
  have owned : (s.frame f).strand.Owned := by simp [strand, FrameStrand.Owned]
  have detached := inv.of_detach strand
  have only : SpawnTree.OnlyHeld ((s.decjoin f).modify f fun ff => { ff with strand := .held }) f := by
    intro g held
    by_contra other
    rw [modify_frame_other other, decjoin_of_pos ((inv.frames f).pos_of_owned owned),
      modify_frame_other other] at held
    exact none g held
  obtain ⟨unrolled, lootHeld, onlyLoot⟩ := detached.of_unroll (by simp) only older
  exact ⟨unrolled.of_adoptChild lootHeld, unrolled.noneHeld_of_adoptChild lootHeld onlyLoot⟩

/-! ### Syncs and returns -/

/-- The last arrival at a sync. -/
theorem JoinLocal.of_crossing {ff' : TreeFrame} {isCall : Nat → Bool}
    (strand : ff'.strand = .next) (counter : ff'.joinCounter = 1)
    (counts : ff'.syncs = ff'.crossings) : JoinLocal ff' ∅ isCall := by
  apply JoinLocal.of_leaf <;> simp [strand, FrameStrand.Owned, counter, counts]

/-- An arrival at a sync that is not the last one. -/
theorem JoinLocal.of_stalled {ff' : TreeFrame} {pending : Finset Nat} {isCall : Nat → Bool}
    (strand : ff'.strand = .stalled) (unsynched : ff'.unsynched = true)
    (counter : ff'.joinCounter = pending.card) (more : 0 < ff'.joinCounter)
    (noCall : ∀ c ∈ pending, isCall c = false) (counts : ff'.syncs = ff'.crossings + 1) :
    JoinLocal ff' pending isCall := by
  constructor
  · simp [strand, FrameStrand.Owned, counter]
  · intro childless
    rw [strand] at childless
    exact absurd childless id
  · intro c member call
    simp [noCall c member] at call
  · simp [strand]
  · intro c member _ _ call
    simp [noCall c member] at call
  · simp [unsynched]
  · exact fun _ => unsynched
  · exact fun _ => Finset.card_pos.1 (counter ▸ more)
  · simp [strand]
  · simp [strand]
  · simp [strand, counts]

/-- What `provably_good_steal` does to the frame. -/
theorem provablyGoodSteal_frame {s : SpawnTree} {f : Nat} (positive : 0 < (s.frame f).joinCounter) :
    (s.provablyGoodSteal f).frame f =
      if (s.frame f).joinCounter = 1 then
        { s.frame f with
          joinCounter := 1
          fiberSelf := (s.frame f).fiberChild
          fiberChild := none
          unsynched := false
          firstSpawn := none
          crossings := (s.frame f).crossings + 1
          strand := .next }
      else { s.frame f with joinCounter := (s.frame f).joinCounter - 1 } := by
  have last : (s.frame f).joinCounter - 1 = 0 ↔ (s.frame f).joinCounter = 1 := by omega
  unfold SpawnTree.provablyGoodSteal
  rw [decjoin_of_pos positive]
  simp only [modify_frame_self, last]
  split_ifs with zero
  · simp [provablyGoodStealStacks, markSynched, pushNextFrame, incjoin, zero]
  · simp

theorem provablyGoodSteal_other {s : SpawnTree} {f g : Nat} (other : g ≠ f) :
    (s.provablyGoodSteal f).frame g = s.frame g := by
  unfold SpawnTree.provablyGoodSteal decjoin
  dsimp only
  split <;>
    simp [provablyGoodStealStacks, markSynched, pushNextFrame, incjoin, modify_frame_other other]

@[simp] theorem provablyGoodSteal_frames (s : SpawnTree) (f : Nat) :
    (s.provablyGoodSteal f).frames = s.frames := by
  unfold SpawnTree.provablyGoodSteal decjoin
  dsimp only
  split <;> simp [provablyGoodStealStacks, markSynched, pushNextFrame, incjoin]

/-- The only assertions `provably_good_steal` can add to a positive counter are about fibers. -/
theorem provablyGoodSteal_failures {s : SpawnTree} {f : Nat} {assertion : TreeAssert}
    (positive : 0 < (s.frame f).joinCounter)
    (other : assertion ≠ .fiberSelf ∧ assertion ≠ .fiberChild) :
    assertion ∈ (s.provablyGoodSteal f).failures ↔ assertion ∈ s.failures := by
  unfold SpawnTree.provablyGoodSteal
  rw [decjoin_of_pos positive]
  dsimp only
  split
  · simp [provablyGoodStealStacks, markSynched, pushNextFrame, incjoin, check_failures other.1,
      check_failures other.2]
  · rfl

/-- The fields the join counters depend on. -/
structure TreeFrame.SameJoin (ff ff' : TreeFrame) : Prop where
  parent : ff'.parent = ff.parent
  isCallChild : ff'.isCallChild = ff.isCallChild
  joinCounter : ff'.joinCounter = ff.joinCounter
  unsynched : ff'.unsynched = ff.unsynched
  strand : ff'.strand = ff.strand
  counts : ff'.syncs = ff.syncs ∧ ff'.crossings = ff.crossings

theorem TreeFrame.SameJoin.refl (ff : TreeFrame) : TreeFrame.SameJoin ff ff :=
  ⟨rfl, rfl, rfl, rfl, rfl, rfl, rfl⟩

theorem JoinLocal.of_sameJoin {ff ff' : TreeFrame} {pending : Finset Nat} {isCall : Nat → Bool}
    (frame : JoinLocal ff pending isCall) (same : ff.SameJoin ff') : JoinLocal ff' pending isCall := by
  obtain ⟨-, isCallChild, joinCounter, unsynched, strand, syncs, crossings⟩ := same
  constructor
  · rw [joinCounter, strand]
    exact frame.counter
  · exact strand ▸ frame.childless
  · exact strand ▸ frame.called
  · exact strand ▸ frame.waiting
  · exact frame.callUnique
  · exact unsynched ▸ frame.synched
  · rw [strand, unsynched]
    exact frame.unsynched
  · exact strand ▸ frame.stalled
  · rw [strand, isCallChild]
    exact frame.spawnKind
  · rw [strand, isCallChild]
    exact frame.callKind
  · rw [syncs, crossings, strand]
    exact frame.counts

/-- The two trees differ in fibers, sibling links and assertions about fibers only. -/
structure SameTree (s s' : SpawnTree) : Prop where
  frame : ∀ g, (s.frame g).SameJoin (s'.frame g)
  frames : s'.frames = s.frames
  failures : CountersKept s s'
  dead : ∀ g, (s.frame g).strand = .dead → s'.frame g = s.frame g

theorem TreeFrame.SameJoin.trans {ff ff' ff'' : TreeFrame} (first : ff.SameJoin ff')
    (second : ff'.SameJoin ff'') : ff.SameJoin ff'' :=
  ⟨second.1.trans first.1, second.2.trans first.2, second.3.trans first.3, second.4.trans first.4,
    second.5.trans first.5, second.6.1.trans first.6.1, second.6.2.trans first.6.2⟩

theorem SameTree.trans {s s' s'' : SpawnTree} (first : SameTree s s') (second : SameTree s' s'') :
    SameTree s s'' where
  frame g := TreeFrame.SameJoin.trans (first.frame g) (second.frame g)
  frames := second.frames.trans first.frames
  failures := ⟨fun failed => first.failures.1 (second.failures.1 failed),
    fun failed => first.failures.2 (second.failures.2 failed)⟩
  dead g isDead := by
    rw [second.dead g (by rw [(first.frame g).strand, isDead]), first.dead g isDead]

theorem SameTree.of_check {s : SpawnTree} {holds : Bool} {assertion : TreeAssert}
    (other : assertion ≠ .joinCounter ∧ assertion ≠ .returnCounter) :
    SameTree s (s.check holds assertion) where
  frame g := by
    rw [check_frame]
    exact .refl _
  frames := check_frames ..
  failures := ⟨(check_failures other.1.symm).1, (check_failures other.2.symm).1⟩
  dead g _ := by rw [check_frame]

theorem SameTree.refl (s : SpawnTree) : SameTree s s :=
  ⟨fun _ => .refl _, rfl, .of_eq rfl, fun _ _ => rfl⟩

theorem SameTree.modify {s s' : SpawnTree} (before : SameTree s s') {f : Nat}
    {change : TreeFrame → TreeFrame} (alive : (s.frame f).strand ≠ .dead)
    (same : ∀ ff : TreeFrame, ff.SameJoin (change ff)) : SameTree s (s'.modify f change) := by
  refine before.trans ⟨?_, rfl, .of_eq rfl, ?_⟩
  · intro g
    by_cases here : g = f
    · subst here
      rw [modify_frame_self]
      exact same _
    · rw [modify_frame_other here]
      exact .refl _
  · intro g isDead
    rw [(before.frame g).strand] at isDead
    apply modify_frame_other
    rintro rfl
    exact alive isDead

theorem SameTree.fiberToFree {s s' : SpawnTree} (before : SameTree s s') {f : Nat}
    (alive : (s.frame f).strand ≠ .dead) : SameTree s (s'.fiberToFree f) := by
  have moved : SameTree s { s' with freed := s'.freed ++ (s'.frame f).fiberSelf.toList } :=
    ⟨before.frame, before.frames, before.failures, before.dead⟩
  exact moved.modify alive fun _ => ⟨rfl, rfl, rfl, rfl, rfl, rfl, rfl⟩

/-- A step on fibers and sibling links only. -/
theorem JoinInv.of_sameTree {s s' : SpawnTree} (inv : JoinInv s) (same : SameTree s s') :
    JoinInv s' := by
  have isCall : s'.isCall = s.isCall := funext fun g => (same.frame g).isCallChild
  have pending : ∀ g, s'.pendingChildren g = s.pendingChildren g := by
    apply pendingChildren_congr same.frames (fun g => (same.frame g).parent)
    intro g
    rw [(same.frame g).strand]
  refine ⟨?_, ?_, fun failed => inv.joinCounter (same.failures.1 failed),
    fun failed => inv.returnCounter (same.failures.2 failed)⟩
  · intro g unmade
    rw [same.frames] at unmade
    have isDead : (s.frame g).strand = .dead := by
      rw [inv.fresh g unmade]
      rfl
    rw [same.dead g isDead]
    exact inv.fresh g unmade
  · intro g
    rw [pending, isCall]
    exact (inv.frames g).of_sameJoin (same.frame g)

/-- The reductions at the end of a spawn do not touch the counters. -/
theorem JoinInv.sameTree_finishSpawnReturn {s : SpawnTree} (inv : JoinInv s) {child : Nat}
    (alive : (s.frame child).strand ≠ .dead) : SameTree s (s.finishSpawnReturn child) := by
  unfold finishSpawnReturn
  cases parentEq : (s.frame child).parent with
  | none => exact (SameTree.refl s).fiberToFree alive
  | some p =>
      have parentAlive : (s.frame p).strand ≠ .dead :=
        inv.parent_made (mem_pendingChildren.2 ⟨inv.made alive, parentEq, alive⟩)
      dsimp only
      split
      · have checked : SameTree s (s.check ((s.frame p).fiberChild ≠ (s.frame child).fiberSelf)
            .fiberToFree) := .of_check (by simp)
        apply (checked.fiberToFree alive).modify parentAlive
        exact fun _ => ⟨rfl, rfl, rfl, rfl, rfl, rfl, rfl⟩
      · apply (((SameTree.refl s).modify parentAlive _).modify alive _).modify parentAlive
        · exact fun _ => ⟨rfl, rfl, rfl, rfl, rfl, rfl, rfl⟩
        · exact fun _ => ⟨rfl, rfl, rfl, rfl, rfl, rfl, rfl⟩
        · exact fun _ => ⟨rfl, rfl, rfl, rfl, rfl, rfl, rfl⟩

theorem JoinInv.sameTree_spliceCallChild {s : SpawnTree} (inv : JoinInv s) {parent child : Nat}
    (pending : child ∈ s.pendingChildren parent) : SameTree s (s.spliceCallChild parent child) := by
  have alive := (mem_pendingChildren.1 pending).2.2
  have checked : SameTree s (s.check
      ((s.frame child).fiberChild.isNone ∧ (s.frame parent).fiberSelf.isNone) .spliceStacks) :=
    .of_check (by simp)
  unfold spliceCallChild
  apply (checked.modify (inv.parent_made pending) _).modify alive
  · exact fun _ => ⟨rfl, rfl, rfl, rfl, rfl, rfl, rfl⟩
  · exact fun _ => ⟨rfl, rfl, rfl, rfl, rfl, rfl, rfl⟩

/-- The step of a strand to another owned state. -/
theorem JoinInv.of_ownedStep {s s' : SpawnTree} (inv : JoinInv s) (same : SameTree s s') {f : Nat}
    {strand : FrameStrand} (owned : (s.frame f).strand.Owned) (owned' : strand.Owned)
    (unlinked : strand = .unlinked → s.pendingChildren f = ∅ ∧ (s.frame f).isCallChild = false)
    (syncing : strand = .syncing → (s.frame f).unsynched = true) :
    JoinInv (s'.modify f fun ff => { ff with strand := strand }) := by
  have notDead : ∀ strand : FrameStrand, strand.Owned → strand ≠ .dead := by
    rintro _ isOwned rfl
    exact isOwned
  have inv' := inv.of_sameTree same
  have sameFrame := same.frame f
  have pending : s'.pendingChildren f = s.pendingChildren f :=
    pendingChildren_congr same.frames (fun g => (same.frame g).parent)
      (fun g => by rw [(same.frame g).strand]) f
  refine inv'.of_one (sameFrame.strand ▸ notDead _ owned) (fun g other => modify_frame_other other _ _)
    rfl (.of_eq rfl) (by simp) (by simp) (by simpa using notDead _ owned') ?_
  rw [modify_frame_self]
  refine (inv'.frames f).of_owned (sameFrame.strand ▸ owned) owned' rfl rfl ⟨rfl, rfl⟩ ?_ ?_
  · rw [pending, sameFrame.isCallChild]
    exact unlinked
  · rw [sameFrame.unsynched]
    exact syncing

/-- The stalling parent arrives at the sync. -/
theorem JoinInv.of_doSync {s : SpawnTree} (inv : JoinInv s) {f : Nat}
    (strand : (s.frame f).strand = .syncing) :
    JoinInv ((s.modify f fun ff =>
      { ff with strand := .stalled, syncs := ff.syncs + 1 }).provablyGoodSteal f) := by
  have frame := inv.frames f
  have owned : (s.frame f).strand.Owned := by simp [strand, FrameStrand.Owned]
  have positive := frame.pos_of_owned owned
  have counter := frame.counter
  have counts := frame.counts
  simp only [if_pos owned] at counter
  simp only [strand, reduceCtorEq, if_false, Nat.add_zero] at counts
  have result := provablyGoodSteal_frame (s := s.modify f fun ff =>
    { ff with strand := .stalled, syncs := ff.syncs + 1 }) (f := f) (by simpa using positive)
  simp only [modify_frame_self] at result
  have alive : (s.frame f).strand ≠ .dead := by simp [strand]
  refine inv.of_one alive (fun g other => ?_) (by simp) ⟨?_, ?_⟩ ?_ ?_ ?_ ?_
  · rw [provablyGoodSteal_other other, modify_frame_other other]
  · exact (provablyGoodSteal_failures (by simpa using positive) (by simp)).1
  · exact (provablyGoodSteal_failures (by simpa using positive) (by simp)).1
  · rw [result]
    split <;> rfl
  · rw [result]
    split <;> rfl
  · rw [result]
    split <;> simp
  · rw [result]
    split
    · rename_i last
      have none : s.pendingChildren f = ∅ := Finset.card_eq_zero.1 (by omega)
      rw [none]
      exact .of_crossing rfl rfl (by simp [counts])
    · refine JoinLocal.of_stalled rfl ?_ ?_ ?_ ?_ ?_
      · exact frame.unsynched (.inl strand)
      · dsimp only
        omega
      · dsimp only
        omega
      · exact frame.noCall (by simp [strand])
      · simp [counts]

/-- `do_return_from_spawn` decrements the counter of the frame it is about to destroy. -/
theorem JoinInv.of_decjoinSelf {s : SpawnTree} (inv : JoinInv s) {f : Nat}
    (strand : (s.frame f).strand = .unlinked) :
    JoinInv ((s.decjoin f).modify f fun ff =>
      { ff with strand := if ff.parent.isSome then .leaving else .dead }) := by
  have frame := inv.frames f
  have owned : (s.frame f).strand.Owned := by simp [strand, FrameStrand.Owned]
  have empty : s.pendingChildren f = ∅ := frame.childless (by simp [strand, FrameStrand.Childless])
  have counter := frame.counter
  have counts := frame.counts
  rw [if_pos owned, empty] at counter
  rw [decjoin_of_pos (frame.pos_of_owned owned)]
  have others : ∀ g, g ≠ f → (((s.modify f fun ff => { ff with joinCounter := ff.joinCounter - 1 }).modify
      f fun ff => { ff with strand := if ff.parent.isSome then .leaving else .dead }).frame g) =
      s.frame g := by
    intro g other
    rw [modify_frame_other other, modify_frame_other other]
  have leaf : ∀ strand' : FrameStrand, strand' = .leaving ∨ strand' = .dead →
      JoinLocal { s.frame f with joinCounter := 0, strand := strand' } ∅ s.isCall := by
    rintro _ (rfl | rfl)
    · apply JoinLocal.of_leaf <;> simp [FrameStrand.Owned]
      · exact frame.spawnKind (.inl strand)
      · simpa [strand] using counts
    · apply JoinLocal.of_leaf <;> simp [FrameStrand.Owned]
      simpa [strand] using counts
  have zero : (s.frame f).joinCounter - 1 = 0 := by
    simp at counter
    omega
  cases parent : (s.frame f).parent with
  | some p =>
      have alive : (s.frame f).strand ≠ .dead := by simp [strand]
      refine inv.of_one alive others rfl (.of_eq rfl) (by simp) (by simp)
        (by simp [parent]) ?_
      rw [empty]
      simpa [parent, zero] using leaf .leaving (.inl rfl)
  | none =>
      -- The frame of a future has no parent to leave: it is destroyed at once.
      have pending : ∀ g, SpawnTree.pendingChildren ((s.modify f fun ff =>
          { ff with joinCounter := ff.joinCounter - 1 }).modify f fun ff =>
            { ff with strand := if ff.parent.isSome then .leaving else .dead }) g =
          s.pendingChildren g := by
        intro g
        ext c
        simp only [mem_pendingChildren, modify_frames]
        by_cases here : c = f
        · subst here
          simp [parent]
        · rw [others c here]
      refine ⟨?_, ?_, inv.joinCounter, inv.returnCounter⟩
      · intro g unmade
        have made : f < s.frames := inv.made (by simp [strand])
        simp only [modify_frames] at unmade
        rw [others g (by omega)]
        exact inv.fresh g unmade
      · intro g
        have isCall : SpawnTree.isCall ((s.modify f fun ff =>
            { ff with joinCounter := ff.joinCounter - 1 }).modify f fun ff =>
              { ff with strand := if ff.parent.isSome then .leaving else .dead }) = s.isCall := by
          funext c
          by_cases here : c = f
          · subst here
            simp [SpawnTree.isCall]
          · simp only [SpawnTree.isCall, others c here]
        rw [pending, isCall]
        by_cases here : g = f
        · subst here
          rw [empty]
          simpa [parent, zero] using leaf .dead (.inr rfl)
        · rw [others g here]
          exact inv.frames g

/-- A returning child arrives at its parent. -/
theorem JoinInv.of_decjoinParent {s : SpawnTree} (inv : JoinInv s) (noneHeld : s.NoneHeld) {c p : Nat}
    (strand : (s.frame c).strand = .leaving) (parentEq : (s.frame c).parent = some p) :
    JoinInv ((s.destroyFullFrame c).provablyGoodSteal p) ∧
      ((s.frame p).joinCounter = 1 → (s.frame p).strand = .stalled) := by
  have child := inv.frames c
  have frame := inv.frames p
  have made : c < s.frames := inv.made (by simp [strand])
  have pendingChild : c ∈ s.pendingChildren p :=
    mem_pendingChildren.2 ⟨made, parentEq, by simp [strand]⟩
  have empty : s.pendingChildren c = ∅ := child.childless (by simp [strand, FrameStrand.Childless])
  have distinct : p ≠ c := by
    rintro rfl
    simp [empty] at pendingChild
  have notCall : s.isCall c = false := child.spawnKind (.inr strand)
  have alive := inv.parent_made pendingChild
  have positive := frame.pos_of_pending pendingChild
  have card : ((s.pendingChildren p).erase c).card + 1 = (s.pendingChildren p).card :=
    Finset.card_erase_add_one pendingChild
  have counter := frame.counter
  have counts := frame.counts
  have noCall : (s.frame p).strand ≠ .waiting →
      ∀ d ∈ (s.pendingChildren p).erase c, s.isCall d = false := fun notWaiting d member =>
    frame.noCall notWaiting d (Finset.mem_of_mem_erase member)
  -- The last decrement finds the parent suspended at its sync.
  have lastStalled : (s.frame p).joinCounter = 1 → (s.frame p).strand = .stalled := by
    intro last
    have childless : ¬ (s.frame p).strand.Childless := fun childless => by
      simp [frame.childless childless] at pendingChild
    have onlyChild : (s.pendingChildren p).erase c = ∅ := Finset.card_eq_zero.1 (by omega)
    cases parentStrand : (s.frame p).strand with
    | stalled => rfl
    | held => exact absurd parentStrand (noneHeld p)
    | waiting =>
        obtain ⟨d, member, call⟩ := frame.waiting parentStrand
        have other : d ∈ (s.pendingChildren p).erase c := by
          refine Finset.mem_erase.2 ⟨?_, member⟩
          rintro rfl
          simp [notCall] at call
        simp [onlyChild] at other
    | running callers | next | syncing =>
        have owned : (s.frame p).strand.Owned := by rw [parentStrand]; trivial
        rw [if_pos owned] at counter
        omega
    | unlinked | leaving | disowned | dead =>
        rw [parentStrand] at childless
        exact absurd trivial childless
  refine ⟨?_, lastStalled⟩
  have result := provablyGoodSteal_frame (s := s.destroyFullFrame c) (f := p)
    (by simpa [destroyFullFrame, modify_frame_other distinct] using positive)
  simp only [destroyFullFrame, modify_frame_other distinct] at result
  refine inv.of_death pendingChild (fun g notChild notParent => ?_) (by simp [destroyFullFrame])
    ⟨?_, ?_⟩ ?_ ?_ ?_ ?_
  · rw [provablyGoodSteal_other notParent, destroyFullFrame, modify_frame_other notChild]
  · apply (provablyGoodSteal_failures _ (by simp)).1
    simpa [destroyFullFrame, modify_frame_other distinct] using positive
  · apply (provablyGoodSteal_failures _ (by simp)).1
    simpa [destroyFullFrame, modify_frame_other distinct] using positive
  · rw [provablyGoodSteal_other distinct.symm]
    simp [destroyFullFrame]
  · rw [destroyFullFrame, result]
    split <;> simp [alive]
  · rw [provablyGoodSteal_other distinct.symm, empty]
    have childCounter := child.counter
    have childCounts := child.counts
    simp only [strand, FrameStrand.Owned, empty, Finset.card_empty, if_false] at childCounter
    simp only [strand, reduceCtorEq, if_false, Nat.add_zero] at childCounts
    apply JoinLocal.of_leaf <;>
      simp [destroyFullFrame, FrameStrand.Owned, childCounter, childCounts]
  · rw [destroyFullFrame, result]
    split
    · rename_i last
      have onlyChild : (s.pendingChildren p).erase c = ∅ := Finset.card_eq_zero.1 (by omega)
      rw [onlyChild]
      refine .of_crossing rfl rfl ?_
      simpa [lastStalled last] using counts
    · rename_i more
      -- The parent goes on as it was, with one child less.
      constructor
      · dsimp only
        omega
      · intro childless
        simp [frame.childless childless] at pendingChild
      · exact fun d member => frame.called d (Finset.mem_of_mem_erase member)
      · intro waits
        obtain ⟨d, member, call⟩ := frame.waiting waits
        refine ⟨d, Finset.mem_erase.2 ⟨?_, member⟩, call⟩
        rintro rfl
        simp [notCall] at call
      · intro d member d' member'
        exact frame.callUnique d (Finset.mem_of_mem_erase member) d' (Finset.mem_of_mem_erase member')
      · exact fun flag d member => frame.synched flag d (Finset.mem_of_mem_erase member)
      · exact frame.unsynched
      · intro isStalled
        apply Finset.card_pos.1
        have free : ¬ (s.frame p).strand.Owned := by
          rw [show (s.frame p).strand = .stalled from isStalled]
          exact id
        rw [if_neg free] at counter
        omega
      · exact frame.spawnKind
      · exact frame.callKind
      · exact counts

/-- `__cilkrts_return` disowns the frame. -/
theorem JoinInv.of_callReturn {s : SpawnTree} (inv : JoinInv s) {f : Nat}
    (strand : (s.frame f).strand = .running []) (synched : (s.frame f).unsynched = false)
    (isCall : (s.frame f).isCallChild = true) :
    JoinInv (((s.check ((s.frame f).joinCounter = 1) .returnCounter).decjoin f).modify f fun ff =>
      { ff with strand := .disowned }) := by
  have frame := inv.frames f
  have owned : (s.frame f).strand.Owned := by simp [strand, FrameStrand.Owned]
  have empty := frame.pending_of_synched (by simp [strand]) synched
  have counter := frame.counter
  have counts := frame.counts
  rw [if_pos owned, empty, Finset.card_empty] at counter
  rw [check_of_true (by simpa using counter), decjoin_of_pos (frame.pos_of_owned owned)]
  have alive : (s.frame f).strand ≠ .dead := by simp [strand]
  refine inv.of_one alive (fun g other => ?_) rfl (.of_eq rfl) (by simp) (by simp) (by simp) ?_
  · rw [modify_frame_other other, modify_frame_other other]
  · rw [empty]
    simp only [modify_frame_self]
    apply JoinLocal.of_leaf <;> simp [FrameStrand.Owned, counter, isCall]
    simpa [strand] using counts

/-- The parent of a called frame goes on. -/
theorem JoinInv.of_finalizeCall {s : SpawnTree} (inv : JoinInv s) {c p : Nat}
    (strand : (s.frame c).strand = .disowned) (parentEq : (s.frame c).parent = some p) :
    JoinInv (((s.spliceCallChild p c).destroyFullFrame c).unconditionalSteal p) := by
  have made : c < s.frames := inv.made (by simp [strand])
  have pendingChild : c ∈ s.pendingChildren p :=
    mem_pendingChildren.2 ⟨made, parentEq, by simp [strand]⟩
  have same := inv.sameTree_spliceCallChild pendingChild
  have inv' := inv.of_sameTree same
  have pending : ∀ g, (s.spliceCallChild p c).pendingChildren g = s.pendingChildren g :=
    pendingChildren_congr same.frames (fun g => (same.frame g).parent)
      (fun g => by rw [(same.frame g).strand])
  generalize s.spliceCallChild p c = t at *
  have strand' : (t.frame c).strand = .disowned := (same.frame c).strand.trans strand
  have child := inv'.frames c
  have frame := inv'.frames p
  have pendingChild' : c ∈ t.pendingChildren p := by rwa [pending]
  have empty : t.pendingChildren c = ∅ := child.childless (by simp [strand', FrameStrand.Childless])
  have distinct : p ≠ c := by
    rintro rfl
    simp [empty] at pendingChild'
  have isCall : t.isCall c = true := child.callKind strand'
  have waits := frame.called c pendingChild' isCall
  have positive := frame.pos_of_pending pendingChild'
  have card : ((t.pendingChildren p).erase c).card + 1 = (t.pendingChildren p).card :=
    Finset.card_erase_add_one pendingChild'
  have counter := frame.counter
  have counts := frame.counts
  have childCounter := child.counter
  have childCounts := child.counts
  simp only [waits, FrameStrand.Owned, if_false] at counter
  simp only [waits, reduceCtorEq, if_false, Nat.add_zero] at counts
  simp only [strand', FrameStrand.Owned, empty, Finset.card_empty, if_false] at childCounter
  simp only [strand', reduceCtorEq, if_false, Nat.add_zero] at childCounts
  have noCall : ∀ d ∈ (t.pendingChildren p).erase c, t.isCall d = false := by
    intro d member
    cases call : t.isCall d with
    | false => rfl
    | true =>
        have same := frame.callUnique d (Finset.mem_of_mem_erase member) c pendingChild' call isCall
        exact absurd same (Finset.ne_of_mem_erase member)
  unfold unconditionalSteal
  rw [decjoin_of_pos (by simpa [destroyFullFrame, modify_frame_other distinct] using positive)]
  refine inv'.of_death pendingChild' (fun g notChild notParent => ?_) rfl (.of_eq rfl)
    ?_ ?_ ?_ ?_
  · simp [pushNextFrame, incjoin, destroyFullFrame, modify_frame_other notParent,
      modify_frame_other notChild]
  · simp [pushNextFrame, incjoin, destroyFullFrame, modify_frame_other distinct.symm]
  · simp [pushNextFrame, incjoin, destroyFullFrame, modify_frame_other distinct]
  · rw [empty]
    simp only [pushNextFrame, incjoin, destroyFullFrame, modify_frame_other distinct.symm,
      modify_frame_self]
    apply JoinLocal.of_leaf <;> simp [FrameStrand.Owned, childCounter, childCounts]
  · simp only [pushNextFrame, incjoin, destroyFullFrame, modify_frame_other distinct,
      modify_frame_self]
    constructor
    · have sum : (t.frame p).joinCounter - 1 + 1 = ((t.pendingChildren p).erase c).card + 1 := by omega
      exact sum
    · exact fun childless => absurd childless id
    · intro d member call
      simp [noCall d member] at call
    · simp
    · intro d member _ _ call
      simp [noCall d member] at call
    · exact fun flag d member => frame.synched flag d (Finset.mem_of_mem_erase member)
    · simp
    · simp
    · simp
    · simp
    · simpa using counts

/-! ### Every step -/

/-- A step at one frame leaves no frame held if the frame's new strand is not. -/
theorem noneHeld_of_frames {s s' : SpawnTree} (noneHeld : s.NoneHeld)
    (strand : ∀ g, (s'.frame g).strand = (s.frame g).strand ∨ (s'.frame g).strand ≠ .held) :
    s'.NoneHeld := by
  intro g held
  rcases strand g with same | other
  · exact noneHeld g (same ▸ held)
  · exact other held

theorem provablyGoodSteal_strand (s : SpawnTree) (f g : Nat) :
    ((s.provablyGoodSteal f).frame g).strand = (s.frame g).strand ∨
      ((s.provablyGoodSteal f).frame g).strand = .next := by
  by_cases here : g = f
  · subst here
    unfold SpawnTree.provablyGoodSteal decjoin
    dsimp only
    split
    · exact .inr (by simp [pushNextFrame])
    · exact .inl (by simp)
  · exact .inl (by rw [provablyGoodSteal_other here])

/-- What holds in every reachable state. -/
structure TreeInv (s : SpawnTree) : Prop extends JoinInv s where
  noneHeld : s.NoneHeld

theorem TreeInv.of_initial : TreeInv .initial := by
  have strands : ∀ f, (SpawnTree.initial.frame f).strand = .running [] ∨
      (SpawnTree.initial.frame f).strand = .dead := by
    intro f
    by_cases root : f = 0 <;> simp [SpawnTree.initial, root, TreeFrame.absent]
  have parents : ∀ f, (SpawnTree.initial.frame f).parent = none := by
    intro f
    by_cases root : f = 0 <;> simp [SpawnTree.initial, root, TreeFrame.absent]
  refine ⟨⟨?_, ?_, by simp [SpawnTree.initial], by simp [SpawnTree.initial]⟩, ?_⟩
  · intro f unmade
    have notRoot : f ≠ 0 := by
      rintro rfl
      simp [SpawnTree.initial] at unmade
    simp [SpawnTree.initial, notRoot]
  · intro f
    have empty : SpawnTree.initial.pendingChildren f = ∅ := by
      ext c
      simp [mem_pendingChildren, parents]
    rw [empty]
    by_cases root : f = 0
    · apply JoinLocal.of_leaf <;> simp [SpawnTree.initial, root, TreeFrame.absent, FrameStrand.Owned]
    · apply JoinLocal.of_leaf <;> simp [SpawnTree.initial, root, TreeFrame.absent, FrameStrand.Owned]
  · intro f held
    rcases strands f with running | dead
    · simp [running] at held
    · simp [dead] at held

/-- A strand step inside an owned frame. -/
theorem TreeInv.of_ownedStep {s s' : SpawnTree} (inv : TreeInv s) (same : SameTree s s') {f : Nat}
    {strand : FrameStrand} (owned : (s.frame f).strand.Owned) (owned' : strand.Owned)
    (unlinked : strand = .unlinked → s.pendingChildren f = ∅ ∧ (s.frame f).isCallChild = false)
    (syncing : strand = .syncing → (s.frame f).unsynched = true) :
    TreeInv (s'.modify f fun ff => { ff with strand := strand }) := by
  refine ⟨inv.toJoinInv.of_ownedStep same owned owned' unlinked syncing, ?_⟩
  apply noneHeld_of_frames inv.noneHeld
  intro g
  by_cases here : g = f
  · subst here
    refine .inr ?_
    rw [modify_frame_self]
    rintro rfl
    exact owned'
  · exact .inl (by rw [modify_frame_other here, (same.frame g).strand])

theorem TreeInv.of_step {s s' : SpawnTree} {label : TreeLabel} (inv : TreeInv s)
    (taken : spawnTreeStep s label = some s') : TreeInv s' := by
  have join := inv.toJoinInv
  cases label with
  | invoke f link =>
      cases strand : (s.frame f).strand <;> simp [spawnTreeStep, strand] at taken
      rw [← taken]
      exact inv.of_ownedStep (.refl s) (by rw [strand]; trivial) trivial (by simp) (by simp)
  | leave f =>
      cases strand : (s.frame f).strand <;> simp [spawnTreeStep, strand] at taken
      rename_i callers
      cases callers with
      | nil => simp at taken
      | cons link callers =>
          simp only [Option.some.injEq] at taken
          rw [← taken]
          exact inv.of_ownedStep (.refl s) (by rw [strand]; trivial) trivial (by simp) (by simp)
  | steal f =>
      cases strand : (s.frame f).strand <;> simp [spawnTreeStep, strand] at taken
      rename_i callers
      split at taken
      · simp only [Option.some.injEq] at taken
        rw [← taken]
        exact ⟨(join.of_detachForSteal inv.noneHeld strand).1,
          (join.of_detachForSteal inv.noneHeld strand).2⟩
      · simp at taken
  | resume f =>
      cases strand : (s.frame f).strand <;> simp [spawnTreeStep, strand] at taken
      rw [← taken]
      exact inv.of_ownedStep (.refl s) (by rw [strand]; trivial) trivial (by simp) (by simp)
  | sync f =>
      simp only [spawnTreeStep] at taken
      split at taken
      · rename_i atSync
        cases taken
        have owned : (s.frame f).strand.Owned := by rw [atSync.1]; trivial
        exact inv.of_ownedStep ((SameTree.refl s).fiberToFree (by simp [atSync.1])) owned trivial
          (by simp) (fun _ => atSync.2)
      · simp at taken
  | doSync f =>
      simp only [spawnTreeStep] at taken
      split at taken
      · rename_i strand
        cases taken
        refine ⟨join.of_doSync strand, ?_⟩
        apply noneHeld_of_frames inv.noneHeld
        intro g
        rcases provablyGoodSteal_strand (s.modify f fun ff =>
          { ff with strand := .stalled, syncs := ff.syncs + 1 }) f g with same | next
        · by_cases here : g = f
          · subst here
            refine .inr ?_
            rw [same]
            simp
          · rw [modify_frame_other here] at same
            exact .inl same
        · exact .inr (by simp [next])
      · simp at taken
  | spawnReturn f =>
      simp only [spawnTreeStep] at taken
      split at taken
      · rename_i returns
        cases taken
        have owned : (s.frame f).strand.Owned := by rw [returns.1]; trivial
        have empty := (join.frames f).pending_of_synched (by simp [returns.1]) returns.2.1
        exact inv.of_ownedStep (join.sameTree_finishSpawnReturn (by simp [returns.1])) owned trivial
          (fun _ => ⟨empty, returns.2.2.1⟩) (by simp)
      · simp at taken
  | decjoinSelf f =>
      simp only [spawnTreeStep] at taken
      split at taken
      · rename_i strand
        cases taken
        refine ⟨join.of_decjoinSelf strand, ?_⟩
        apply noneHeld_of_frames inv.noneHeld
        intro g
        by_cases here : g = f
        · subst here
          refine .inr ?_
          rw [modify_frame_self]
          dsimp only
          split <;> simp
        · refine .inl ?_
          rw [modify_frame_other here, decjoin, modify_frame_other here, check_frame]
      · simp at taken
  | decjoinParent f =>
      cases strand : (s.frame f).strand <;> cases parent : (s.frame f).parent <;>
        simp [spawnTreeStep, strand, parent] at taken
      rw [← taken]
      refine ⟨(join.of_decjoinParent inv.noneHeld strand parent).1, ?_⟩
      apply noneHeld_of_frames inv.noneHeld
      intro g
      rcases provablyGoodSteal_strand (s.destroyFullFrame f) _ g with same | next
      · by_cases here : g = f
        · subst here
          refine .inr ?_
          rw [same]
          simp [destroyFullFrame]
        · rw [destroyFullFrame, modify_frame_other here] at same
          exact .inl same
      · exact .inr (by simp [next])
  | callReturn f =>
      simp only [spawnTreeStep] at taken
      split at taken
      · rename_i returns
        cases taken
        refine ⟨join.of_callReturn returns.1 returns.2.1 returns.2.2, ?_⟩
        apply noneHeld_of_frames inv.noneHeld
        intro g
        by_cases here : g = f
        · subst here
          exact .inr (by simp)
        · refine .inl ?_
          rw [modify_frame_other here, decjoin, modify_frame_other here, check_frame, check_frame]
      · simp at taken
  | finalizeCall f =>
      cases strand : (s.frame f).strand <;> cases parent : (s.frame f).parent <;>
        simp [spawnTreeStep, strand, parent] at taken
      rename_i p
      rw [← taken]
      refine ⟨join.of_finalizeCall strand parent, ?_⟩
      have pendingChild : f ∈ s.pendingChildren p :=
        mem_pendingChildren.2 ⟨join.made (by simp [strand]), parent, by simp [strand]⟩
      have same := join.sameTree_spliceCallChild pendingChild
      apply noneHeld_of_frames inv.noneHeld
      intro g
      by_cases isParent : g = p
      · subst isParent
        exact .inr (by simp [unconditionalSteal, pushNextFrame])
      · by_cases isChild : g = f
        · subst isChild
          refine .inr ?_
          simp [unconditionalSteal, pushNextFrame, incjoin, decjoin, modify_frame_other isParent,
            destroyFullFrame]
        · refine .inl ?_
          simp [unconditionalSteal, pushNextFrame, incjoin, decjoin, modify_frame_other isParent,
            destroyFullFrame, modify_frame_other isChild, (same.frame g).strand]

theorem treeInv_reachable {s : SpawnTree} (reachable : spawnTreeMachine.Reachable s) : TreeInv s :=
  reachable.invariant (fun _ initial => initial ▸ .of_initial)
    (fun _ _ _ _ inv taken => inv.of_step taken)

/-! ### Crossings -/

/-- No frame crosses a sync. -/
def SameCrossings (s s' : SpawnTree) : Prop :=
  ∀ g, (s'.frame g).crossings = (s.frame g).crossings

theorem SameCrossings.trans {s s' s'' : SpawnTree} (first : SameCrossings s s')
    (second : SameCrossings s' s'') : SameCrossings s s'' :=
  fun g => (second g).trans (first g)

theorem SameCrossings.modify {s s' : SpawnTree} (before : SameCrossings s s') {f : Nat}
    {change : TreeFrame → TreeFrame} (same : ∀ ff, (change ff).crossings = ff.crossings) :
    SameCrossings s (s'.modify f change) := by
  intro g
  by_cases here : g = f
  · subst here
    rw [modify_frame_self, same, before]
  · rw [modify_frame_other here, before]

theorem SameCrossings.decjoin {s s' : SpawnTree} (before : SameCrossings s s') (f : Nat) :
    SameCrossings s (s'.decjoin f) := by
  unfold SpawnTree.decjoin
  apply SameCrossings.modify
  · intro g
    rw [check_frame, before]
  · exact fun _ => rfl

theorem SameTree.sameCrossings {s s' : SpawnTree} (same : SameTree s s') : SameCrossings s s' :=
  fun g => (same.frame g).counts.2

theorem JoinInv.sameCrossings_unroll {s : SpawnTree} (inv : JoinInv s) {f : Nat}
    (strand : (s.frame f).strand = .held) (older : Nat) :
    SameCrossings s (s.unrollCallStack f older).1 := by
  induction older generalizing s f with
  | zero => exact fun _ => rfl
  | succ older ih =>
      have made : f < s.frames := inv.made (by simp [strand])
      refine SameCrossings.trans ?_ (ih (inv.of_makeCallChild strand)
        (by simp [makeCallChild_child made, madeFrame]))
      intro g
      by_cases isChild : g = s.frames
      · subst isChild
        rw [makeCallChild_child made, inv.fresh _ (Nat.le_refl _)]
        rfl
      · by_cases isParent : g = f
        · rw [isParent, makeCallChild_parent made]
        · rw [makeCallChild_other isChild isParent]

theorem JoinInv.sameCrossings_adoptChild {s : SpawnTree} (inv : JoinInv s) {loot : Nat} {future : Bool}
    {younger : List SpawnLink} (strand : (s.frame loot).strand = .held) :
    SameCrossings s (s.adoptChild loot future younger) := by
  have made : loot < s.frames := inv.made (by simp [strand])
  intro g
  by_cases isChild : g = s.frames
  · subst isChild
    rw [adoptChild_child made, inv.fresh _ (Nat.le_refl _)]
    rfl
  · by_cases isLoot : g = loot
    · rw [isLoot, adoptChild_loot made]
      split <;> rfl
    · rw [adoptChild_other isChild isLoot]

theorem JoinInv.sameCrossings_detachForSteal {s : SpawnTree} (inv : JoinInv s)
    (noneHeld : s.NoneHeld) {f : Nat} {callers younger : List SpawnLink} {future : Bool} {older : Nat}
    (strand : (s.frame f).strand = .running callers) :
    SameCrossings s (s.detachForSteal f younger future older) := by
  have owned : (s.frame f).strand.Owned := by simp [strand, FrameStrand.Owned]
  have only : SpawnTree.OnlyHeld ((s.decjoin f).modify f fun ff => { ff with strand := .held }) f := by
    intro g held
    by_contra other
    rw [modify_frame_other other, decjoin_of_pos ((inv.frames f).pos_of_owned owned),
      modify_frame_other other] at held
    exact noneHeld g held
  have detached := inv.of_detach strand
  obtain ⟨unrolled, lootHeld, -⟩ := detached.of_unroll (by simp) only older
  have first : SameCrossings s ((s.decjoin f).modify f fun ff => { ff with strand := .held }) :=
    (SameCrossings.decjoin (fun _ => rfl) f).modify fun _ => rfl
  exact (first.trans (detached.sameCrossings_unroll (by simp) older)).trans
    (unrolled.sameCrossings_adoptChild lootHeld)

/-- Only an arrival at a sync can cross it. -/
theorem TreeInv.sameCrossings {s s' : SpawnTree} {label : TreeLabel} (inv : TreeInv s)
    (notArrival : (∀ f, label ≠ .doSync f) ∧ ∀ f, label ≠ .decjoinParent f)
    (taken : spawnTreeStep s label = some s') : SameCrossings s s' := by
  have join := inv.toJoinInv
  have refl : SameCrossings s s := fun _ => rfl
  cases label with
  | doSync f => exact absurd rfl (notArrival.1 f)
  | decjoinParent f => exact absurd rfl (notArrival.2 f)
  | invoke f link =>
      cases strand : (s.frame f).strand <;> simp [spawnTreeStep, strand] at taken
      exact taken ▸ refl.modify fun _ => rfl
  | leave f =>
      cases strand : (s.frame f).strand <;> simp [spawnTreeStep, strand] at taken
      rename_i callers
      cases callers with
      | nil => simp at taken
      | cons link callers =>
          simp only [Option.some.injEq] at taken
          exact taken ▸ refl.modify fun _ => rfl
  | steal f =>
      cases strand : (s.frame f).strand <;> simp [spawnTreeStep, strand] at taken
      rename_i callers
      split at taken
      · simp only [Option.some.injEq] at taken
        exact taken ▸ join.sameCrossings_detachForSteal inv.noneHeld strand
      · simp at taken
  | resume f =>
      cases strand : (s.frame f).strand <;> simp [spawnTreeStep, strand] at taken
      exact taken ▸ refl.modify fun _ => rfl
  | sync f =>
      simp only [spawnTreeStep] at taken
      split at taken
      · rename_i atSync
        cases taken
        have freed := (SameTree.refl s).fiberToFree (f := f) (by simp [atSync.1])
        exact freed.sameCrossings.modify fun _ => rfl
      · simp at taken
  | spawnReturn f =>
      simp only [spawnTreeStep] at taken
      split at taken
      · rename_i returns
        cases taken
        have alive : (s.frame f).strand ≠ .dead := by simp [returns.1]
        have finished := join.sameTree_finishSpawnReturn alive
        exact finished.sameCrossings.modify fun _ => rfl
      · simp at taken
  | decjoinSelf f =>
      simp only [spawnTreeStep] at taken
      split at taken
      · cases taken
        exact (refl.decjoin f).modify fun _ => rfl
      · simp at taken
  | callReturn f =>
      simp only [spawnTreeStep] at taken
      split at taken
      · cases taken
        have checked : SameCrossings s
            (s.check ((s.frame f).joinCounter = 1) .returnCounter) := by
          intro g
          rw [check_frame]
        exact (checked.decjoin f).modify fun _ => rfl
      · simp at taken
  | finalizeCall f =>
      cases strand : (s.frame f).strand <;> cases parent : (s.frame f).parent <;>
        simp [spawnTreeStep, strand, parent] at taken
      rename_i p
      rw [← taken]
      have pendingChild : f ∈ s.pendingChildren p :=
        mem_pendingChildren.2 ⟨join.made (by simp [strand]), parent, by simp [strand]⟩
      have spliced := (join.sameTree_spliceCallChild pendingChild).sameCrossings
      have destroyed : SameCrossings s ((s.spliceCallChild p f).destroyFullFrame f) :=
        spliced.modify fun _ => rfl
      unfold unconditionalSteal pushNextFrame incjoin
      apply ((destroyed.decjoin p).modify _).modify
      · exact fun _ => rfl
      · exact fun _ => rfl

/-- The arrival that brings the counter to 0 pushes the frame; all its children have decremented it. -/
theorem TreeInv.crossing {s s' : SpawnTree} {label : TreeLabel} (inv : TreeInv s)
    (taken : spawnTreeStep s label = some s') {f : Nat}
    (crosses : (s'.frame f).crossings ≠ (s.frame f).crossings) :
    (label = .doSync f ∨
        ∃ c, label = .decjoinParent c ∧ (s.frame c).parent = some f ∧ (s.frame f).strand = .stalled) ∧
      (s'.frame f).crossings = (s.frame f).crossings + 1 ∧ (s'.frame f).strand = .next ∧
      s'.pendingChildren f = ∅ := by
  have inv' := inv.of_step taken
  have emptyOf : (s'.frame f).strand = .next → (s'.frame f).joinCounter = 1 →
      s'.pendingChildren f = ∅ := by
    intro strand counter
    have accounting := (inv'.frames f).counter
    have owned : (s'.frame f).strand.Owned := by rw [strand]; trivial
    rw [if_pos owned] at accounting
    exact Finset.card_eq_zero.1 (by omega)
  by_cases arrival : (∀ f, label ≠ .doSync f) ∧ ∀ f, label ≠ .decjoinParent f
  · exact absurd (inv.sameCrossings arrival taken f) crosses
  · cases label with
    | doSync g =>
        simp only [spawnTreeStep] at taken
        split at taken
        · rename_i strand
          cases taken
          have frame := inv.frames g
          have positive := frame.pos_of_owned (by rw [strand]; trivial)
          by_cases here : f = g
          · subst here
            have result := provablyGoodSteal_frame (s := s.modify f fun ff =>
              { ff with strand := .stalled, syncs := ff.syncs + 1 }) (f := f) (by simpa using positive)
            simp only [modify_frame_self] at result
            rw [result] at crosses emptyOf ⊢
            split at crosses
            · rename_i last
              rw [if_pos last] at emptyOf ⊢
              exact ⟨.inl rfl, rfl, rfl, emptyOf rfl rfl⟩
            · exact absurd rfl crosses
          · rw [provablyGoodSteal_other here, modify_frame_other here] at crosses
            exact absurd rfl crosses
        · simp at taken
    | decjoinParent c =>
        cases strand : (s.frame c).strand <;> cases parent : (s.frame c).parent <;>
          simp [spawnTreeStep, strand, parent] at taken
        rename_i p
        rw [← taken] at crosses emptyOf ⊢
        have lastStalled := (inv.toJoinInv.of_decjoinParent inv.noneHeld strand parent).2
        have empty : s.pendingChildren c = ∅ :=
          (inv.frames c).childless (by simp [strand, FrameStrand.Childless])
        have pendingChild : c ∈ s.pendingChildren p :=
          mem_pendingChildren.2 ⟨inv.toJoinInv.made (by simp [strand]), parent, by simp [strand]⟩
        have distinct : p ≠ c := by
          rintro rfl
          simp [empty] at pendingChild
        have positive := (inv.frames p).pos_of_pending pendingChild
        by_cases here : f = p
        · subst here
          have result := provablyGoodSteal_frame (s := s.destroyFullFrame c) (f := f)
            (by simpa [destroyFullFrame, modify_frame_other distinct] using positive)
          simp only [destroyFullFrame, modify_frame_other distinct] at result
          rw [destroyFullFrame, result] at crosses
          simp only [destroyFullFrame, result] at emptyOf ⊢
          split at crosses
          · rename_i last
            simp only [if_pos last] at emptyOf ⊢
            exact ⟨.inr ⟨c, rfl, parent, lastStalled last⟩, trivial, trivial, emptyOf trivial trivial⟩
          · exact absurd rfl crosses
        · rw [provablyGoodSteal_other here] at crosses
          by_cases isChild : f = c
          · subst isChild
            simp [destroyFullFrame] at crosses
          · rw [destroyFullFrame, modify_frame_other isChild] at crosses
            exact absurd rfl crosses
    | _ => exact absurd (by simp) arrival

/-- Join counters. In every reachable state each full frame's counter is the number of its children that
    have not decremented it yet, plus one if the frame is owned, and `decjoin` was never called on a
    counter that was 0. A frame has crossed each sync it arrived at once, except that one which is stalled
    has not crossed the last one, and still has a child to return; and the step that crosses a sync is the
    arrival of the parent itself or of a child of the stalled parent, pushes the frame, and leaves no child
    that has not decremented the counter. -/
theorem join_counter_accounting {s : SpawnTree} (reachable : spawnTreeMachine.Reachable s) :
    (∀ f, (s.frame f).joinCounter =
        (s.pendingChildren f).card + if (s.frame f).strand.Owned then 1 else 0) ∧
      .joinCounter ∉ s.failures ∧
      (∀ f, (s.frame f).syncs =
          (s.frame f).crossings + (if (s.frame f).strand = .stalled then 1 else 0) ∧
        ((s.frame f).strand = .stalled → (s.pendingChildren f).Nonempty)) ∧
      ∀ label s', spawnTreeStep s label = some s' → ∀ f,
        (s'.frame f).crossings ≠ (s.frame f).crossings →
        (label = .doSync f ∨ ∃ c, label = .decjoinParent c ∧ (s.frame c).parent = some f ∧
            (s.frame f).strand = .stalled) ∧
          (s'.frame f).crossings = (s.frame f).crossings + 1 ∧ (s'.frame f).strand = .next ∧
          s'.pendingChildren f = ∅ := by
  have inv := treeInv_reachable reachable
  refine ⟨fun f => (inv.frames f).counter, inv.joinCounter, fun f => ⟨(inv.frames f).counts,
    (inv.frames f).stalled⟩, ?_⟩
  intro label s' taken f crosses
  exact inv.crossing taken crosses

/-- One spawn is stolen; the parent stalls, and the returning child crosses its sync. -/
def stolenSpawnTrace : List TreeLabel :=
  [.invoke 0 .spawned, .steal 0, .resume 0, .sync 0, .doSync 0, .spawnReturn 1, .decjoinSelf 1,
    .decjoinParent 1]

theorem join_counter_accounting_stolen :
    ((spawnTreeMachine.after .initial stolenSpawnTrace).frame 0).crossings = 1 ∧
      .joinCounter ∉ (spawnTreeMachine.after .initial stolenSpawnTrace).failures :=
  ⟨by decide, (join_counter_accounting (.after (.start rfl) stolenSpawnTrace)).2.1⟩

end CilkL
