/-
Module: CilkL.Proofs.LeftHolder
Layer: Proofs
Purpose: The left-holder rule. Every fiber given to a frame is in one place: with the frame that runs on
  it, passed up to a parent by its leftmost child, or handed to `fiber_to_free`. A frame that has synched
  runs on the fiber it was made with, so the first stolen child of a sync region returns on the fiber the
  frame was running on before, and the frame crosses its sync on that fiber.
Imports: CilkL.Proofs.SpawnTree
Trusted boundary: none (fully proved)
Main exports: FiberPlace, FiberMap, StackLocal, StackInv, StackInv.of_step, left_holder_rule
Open obligations: none
-/
import CilkL.Proofs.SpawnTree

namespace CilkL

open SpawnTree

/-! ### Where the fibers are -/

/-- Where a fiber is. -/
inductive FiberPlace where
  /-- Not given to a frame yet. -/
  | unused
  /-- `fiber_self` of a frame. -/
  | self (f : Nat)
  /-- `fiber_child` of a frame. -/
  | child (f : Nat)
  /-- Handed to `fiber_to_free`. -/
  | freed
deriving DecidableEq

/-- Every fiber has one place, and was handed to `fiber_to_free` at most once. `own` is `fiber_self` and
    `passed` is `fiber_child` of the frames. -/
structure FiberMap (own passed : Nat → Option Nat) (freed : List Nat) (fibers : Nat)
    (place : Nat → FiberPlace) : Prop where
  own_iff : ∀ f x, own f = some x ↔ place x = .self f
  passed_iff : ∀ f x, passed f = some x ↔ place x = .child f
  freed_iff : ∀ x, x ∈ freed ↔ place x = .freed
  nodup : freed.Nodup
  unused_iff : ∀ x, place x = .unused ↔ fibers ≤ x

section FiberMap

variable {own passed : Nat → Option Nat} {freed : List Nat} {fibers : Nat} {place : Nat → FiberPlace}

/-- One fiber goes to another place. -/
theorem FiberMap.relocate (map : FiberMap own passed freed fibers place) (x : Nat)
    (target : FiberPlace) {own' passed' : Nat → Option Nat} {freed' : List Nat} {fibers' : Nat}
    (ownEq : ∀ f y, own' f = some y ↔ if y = x then target = .self f else own f = some y)
    (passedEq : ∀ f y, passed' f = some y ↔ if y = x then target = .child f else passed f = some y)
    (freedEq : ∀ y, y ∈ freed' ↔ if y = x then target = .freed else y ∈ freed)
    (nodup : freed'.Nodup)
    (fibersEq : ∀ y, fibers' ≤ y ↔ if y = x then target = .unused else fibers ≤ y) :
    FiberMap own' passed' freed' fibers' (fun y => if y = x then target else place y) := by
  constructor
  · intro f y
    rw [ownEq, map.own_iff]
    split <;> rfl
  · intro f y
    rw [passedEq, map.passed_iff]
    split <;> rfl
  · intro y
    rw [freedEq, map.freed_iff]
    split <;> rfl
  · exact nodup
  · intro y
    rw [fibersEq, ← map.unused_iff]
    split <;> rfl

/-- What a holder's record says about the other places. -/
theorem FiberMap.only_own (map : FiberMap own passed freed fibers place) {f x : Nat}
    (holds : own f = some x) :
    (∀ g, own g = some x ↔ g = f) ∧ (∀ g, passed g ≠ some x) ∧ x ∉ freed ∧ x < fibers := by
  have here := (map.own_iff f x).1 holds
  refine ⟨fun g => ?_, fun g => ?_, ?_, ?_⟩
  · rw [map.own_iff, here, FiberPlace.self.injEq]
    exact eq_comm
  · rw [ne_eq, map.passed_iff, here]
    simp
  · rw [map.freed_iff, here]
    simp
  · apply Nat.lt_of_not_le
    rw [← map.unused_iff, here]
    simp

theorem FiberMap.only_passed (map : FiberMap own passed freed fibers place) {f x : Nat}
    (holds : passed f = some x) :
    (∀ g, passed g = some x ↔ g = f) ∧ (∀ g, own g ≠ some x) ∧ x ∉ freed ∧ x < fibers := by
  have here := (map.passed_iff f x).1 holds
  refine ⟨fun g => ?_, fun g => ?_, ?_, ?_⟩
  · rw [map.passed_iff, here, FiberPlace.child.injEq]
    exact eq_comm
  · rw [ne_eq, map.own_iff, here]
    simp
  · rw [map.freed_iff, here]
    simp
  · apply Nat.lt_of_not_le
    rw [← map.unused_iff, here]
    simp

theorem FiberMap.fresh (map : FiberMap own passed freed fibers place) :
    (∀ g, own g ≠ some fibers) ∧ (∀ g, passed g ≠ some fibers) ∧ fibers ∉ freed := by
  have unused : place fibers = .unused := (map.unused_iff fibers).2 (Nat.le_refl _)
  refine ⟨fun g => ?_, fun g => ?_, ?_⟩
  · rw [ne_eq, map.own_iff, unused]
    simp
  · rw [ne_eq, map.passed_iff, unused]
    simp
  · rw [map.freed_iff, unused]
    simp

/-- A fiber goes from one frame to another. -/
theorem FiberMap.handOver (map : FiberMap own passed freed fibers place) {f g x : Nat}
    (holds : own f = some x) (free : own g = none) :
    ∃ place, FiberMap (Function.update (Function.update own f none) g (some x)) passed freed fibers
      place := by
  obtain ⟨ownOnly, notPassed, notFreed, used⟩ := map.only_own holds
  refine ⟨_, map.relocate x (.self g) ?_ ?_ ?_ map.nodup ?_⟩ <;> grind -linarith [Function.update_apply]

/-- A frame's fiber is handed to `fiber_to_free`. -/
theorem FiberMap.free (map : FiberMap own passed freed fibers place) {f x : Nat}
    (holds : own f = some x) :
    ∃ place, FiberMap (Function.update own f none) passed (freed ++ [x]) fibers place := by
  obtain ⟨ownOnly, notPassed, notFreed, used⟩ := map.only_own holds
  have nodup : (freed ++ [x]).Nodup := by
    refine List.nodup_append.2 ⟨map.nodup, List.nodup_singleton x, ?_⟩
    rintro y member _ single rfl
    exact notFreed (List.mem_singleton.1 single ▸ member)
  refine ⟨_, map.relocate x .freed ?_ ?_ ?_ nodup ?_⟩ <;> grind -linarith [Function.update_apply]

/-- The leftmost child passes its fiber up. -/
theorem FiberMap.passUp (map : FiberMap own passed freed fibers place) {c p x : Nat}
    (holds : own c = some x) (free : passed p = none) :
    ∃ place, FiberMap (Function.update own c none) (Function.update passed p (some x)) freed fibers
      place := by
  obtain ⟨ownOnly, notPassed, notFreed, used⟩ := map.only_own holds
  refine ⟨_, map.relocate x (.child p) ?_ ?_ ?_ map.nodup ?_⟩ <;> grind -linarith [Function.update_apply]

/-- The parent takes the fiber its leftmost child passed up. -/
theorem FiberMap.take (map : FiberMap own passed freed fibers place) {f x : Nat}
    (holds : passed f = some x) (free : own f = none) :
    ∃ place, FiberMap (Function.update own f (some x)) (Function.update passed f none) freed fibers
      place := by
  obtain ⟨passedOnly, notOwn, notFreed, used⟩ := map.only_passed holds
  refine ⟨_, map.relocate x (.self f) ?_ ?_ ?_ map.nodup ?_⟩ <;> grind -linarith [Function.update_apply]

/-- A frame gets a fiber no frame had before. -/
theorem FiberMap.give (map : FiberMap own passed freed fibers place) {f : Nat}
    (free : own f = none) :
    ∃ place, FiberMap (Function.update own f (some fibers)) passed freed (fibers + 1) place := by
  obtain ⟨notOwn, notPassed, notFreed⟩ := map.fresh
  refine ⟨_, map.relocate fibers (.self f) ?_ ?_ ?_ map.nodup ?_⟩ <;> grind -linarith [Function.update_apply]

end FiberMap

/-! ### The invariant -/

/-- The strands of frames that have a fiber. -/
def FrameStrand.HasFiber : FrameStrand → Prop
  | .held | .running _ | .next | .disowned => True
  | .waiting | .syncing | .stalled | .unlinked | .leaving | .dead => False

/-- The strands of frames in their parent's list of children. -/
def FrameStrand.Linked : FrameStrand → Prop
  | .unlinked | .leaving | .dead => False
  | _ => True

/-- In an unsynched frame: the first stolen spawned child of the region was made with the frame's fiber,
    and is at the head of the list of children until it passes that fiber up. -/
def RegionFiber (s : SpawnTree) (f : Nat) : Prop :=
  (s.frame f).regionFiber = (s.frame f).home ∧
    ∃ first, (s.frame f).firstSpawn = some first ∧ first < s.frames ∧
      (s.frame first).home = (s.frame f).home ∧ (s.frame first).isCallChild = false ∧
      (((s.frame f).children.head? = some first ∧ (s.frame f).fiberChild = none) ∨
        (first ∉ (s.frame f).children ∧ (s.frame f).fiberChild = (s.frame f).home))

/-- One frame with its fibers and children. -/
structure StackLocal (s : SpawnTree) (f : Nat) : Prop where
  self : (s.frame f).fiberSelf.isSome ↔ (s.frame f).strand.HasFiber
  home : (s.frame f).strand ≠ .dead → (s.frame f).home.isSome
  leaf : (s.frame f).strand.Childless → (s.frame f).unsynched = false
  synchedSelf : (s.frame f).unsynched = false → (s.frame f).strand.HasFiber →
    (s.frame f).fiberSelf = (s.frame f).home
  synchedCall : (s.frame f).unsynched = false → ∀ c ∈ s.pendingChildren f,
    (s.frame c).isCallChild = true → (s.frame c).home = (s.frame f).home
  synchedChild : (s.frame f).unsynched = false →
    (s.frame f).fiberChild = none ∧ (s.frame f).firstSpawn = none
  region : (s.frame f).unsynched = true → RegionFiber s f
  children : ∀ c, c ∈ (s.frame f).children ↔ c ∈ s.pendingChildren f ∧ (s.frame c).strand.Linked
  nodup : (s.frame f).children.Nodup

/-- What holds of the fibers between the critical sections and inside `detach_for_steal`. -/
structure StackInv (s : SpawnTree) : Prop where
  frames : ∀ f, StackLocal s f
  places : ∃ place, FiberMap (fun f => (s.frame f).fiberSelf) (fun f => (s.frame f).fiberChild) s.freed
    s.fibers place
  failures : s.failures = []

/-- A frame's linked child. -/
def LinkedChild (s : SpawnTree) (f c : Nat) : Prop :=
  c ∈ s.pendingChildren f ∧ (s.frame c).strand.Linked

/-- What the new tree keeps of the frames made before. -/
structure StableFrames (s s' : SpawnTree) : Prop where
  more : s.frames ≤ s'.frames
  home : ∀ c, c < s.frames → (s'.frame c).home = (s.frame c).home
  isCallChild : ∀ c, c < s.frames → (s'.frame c).isCallChild = (s.frame c).isCallChild

/-- The fields of a frame the invariant is about, apart from its strand. -/
structure TreeFrame.SameStack (ff ff' : TreeFrame) : Prop where
  fiberSelf : ff'.fiberSelf = ff.fiberSelf
  fiberChild : ff'.fiberChild = ff.fiberChild
  children : ff'.children = ff.children
  home : ff'.home = ff.home
  firstSpawn : ff'.firstSpawn = ff.firstSpawn
  regionFiber : ff'.regionFiber = ff.regionFiber
  unsynched : ff'.unsynched = ff.unsynched

theorem TreeFrame.SameStack.refl (ff : TreeFrame) : TreeFrame.SameStack ff ff :=
  ⟨rfl, rfl, rfl, rfl, rfl, rfl, rfl⟩

/-- The region of a frame whose fields stay. -/
theorem RegionFiber.congr {s s' : SpawnTree} {f : Nat} (region : RegionFiber s f)
    (stable : StableFrames s s') (regionFiber : (s'.frame f).regionFiber = (s.frame f).regionFiber)
    (home : (s'.frame f).home = (s.frame f).home)
    (firstSpawn : (s'.frame f).firstSpawn = (s.frame f).firstSpawn)
    (fiberChild : (s'.frame f).fiberChild = (s.frame f).fiberChild)
    (children : ∀ first, (s.frame f).firstSpawn = some first →
      ((s.frame f).children.head? = some first → (s'.frame f).children.head? = some first) ∧
        (first ∉ (s.frame f).children → first ∉ (s'.frame f).children)) : RegionFiber s' f := by
  obtain ⟨regionEq, first, firstEq, made, homeEq, isSpawn, holder⟩ := region
  have kept := children first firstEq
  refine ⟨by rw [regionFiber, home, regionEq], first, firstSpawn.trans firstEq,
    Nat.lt_of_lt_of_le made stable.more, ?_, (stable.isCallChild first made).trans isSpawn, ?_⟩
  · rw [stable.home first made, home, homeEq]
  · rw [fiberChild, home]
    exact holder.imp (fun inList => ⟨kept.1 inList.1, inList.2⟩)
      (fun gone => ⟨kept.2 gone.1, gone.2⟩)

/-- A frame with the same fibers and the same linked children. -/
theorem StackLocal.congr {s s' : SpawnTree} {f : Nat} (frame : StackLocal s f)
    (same : (s.frame f).SameStack (s'.frame f)) (stable : StableFrames s s')
    (alive : (s'.frame f).strand ≠ .dead → (s.frame f).strand ≠ .dead)
    (hasFiber : (s'.frame f).strand.HasFiber ↔ (s.frame f).strand.HasFiber)
    (leaf : (s'.frame f).strand.Childless → (s.frame f).unsynched = false)
    (shrinks : s'.pendingChildren f ⊆ s.pendingChildren f)
    (linked : ∀ c, LinkedChild s' f c ↔ LinkedChild s f c) : StackLocal s' f where
  self := by
    rw [same.fiberSelf, hasFiber]
    exact frame.self
  home isAlive := by
    rw [same.home]
    exact frame.home (alive isAlive)
  leaf childless := same.unsynched.trans (leaf childless)
  synchedSelf flag holds := by
    rw [same.fiberSelf, same.home]
    exact frame.synchedSelf (same.unsynched ▸ flag) (hasFiber.1 holds)
  synchedCall flag c member call := by
    have old := shrinks member
    have made := (mem_pendingChildren.1 old).1
    rw [stable.home c made, same.home]
    exact frame.synchedCall (same.unsynched ▸ flag) c old (stable.isCallChild c made ▸ call)
  synchedChild flag := by
    rw [same.fiberChild, same.firstSpawn]
    exact frame.synchedChild (same.unsynched ▸ flag)
  region flag := by
    refine (frame.region (same.unsynched ▸ flag)).congr stable same.regionFiber same.home
      same.firstSpawn same.fiberChild ?_
    intro first _
    rw [same.children]
    exact ⟨id, id⟩
  children c := by
    rw [same.children, frame.children c]
    exact (linked c).symm
  nodup := by
    rw [same.children]
    exact frame.nodup

/-- A frame that the step does not touch. -/
theorem StackLocal.of_untouched {s s' : SpawnTree} {f : Nat} (frame : StackLocal s f)
    (same : s'.frame f = s.frame f) (stable : StableFrames s s')
    (shrinks : s'.pendingChildren f ⊆ s.pendingChildren f)
    (linked : ∀ c, LinkedChild s' f c ↔ LinkedChild s f c) : StackLocal s' f := by
  apply frame.congr _ stable _ _ _ shrinks linked
  · rw [same]
    exact .refl _
  · exact same ▸ id
  · rw [same]
  · exact same ▸ frame.leaf

/-! ### Steps of one strand -/

/-- The strand of one frame changes, and with it neither its fiber nor its place among its siblings. -/
theorem StackInv.of_strand {s s' : SpawnTree} (inv : StackInv s) {f : Nat}
    (others : ∀ g, g ≠ f → s'.frame g = s.frame g) (frames : s'.frames = s.frames)
    (fibers : s'.fibers = s.fibers) (freed : s'.freed = s.freed) (failures : s'.failures = s.failures)
    (same : (s.frame f).SameStack (s'.frame f))
    (isCallChild : (s'.frame f).isCallChild = (s.frame f).isCallChild)
    (parent : (s'.frame f).parent = (s.frame f).parent)
    (alive : (s'.frame f).strand ≠ .dead → (s.frame f).strand ≠ .dead)
    (hasFiber : (s'.frame f).strand.HasFiber ↔ (s.frame f).strand.HasFiber)
    (linked : (s'.frame f).strand.Linked ↔ (s.frame f).strand.Linked)
    (leaf : (s'.frame f).strand.Childless → (s.frame f).unsynched = false) : StackInv s' := by
  have fieldEq : ∀ {β : Type} (field : TreeFrame → β), field (s'.frame f) = field (s.frame f) →
      ∀ g, field (s'.frame g) = field (s.frame g) := by
    intro β field sameField g
    by_cases here : g = f
    · exact here ▸ sameField
    · rw [others g here]
  have stable : StableFrames s s' :=
    ⟨Nat.le_of_eq frames.symm, fun c _ => fieldEq TreeFrame.home same.home c,
      fun c _ => fieldEq TreeFrame.isCallChild isCallChild c⟩
  have strandOf : ∀ c, (s'.frame c).strand = (s.frame c).strand ∨ c = f := by
    intro c
    by_cases here : c = f
    · exact .inr here
    · exact .inl (by rw [others c here])
  have shrinks : ∀ g, s'.pendingChildren g ⊆ s.pendingChildren g := by
    intro g c member
    obtain ⟨made, link, isAlive⟩ := mem_pendingChildren.1 member
    rw [frames] at made
    rw [fieldEq TreeFrame.parent parent] at link
    refine mem_pendingChildren.2 ⟨made, link, ?_⟩
    rcases strandOf c with kept | rfl
    · rwa [kept] at isAlive
    · exact alive isAlive
  have linkedEq : ∀ g c, LinkedChild s' g c ↔ LinkedChild s g c := by
    intro g c
    have linkedIff : (s'.frame c).strand.Linked ↔ (s.frame c).strand.Linked := by
      rcases strandOf c with kept | rfl
      · rw [kept]
      · exact linked
    have aliveOf : ∀ {strand : FrameStrand}, strand.Linked → strand ≠ .dead := by
      rintro _ isLinked rfl
      exact isLinked
    constructor
    · exact fun child => ⟨shrinks g child.1, linkedIff.1 child.2⟩
    · intro child
      obtain ⟨made, link, -⟩ := mem_pendingChildren.1 child.1
      refine ⟨mem_pendingChildren.2 ⟨frames ▸ made, ?_, aliveOf (linkedIff.2 child.2)⟩,
        linkedIff.2 child.2⟩
      rw [fieldEq TreeFrame.parent parent, link]
  refine ⟨?_, ?_, failures.trans inv.failures⟩
  · intro g
    by_cases here : g = f
    · subst here
      exact (inv.frames g).congr same stable alive hasFiber leaf (shrinks g) (linkedEq g)
    · exact (inv.frames g).of_untouched (others g here) stable (shrinks g) (linkedEq g)
  · obtain ⟨place, map⟩ := inv.places
    refine ⟨place, ?_⟩
    rw [funext (fieldEq TreeFrame.fiberSelf same.fiberSelf),
      funext (fieldEq TreeFrame.fiberChild same.fiberChild), freed, fibers]
    exact map

/-- `of_strand` for a change of one frame's record. -/
theorem StackInv.of_change {s : SpawnTree} (inv : StackInv s) {f : Nat}
    {change : TreeFrame → TreeFrame} (same : ∀ ff : TreeFrame, ff.SameStack (change ff))
    (tree : ∀ ff : TreeFrame, (change ff).isCallChild = ff.isCallChild ∧
      (change ff).parent = ff.parent)
    (alive : (change (s.frame f)).strand ≠ .dead → (s.frame f).strand ≠ .dead)
    (hasFiber : (change (s.frame f)).strand.HasFiber ↔ (s.frame f).strand.HasFiber)
    (linked : (change (s.frame f)).strand.Linked ↔ (s.frame f).strand.Linked)
    (leaf : (change (s.frame f)).strand.Childless → (s.frame f).unsynched = false) :
    StackInv (s.modify f change) := by
  apply inv.of_strand (fun g other => modify_frame_other other s change) rfl rfl rfl rfl <;>
    rw [modify_frame_self]
  · exact same _
  · exact (tree _).1
  · exact (tree _).2
  · exact alive
  · exact hasFiber
  · exact linked
  · exact leaf

/-- A change of one record that leaves the parent and the life of the frame keeps all pending
    children. -/
theorem pendingChildren_modify (s : SpawnTree) (f : Nat) {change : TreeFrame → TreeFrame}
    (parent : (change (s.frame f)).parent = (s.frame f).parent)
    (dead : (change (s.frame f)).strand = .dead ↔ (s.frame f).strand = .dead) (g : Nat) :
    (s.modify f change).pendingChildren g = s.pendingChildren g := by
  have frames : (s.modify f change).frames = s.frames := rfl
  apply pendingChildren_congr frames <;> intro c <;> by_cases here : c = f
  · rw [here, modify_frame_self, parent]
  · rw [modify_frame_other here]
  · rw [here, modify_frame_self, dead]
  · rw [modify_frame_other here]

/-! ### Giving a fiber up -/

/-- The homes and kinds of all frames stay when one or two frames change other fields. -/
theorem StableFrames.of_fields {s s' : SpawnTree} (frames : s'.frames = s.frames)
    (home : ∀ c, (s'.frame c).home = (s.frame c).home)
    (isCallChild : ∀ c, (s'.frame c).isCallChild = (s.frame c).isCallChild) : StableFrames s s' :=
  ⟨Nat.le_of_eq frames.symm, fun c _ => home c, fun c _ => isCallChild c⟩

/-- A frame without a fiber holds none. -/
theorem StackLocal.fiberSelf_none {s : SpawnTree} {f : Nat} (frame : StackLocal s f)
    (noFiber : ¬ (s.frame f).strand.HasFiber) : (s.frame f).fiberSelf = none := by
  rw [← frame.self] at noFiber
  simpa using noFiber

theorem StackLocal.fiberSelf_some {s : SpawnTree} {f : Nat} (frame : StackLocal s f)
    (hasFiber : (s.frame f).strand.HasFiber) : ∃ x, (s.frame f).fiberSelf = some x :=
  Option.isSome_iff_exists.1 (frame.self.2 hasFiber)

/-- A frame that stalls, or returns without a parent, hands its fiber to `fiber_to_free`. -/
theorem StackInv.of_fiberToFree {s : SpawnTree} (inv : StackInv s) {f : Nat} {target : FrameStrand}
    (strand : (s.frame f).strand = .running []) (noFiber : ¬ target.HasFiber)
    (alive : target ≠ .dead) (linked : target.Linked ∨ (s.frame f).parent = none)
    (leaf : target.Childless → (s.frame f).unsynched = false) :
    StackInv ((s.fiberToFree f).modify f fun ff => { ff with strand := target }) := by
  have frame := inv.frames f
  obtain ⟨x, holds⟩ := frame.fiberSelf_some (by rw [strand]; trivial)
  have self : ((s.fiberToFree f).modify f fun ff => { ff with strand := target }).frame f =
      { s.frame f with fiberSelf := none, strand := target } := by
    simp [fiberToFree]
  have others : ∀ g, g ≠ f →
      ((s.fiberToFree f).modify f fun ff => { ff with strand := target }).frame g = s.frame g := by
    intro g other
    simp [fiberToFree, modify_frame_other other]
  have freed : ((s.fiberToFree f).modify f fun ff => { ff with strand := target }).freed =
      s.freed ++ [x] := by
    simp [fiberToFree, SpawnTree.modify, holds]
  have frames : ((s.fiberToFree f).modify f fun ff => { ff with strand := target }).frames =
      s.frames := rfl
  have rest : ((s.fiberToFree f).modify f fun ff => { ff with strand := target }).fibers = s.fibers ∧
      ((s.fiberToFree f).modify f fun ff => { ff with strand := target }).failures = s.failures :=
    ⟨rfl, rfl⟩
  generalize (s.fiberToFree f).modify f (fun ff => { ff with strand := target }) = s' at *
  have fieldEq : ∀ {β : Type} (field : TreeFrame → β), field (s'.frame f) = field (s.frame f) →
      ∀ g, field (s'.frame g) = field (s.frame g) := by
    intro β field sameField g
    by_cases here : g = f
    · exact here ▸ sameField
    · rw [others g here]
  have stable := StableFrames.of_fields frames (fieldEq TreeFrame.home (by rw [self]))
    (fieldEq TreeFrame.isCallChild (by rw [self]))
  have pending : ∀ g, s'.pendingChildren g = s.pendingChildren g := by
    apply pendingChildren_congr frames (fieldEq TreeFrame.parent (by rw [self]))
    intro c
    by_cases here : c = f
    · subst here
      simp [self, strand, alive]
    · rw [others c here]
  have linkedEq : ∀ g c, LinkedChild s' g c ↔ LinkedChild s g c := by
    intro g c
    unfold LinkedChild
    rw [pending]
    by_cases here : c = f
    · subst here
      rw [self, strand]
      rcases linked with isLinked | noParent
      · exact and_congr_right fun _ => iff_of_true isLinked trivial
      · simp [mem_pendingChildren, noParent]
    · rw [others c here]
  refine ⟨?_, ?_, rest.2.trans inv.failures⟩
  · intro g
    by_cases here : g = f
    · subst here
      constructor
      · simp [self, noFiber]
      · intro _
        rw [self]
        exact frame.home (by simp [strand])
      · rw [self]
        exact leaf
      · simp [self, noFiber]
      · intro flag c member call
        rw [self] at flag
        rw [pending] at member
        have made := (mem_pendingChildren.1 member).1
        rw [stable.home c made, self]
        exact frame.synchedCall flag c member (stable.isCallChild c made ▸ call)
      · rw [self]
        exact frame.synchedChild
      · intro flag
        rw [self] at flag
        apply (frame.region flag).congr stable <;> simp [self]
      · intro c
        rw [self, frame.children c]
        exact (linkedEq g c).symm
      · simpa [self] using frame.nodup
    · exact (inv.frames g).of_untouched (others g here) stable (pending g).subset (linkedEq g)
  · obtain ⟨place, map⟩ := inv.places
    obtain ⟨place', map'⟩ := map.free holds
    refine ⟨place', ?_⟩
    rw [freed, rest.1, funext (fieldEq TreeFrame.fiberChild (by rw [self]))]
    convert map' using 1
    funext g
    by_cases here : g = f
    · subst here
      simp [self]
    · simp [here, others g here]

/-! ### Returning from a spawn -/

/-- The test of `finish_spawn_return_on_user_stack` for the leftmost stack. -/
def PassesUp (s : SpawnTree) (c p : Nat) : Prop :=
  (s.frame p).children.head? = some c ∧ (s.frame p).fiberChild = none

instance (s : SpawnTree) (c p : Nat) : Decidable (PassesUp s c p) :=
  inferInstanceAs (Decidable (_ ∧ _))

namespace SpawnTree

theorem finishSpawnReturn_child {s : SpawnTree} {c p : Nat} (parent : (s.frame c).parent = some p)
    (distinct : c ≠ p) : (s.finishSpawnReturn c).frame c = { s.frame c with fiberSelf := none } := by
  simp only [finishSpawnReturn, parent]
  split <;> simp [fiberToFree, modify_frame_other distinct, parent]

theorem finishSpawnReturn_parent {s : SpawnTree} {c p : Nat} (parent : (s.frame c).parent = some p)
    (distinct : c ≠ p) :
    (s.finishSpawnReturn c).frame p =
      { s.frame p with
        children := (s.frame p).children.erase c
        fiberChild := if PassesUp s c p then (s.frame c).fiberSelf else (s.frame p).fiberChild } := by
  simp only [finishSpawnReturn, parent]
  split
  · rename_i notLeftmost
    have notPasses : ¬ PassesUp s c p := by
      rintro ⟨leftmost, empty⟩
      simp [leftmost, empty] at notLeftmost
    rw [if_neg notPasses]
    simp [fiberToFree, modify_frame_other distinct.symm]
  · rename_i leftmost
    have passes : PassesUp s c p := by simpa [PassesUp] using leftmost
    rw [if_pos passes]
    simp [modify_frame_other distinct.symm]

theorem finishSpawnReturn_other {s : SpawnTree} {c p g : Nat} (parent : (s.frame c).parent = some p)
    (notChild : g ≠ c) (notParent : g ≠ p) : (s.finishSpawnReturn c).frame g = s.frame g := by
  simp only [finishSpawnReturn, parent]
  split <;> simp [fiberToFree, modify_frame_other notChild, modify_frame_other notParent]

theorem finishSpawnReturn_freed {s : SpawnTree} {c p : Nat} (parent : (s.frame c).parent = some p) :
    (s.finishSpawnReturn c).freed =
      if PassesUp s c p then s.freed else s.freed ++ (s.frame c).fiberSelf.toList := by
  have checked : ∀ holds : Bool, (s.check holds .fiberToFree).freed = s.freed := by
    intro holds
    cases holds <;> rfl
  simp only [finishSpawnReturn, parent]
  split
  · rename_i notLeftmost
    have notPasses : ¬ PassesUp s c p := by
      rintro ⟨leftmost, empty⟩
      simp [leftmost, empty] at notLeftmost
    rw [if_neg notPasses]
    simp [fiberToFree, SpawnTree.modify, checked]
  · rename_i leftmost
    have passes : PassesUp s c p := by simpa [PassesUp] using leftmost
    rw [if_pos passes]
    rfl

theorem finishSpawnReturn_rest {s : SpawnTree} {c p : Nat} (parent : (s.frame c).parent = some p)
    (differs : (s.frame p).fiberChild ≠ (s.frame c).fiberSelf) :
    (s.finishSpawnReturn c).frames = s.frames ∧ (s.finishSpawnReturn c).fibers = s.fibers ∧
      (s.finishSpawnReturn c).failures = s.failures := by
  simp only [finishSpawnReturn, parent]
  rw [check_of_true (by simpa using differs)]
  split <;> exact ⟨rfl, rfl, rfl⟩

end SpawnTree

/-- A spawned child leaves a parent that still waits for it: the parent is unsynched. -/
theorem JoinInv.unsynched_of_spawned {s : SpawnTree} (join : JoinInv s) {c p : Nat}
    (pending : c ∈ s.pendingChildren p) (isSpawn : (s.frame c).isCallChild = false) :
    (s.frame p).unsynched = true := by
  cases flag : (s.frame p).unsynched with
  | true => rfl
  | false =>
      have called := (join.frames p).synched flag c pending
      simp [SpawnTree.isCall, isSpawn] at called

/-- The first stolen child of the region is the one that passes its fiber up. -/
theorem RegionFiber.passesUp_iff {s : SpawnTree} {c p : Nat} (region : RegionFiber s p)
    (home : (s.frame p).home.isSome) (listed : c ∈ (s.frame p).children) :
    PassesUp s c p ↔ (s.frame p).firstSpawn = some c := by
  obtain ⟨-, first, firstEq, -, -, -, holder⟩ := region
  rw [firstEq, Option.some.injEq]
  rcases holder with ⟨head, none⟩ | ⟨gone, passed⟩
  · simp [PassesUp, head, none]
  · constructor
    · rintro ⟨-, none⟩
      simp [← passed, none] at home
    · rintro rfl
      exact absurd listed gone

theorem head?_erase_of_ne {α : Type} [DecidableEq α] {xs : List α} {x y : α}
    (head : xs.head? = some x) (other : x ≠ y) : (xs.erase y).head? = some x := by
  cases xs with
  | nil => simp at head
  | cons z zs =>
      simp only [List.head?_cons, Option.some.injEq] at head
      subst head
      rw [List.erase_cons_tail (by simpa using other)]
      rfl

/-- The returning child unlinks itself, and its fiber goes up or to `fiber_to_free`. -/
theorem StackInv.of_spawnReturn {s : SpawnTree} (inv : StackInv s) (join : JoinInv s) {c p : Nat}
    (strand : (s.frame c).strand = .running []) (synched : (s.frame c).unsynched = false)
    (isSpawn : (s.frame c).isCallChild = false) (parent : (s.frame c).parent = some p) :
    StackInv ((s.finishSpawnReturn c).modify c fun ff => { ff with strand := .unlinked }) := by
  have child := inv.frames c
  have frame := inv.frames p
  have hasFiber : (s.frame c).strand.HasFiber := by rw [strand]; trivial
  obtain ⟨x, holds⟩ := child.fiberSelf_some hasFiber
  obtain ⟨place, map⟩ := inv.places
  have made : c < s.frames := join.made (by simp [strand])
  have pendingChild : c ∈ s.pendingChildren p :=
    mem_pendingChildren.2 ⟨made, parent, by simp [strand]⟩
  have distinct : c ≠ p := by
    rintro rfl
    rw [(join.frames c).pending_of_synched (by simp [strand]) synched] at pendingChild
    simp at pendingChild
  have unsynched := join.unsynched_of_spawned pendingChild isSpawn
  have region := frame.region unsynched
  have homeSome := frame.home (join.parent_made pendingChild)
  have listed : c ∈ (s.frame p).children :=
    (frame.children c).2 ⟨pendingChild, by rw [strand]; trivial⟩
  have passesIff := region.passesUp_iff homeSome listed
  have differs : (s.frame p).fiberChild ≠ (s.frame c).fiberSelf := by
    rw [holds]
    exact (map.only_own holds).2.1 p
  have self : ((s.finishSpawnReturn c).modify c fun ff => { ff with strand := .unlinked }).frame c =
      { s.frame c with fiberSelf := none, strand := .unlinked } := by
    rw [modify_frame_self, finishSpawnReturn_child parent distinct]
  have parentFrame :
      ((s.finishSpawnReturn c).modify c fun ff => { ff with strand := .unlinked }).frame p =
      { s.frame p with
        children := (s.frame p).children.erase c
        fiberChild := if PassesUp s c p then (s.frame c).fiberSelf else (s.frame p).fiberChild } := by
    rw [modify_frame_other distinct.symm, finishSpawnReturn_parent parent distinct]
  have others : ∀ g, g ≠ c → g ≠ p →
      ((s.finishSpawnReturn c).modify c fun ff => { ff with strand := .unlinked }).frame g =
        s.frame g := by
    intro g notChild notParent
    rw [modify_frame_other notChild, finishSpawnReturn_other parent notChild notParent]
  have freed : ((s.finishSpawnReturn c).modify c fun ff => { ff with strand := .unlinked }).freed =
      if PassesUp s c p then s.freed else s.freed ++ [x] := by
    have freedEq := finishSpawnReturn_freed parent
    rw [holds] at freedEq
    exact freedEq
  have rest := finishSpawnReturn_rest parent differs
  rw [← modify_frames (s.finishSpawnReturn c) c fun ff => { ff with strand := .unlinked }] at rest
  have fibers : ((s.finishSpawnReturn c).modify c fun ff => { ff with strand := .unlinked }).fibers =
      s.fibers := rest.2.1
  have failures : ((s.finishSpawnReturn c).modify c fun ff =>
      { ff with strand := .unlinked }).failures = s.failures := rest.2.2
  have frames := rest.1
  clear rest
  generalize (s.finishSpawnReturn c).modify c (fun ff => { ff with strand := .unlinked }) = s' at *
  have fieldEq : ∀ {β : Type} (field : TreeFrame → β), field (s'.frame c) = field (s.frame c) →
      field (s'.frame p) = field (s.frame p) → ∀ g, field (s'.frame g) = field (s.frame g) := by
    intro β field sameChild sameParent g
    by_cases isChild : g = c
    · exact isChild ▸ sameChild
    · by_cases isParent : g = p
      · exact isParent ▸ sameParent
      · rw [others g isChild isParent]
  have stable := StableFrames.of_fields frames
    (fieldEq TreeFrame.home (by rw [self]) (by rw [parentFrame]))
    (fieldEq TreeFrame.isCallChild (by rw [self]) (by rw [parentFrame]))
  have strandOf : ∀ d, d ≠ c → (s'.frame d).strand = (s.frame d).strand := by
    intro d notChild
    by_cases isParent : d = p
    · rw [isParent, parentFrame]
    · rw [others d notChild isParent]
  have pending : ∀ g, s'.pendingChildren g = s.pendingChildren g := by
    apply pendingChildren_congr frames
      (fieldEq TreeFrame.parent (by rw [self]) (by rw [parentFrame]))
    intro d
    by_cases isChild : d = c
    · subst isChild
      simp [self, strand]
    · rw [strandOf d isChild]
  have linked : ∀ g, g ≠ p → ∀ d, LinkedChild s' g d ↔ LinkedChild s g d := by
    intro g notParent d
    unfold LinkedChild
    rw [pending]
    by_cases isChild : d = c
    · subst isChild
      have notPending : d ∉ s.pendingChildren g := by
        simp [mem_pendingChildren, parent, Ne.symm notParent]
      simp [notPending]
    · rw [strandOf d isChild]
  refine ⟨?_, ?_, failures.trans inv.failures⟩
  · intro g
    by_cases isChild : g = c
    · subst isChild
      constructor
      · simp [self, FrameStrand.HasFiber]
      · intro _
        rw [self]
        exact child.home (by simp [strand])
      · simp [self, synched]
      · simp [self, FrameStrand.HasFiber]
      · intro _ d member call
        rw [pending] at member
        have madeChild := (mem_pendingChildren.1 member).1
        rw [stable.home d madeChild, self]
        exact child.synchedCall synched d member (stable.isCallChild d madeChild ▸ call)
      · rw [self]
        exact child.synchedChild
      · simp [self, synched]
      · intro d
        rw [self, child.children d]
        exact (linked g distinct d).symm
      · rw [self]
        exact child.nodup
    · by_cases isParent : g = p
      · subst isParent
        constructor
        · rw [parentFrame]
          exact frame.self
        · rw [parentFrame]
          exact frame.home
        · rw [parentFrame]
          exact frame.leaf
        · rw [parentFrame]
          exact frame.synchedSelf
        · simp [parentFrame, unsynched]
        · simp [parentFrame, unsynched]
        · intro _
          obtain ⟨regionEq, first, firstEq, firstMade, firstHome, firstSpawned, holder⟩ := region
          refine ⟨by rw [parentFrame]; exact regionEq, first, by rw [parentFrame]; exact firstEq,
            Nat.lt_of_lt_of_le firstMade stable.more, ?_, ?_, ?_⟩
          · rw [stable.home first firstMade, parentFrame]
            exact firstHome
          · rw [stable.isCallChild first firstMade]
            exact firstSpawned
          · rw [parentFrame]
            dsimp only
            by_cases passes : PassesUp s c g
            · -- The first child returns: its fiber is the one the frame was running on.
              have isFirst := passesIff.1 passes
              rw [firstEq, Option.some.injEq] at isFirst
              subst isFirst
              rw [if_pos passes]
              refine .inr ⟨frame.nodup.not_mem_erase, ?_⟩
              rw [child.synchedSelf synched hasFiber, firstHome]
            · rw [if_neg passes]
              have notFirst : first ≠ c := by
                rintro rfl
                exact passes (passesIff.2 firstEq)
              exact holder.imp (fun inList => ⟨head?_erase_of_ne inList.1 notFirst, inList.2⟩)
                (fun gone => ⟨fun member => gone.1 (List.mem_of_mem_erase member), gone.2⟩)
        · intro d
          rw [parentFrame, frame.nodup.mem_erase_iff, frame.children d]
          rw [pending]
          by_cases isChild : d = c
          · subst isChild
            simp [self, FrameStrand.Linked]
          · simp [isChild, strandOf d isChild]
        · rw [parentFrame]
          exact frame.nodup.erase c
      · exact (inv.frames g).of_untouched (others g isChild isParent) stable (pending g).subset
          (linked g isParent)
  · have own : (fun f => (s'.frame f).fiberSelf) =
        Function.update (fun f => (s.frame f).fiberSelf) c none := by
      funext g
      by_cases isChild : g = c
      · subst isChild
        simp [self]
      · by_cases isParent : g = p
        · subst isParent
          simp [isChild, parentFrame]
        · simp [isChild, others g isChild isParent]
    rw [own, fibers, freed]
    by_cases passes : PassesUp s c p
    · obtain ⟨place', map'⟩ := map.passUp holds passes.2
      refine ⟨place', ?_⟩
      rw [if_pos passes]
      convert map' using 1
      funext g
      by_cases isParent : g = p
      · subst isParent
        simp [parentFrame, passes, holds]
      · by_cases isChild : g = c
        · subst isChild
          simp [isParent, self]
        · simp [isParent, others g isChild isParent]
    · obtain ⟨place', map'⟩ := map.free holds
      refine ⟨place', ?_⟩
      rw [if_neg passes]
      convert map' using 1
      funext g
      by_cases isParent : g = p
      · subst isParent
        simp [parentFrame, passes]
      · by_cases isChild : g = c
        · subst isChild
          simp [self]
        · simp [others g isChild isParent]

/-! ### Crossing a sync -/

theorem provablyGoodSteal_freed (s : SpawnTree) (f : Nat) :
    (s.provablyGoodSteal f).freed = s.freed ∧ (s.provablyGoodSteal f).fibers = s.fibers := by
  have checked : ∀ (t : SpawnTree) (holds : Bool) (assertion : TreeAssert),
      (t.check holds assertion).freed = t.freed ∧ (t.check holds assertion).fibers = t.fibers := by
    intro t holds assertion
    cases holds <;> exact ⟨rfl, rfl⟩
  simp only [SpawnTree.provablyGoodSteal]
  split
  · simp [pushNextFrame, incjoin, markSynched, provablyGoodStealStacks, decjoin, SpawnTree.modify,
      checked]
  · simp [decjoin, SpawnTree.modify, checked]

/-- The assertions of `provably_good_steal_stacks` hold. -/
theorem provablyGoodSteal_noFailures {s : SpawnTree} {f : Nat} (noneFailed : s.failures = [])
    (positive : 0 < (s.frame f).joinCounter)
    (last : (s.frame f).joinCounter = 1 →
      (s.frame f).fiberSelf = none ∧ (s.frame f).fiberChild.isSome = true) :
    (s.provablyGoodSteal f).failures = [] := by
  simp only [SpawnTree.provablyGoodSteal, decjoin_of_pos positive]
  split
  · rename_i zero
    have one : (s.frame f).joinCounter = 1 := by
      simp at zero
      omega
    obtain ⟨self, child⟩ := last one
    have selfHolds : ((s.modify f fun ff => { ff with joinCounter := ff.joinCounter - 1 }).frame
        f).fiberSelf.isNone = true := by
      simp [self]
    have childHolds : ((s.modify f fun ff => { ff with joinCounter := ff.joinCounter - 1 }).frame
        f).fiberChild.isSome = true := by
      simpa using child
    rw [provablyGoodStealStacks, check_of_true selfHolds, check_of_true childHolds]
    exact noneFailed
  · exact noneFailed

/-- The region of a frame whose children are all gone: its first stolen child passed the fiber up. -/
theorem StackLocal.fiberChild_home {s : SpawnTree} {f : Nat} (frame : StackLocal s f)
    (unsynched : (s.frame f).unsynched = true) (gone : s.pendingChildren f = ∅) :
    (s.frame f).fiberChild = (s.frame f).home ∧ (s.frame f).regionFiber = (s.frame f).home := by
  obtain ⟨regionEq, first, -, -, -, -, ⟨head, -⟩ | ⟨-, passed⟩⟩ := frame.region unsynched
  · have listed := (frame.children first).1 (List.mem_of_head? head)
    rw [gone] at listed
    simp at listed
  · exact ⟨passed, regionEq⟩

/-- Taking one from a join counter, and crossing the sync if that was the last one. -/
theorem StackInv.of_provablyGoodSteal {s : SpawnTree} (inv : StackInv s) {f : Nat}
    (positive : 0 < (s.frame f).joinCounter)
    (last : (s.frame f).joinCounter = 1 → (s.frame f).strand = .stalled ∧
      (s.frame f).unsynched = true ∧ s.pendingChildren f = ∅) : StackInv (s.provablyGoodSteal f) := by
  have frame := inv.frames f
  have self := provablyGoodSteal_frame positive
  have others : ∀ g, g ≠ f → (s.provablyGoodSteal f).frame g = s.frame g :=
    fun g other => provablyGoodSteal_other other
  obtain ⟨freed, fibers⟩ := provablyGoodSteal_freed s f
  have frames := provablyGoodSteal_frames s f
  by_cases one : (s.frame f).joinCounter = 1
  · obtain ⟨strand, unsynched, gone⟩ := last one
    obtain ⟨passed, -⟩ := frame.fiberChild_home unsynched gone
    have homeSome := frame.home (by simp [strand])
    have empty := frame.fiberSelf_none (by simp [strand, FrameStrand.HasFiber])
    have noFailures := provablyGoodSteal_noFailures inv.failures positive
      fun _ => ⟨empty, by rw [passed]; exact homeSome⟩
    rw [if_pos one] at self
    generalize s.provablyGoodSteal f = s' at *
    have fieldEq : ∀ {β : Type} (field : TreeFrame → β), field (s'.frame f) = field (s.frame f) →
        ∀ g, field (s'.frame g) = field (s.frame g) := by
      intro β field sameField g
      by_cases here : g = f
      · exact here ▸ sameField
      · rw [others g here]
    have stable := StableFrames.of_fields frames (fieldEq TreeFrame.home (by rw [self]))
      (fieldEq TreeFrame.isCallChild (by rw [self]))
    have pending : ∀ g, s'.pendingChildren g = s.pendingChildren g := by
      apply pendingChildren_congr frames (fieldEq TreeFrame.parent (by rw [self]))
      intro c
      by_cases here : c = f
      · subst here
        simp [self, strand]
      · rw [others c here]
    have linked : ∀ g c, LinkedChild s' g c ↔ LinkedChild s g c := by
      intro g c
      unfold LinkedChild
      rw [pending]
      by_cases here : c = f
      · subst here
        rw [self, strand]
        exact Iff.rfl
      · rw [others c here]
    refine ⟨?_, ?_, noFailures⟩
    · intro g
      by_cases here : g = f
      · subst here
        constructor
        · simp [self, FrameStrand.HasFiber, passed, homeSome]
        · intro _
          rw [self]
          exact homeSome
        · simp [self]
        · simp [self, passed]
        · intro _ c member
          rw [pending, gone] at member
          simp at member
        · simp [self]
        · simp [self]
        · intro c
          rw [self, frame.children c]
          exact (linked g c).symm
        · simpa [self] using frame.nodup
      · exact (inv.frames g).of_untouched (others g here) stable (pending g).subset (linked g)
    · obtain ⟨place, map⟩ := inv.places
      obtain ⟨x, homeEq⟩ := Option.isSome_iff_exists.1 homeSome
      obtain ⟨place', map'⟩ := map.take (passed.trans homeEq) empty
      refine ⟨place', ?_⟩
      rw [freed, fibers]
      convert map' using 1
      · funext g
        by_cases here : g = f
        · subst here
          simp [self, passed, homeEq]
        · simp [here, others g here]
      · funext g
        by_cases here : g = f
        · subst here
          simp [self]
        · simp [here, others g here]
  · have noFailures := provablyGoodSteal_noFailures inv.failures positive
      fun isOne => absurd isOne one
    rw [if_neg one] at self
    apply inv.of_strand others frames fibers freed (noFailures.trans inv.failures.symm)
    · rw [self]
      exact ⟨rfl, rfl, rfl, rfl, rfl, rfl, rfl⟩
    · rw [self]
    · rw [self]
    · rw [self]
      exact id
    · rw [self]
    · rw [self]
    · rw [self]
      exact frame.leaf

/-- Arriving at the sync. -/
theorem StackInv.of_doSync {s : SpawnTree} (inv : StackInv s) (join : JoinInv s) {f : Nat}
    (strand : (s.frame f).strand = .syncing) :
    StackInv ((s.modify f fun ff =>
      { ff with strand := .stalled, syncs := ff.syncs + 1 }).provablyGoodSteal f) := by
  have owned : (s.frame f).strand.Owned := by
    rw [strand]
    trivial
  have stalled : StackInv (s.modify f fun ff =>
      { ff with strand := .stalled, syncs := ff.syncs + 1 }) := by
    apply inv.of_change
    · exact fun _ => ⟨rfl, rfl, rfl, rfl, rfl, rfl, rfl⟩
    · exact fun _ => ⟨rfl, rfl⟩
    · simp [strand]
    · simp [strand, FrameStrand.HasFiber]
    · simp [strand, FrameStrand.Linked]
    · simp [FrameStrand.Childless]
  apply stalled.of_provablyGoodSteal
  · rw [modify_frame_self]
    exact (join.frames f).pos_of_owned owned
  · rw [modify_frame_self]
    intro one
    have counter := (join.frames f).counter
    rw [if_pos owned] at counter
    refine ⟨rfl, (join.frames f).unsynched (.inl strand), ?_⟩
    rw [pendingChildren_modify s f]
    · apply Finset.card_eq_zero.1
      dsimp only at one
      omega
    · rfl
    · simp [strand]

/-- The child is destroyed and its parent loses one. -/
theorem StackInv.of_decjoinParent {s : SpawnTree} (inv : StackInv s) (join : JoinInv s)
    (noneHeld : s.NoneHeld) {c p : Nat} (strand : (s.frame c).strand = .leaving)
    (parentEq : (s.frame c).parent = some p) :
    StackInv ((s.destroyFullFrame c).provablyGoodSteal p) := by
  have made : c < s.frames := join.made (by simp [strand])
  have pendingChild : c ∈ s.pendingChildren p :=
    mem_pendingChildren.2 ⟨made, parentEq, by simp [strand]⟩
  have positive := (join.frames p).pos_of_pending pendingChild
  have childless := (join.frames c).childless (by rw [strand]; trivial)
  have distinct : p ≠ c := by
    rintro rfl
    rw [childless] at pendingChild
    simp at pendingChild
  have isSpawn := (join.frames c).spawnKind (.inr strand)
  have unsynched := join.unsynched_of_spawned pendingChild isSpawn
  have destroyed : StackInv (s.destroyFullFrame c) := by
    apply inv.of_change
    · exact fun _ => ⟨rfl, rfl, rfl, rfl, rfl, rfl, rfl⟩
    · exact fun _ => ⟨rfl, rfl⟩
    · simp
    · simp [strand, FrameStrand.HasFiber]
    · simp [strand, FrameStrand.Linked]
    · exact fun _ => (inv.frames c).leaf (by rw [strand]; trivial)
  have parentFrame : (s.destroyFullFrame c).frame p = s.frame p := modify_frame_other distinct s _
  apply destroyed.of_provablyGoodSteal
  · rw [parentFrame]
    exact positive
  · rw [parentFrame]
    intro one
    refine ⟨(join.of_decjoinParent noneHeld strand parentEq).2 one, unsynched, ?_⟩
    have others : ∀ g, g ≠ c → g ≠ p → (s.destroyFullFrame c).frame g = s.frame g :=
      fun g notChild _ => modify_frame_other notChild s _
    have death := join.pendingChildren_death pendingChild others rfl (by simp [destroyFullFrame])
      ⟨by rw [parentFrame], by rw [parentFrame]; exact join.parent_made pendingChild⟩ p
    rw [death]
    have counter := (join.frames p).counter
    apply Finset.card_eq_zero.1
    rw [Finset.card_erase_of_mem pendingChild]
    omega

/-! ### Returning from a call -/

/-- A called frame returns: its parent runs on its fiber. -/
theorem StackInv.of_finalizeCall {s : SpawnTree} (inv : StackInv s) (join : JoinInv s) {c p : Nat}
    (strand : (s.frame c).strand = .disowned) (parentEq : (s.frame c).parent = some p) :
    StackInv (((s.spliceCallChild p c).destroyFullFrame c).unconditionalSteal p) := by
  have made : c < s.frames := join.made (by simp [strand])
  have pendingChild : c ∈ s.pendingChildren p :=
    mem_pendingChildren.2 ⟨made, parentEq, by simp [strand]⟩
  have positive := (join.frames p).pos_of_pending pendingChild
  have childless := (join.frames c).childless (by rw [strand]; trivial)
  have distinct : p ≠ c := by
    rintro rfl
    rw [childless] at pendingChild
    simp at pendingChild
  have isCall := (join.frames c).callKind strand
  have waits := (join.frames p).called c pendingChild isCall
  have child := inv.frames c
  have frame := inv.frames p
  have synchedChild := child.leaf (by rw [strand]; trivial)
  have hasFiber : (s.frame c).strand.HasFiber := by rw [strand]; trivial
  obtain ⟨x, holds⟩ := child.fiberSelf_some hasFiber
  have empty := frame.fiberSelf_none (by rw [waits]; exact id)
  have spliceHolds : decide ((s.frame c).fiberChild.isNone ∧ (s.frame p).fiberSelf.isNone) = true := by
    simp [(child.synchedChild synchedChild).1, empty]
  have positive' : 0 < (((s.spliceCallChild p c).destroyFullFrame c).frame p).joinCounter := by
    simpa [spliceCallChild, destroyFullFrame, modify_frame_other distinct] using positive
  have self : (((s.spliceCallChild p c).destroyFullFrame c).unconditionalSteal p).frame c =
      { s.frame c with fiberSelf := none, strand := .dead } := by
    rw [unconditionalSteal, decjoin_of_pos positive']
    simp [pushNextFrame, incjoin, destroyFullFrame, spliceCallChild,
      modify_frame_other distinct.symm]
  have parentFrame : (((s.spliceCallChild p c).destroyFullFrame c).unconditionalSteal p).frame p =
      { s.frame p with
        fiberSelf := some x
        children := (s.frame p).children.erase c
        joinCounter := (s.frame p).joinCounter - 1 + 1
        strand := .next } := by
    rw [unconditionalSteal, decjoin_of_pos positive']
    simp [pushNextFrame, incjoin, destroyFullFrame, spliceCallChild, modify_frame_other distinct,
      holds]
  have others : ∀ g, g ≠ c → g ≠ p →
      (((s.spliceCallChild p c).destroyFullFrame c).unconditionalSteal p).frame g = s.frame g := by
    intro g notChild notParent
    rw [unconditionalSteal, decjoin_of_pos positive']
    simp [pushNextFrame, incjoin, destroyFullFrame, spliceCallChild, modify_frame_other notChild,
      modify_frame_other notParent]
  have rest : (((s.spliceCallChild p c).destroyFullFrame c).unconditionalSteal p).frames = s.frames ∧
      (((s.spliceCallChild p c).destroyFullFrame c).unconditionalSteal p).fibers = s.fibers ∧
      (((s.spliceCallChild p c).destroyFullFrame c).unconditionalSteal p).freed = s.freed ∧
      (((s.spliceCallChild p c).destroyFullFrame c).unconditionalSteal p).failures = s.failures := by
    rw [unconditionalSteal, decjoin_of_pos positive', spliceCallChild, check_of_true spliceHolds]
    exact ⟨rfl, rfl, rfl, rfl⟩
  obtain ⟨frames, fibers, freed, failures⟩ := rest
  generalize ((s.spliceCallChild p c).destroyFullFrame c).unconditionalSteal p = s' at *
  have fieldEq : ∀ {β : Type} (field : TreeFrame → β), field (s'.frame c) = field (s.frame c) →
      field (s'.frame p) = field (s.frame p) → ∀ g, field (s'.frame g) = field (s.frame g) := by
    intro β field sameChild sameParent g
    by_cases isChild : g = c
    · exact isChild ▸ sameChild
    · by_cases isParent : g = p
      · exact isParent ▸ sameParent
      · rw [others g isChild isParent]
  have stable := StableFrames.of_fields frames
    (fieldEq TreeFrame.home (by rw [self]) (by rw [parentFrame]))
    (fieldEq TreeFrame.isCallChild (by rw [self]) (by rw [parentFrame]))
  have pending : ∀ g, s'.pendingChildren g = (s.pendingChildren g).erase c :=
    join.pendingChildren_death pendingChild others frames (by rw [self])
      ⟨by rw [parentFrame], by simp [parentFrame]⟩
  have linkedOf : ∀ d, d ≠ c → ((s'.frame d).strand.Linked ↔ (s.frame d).strand.Linked) := by
    intro d notChild
    by_cases isParent : d = p
    · rw [isParent, parentFrame, waits]
      exact Iff.rfl
    · rw [others d notChild isParent]
  have linked : ∀ g, g ≠ p → ∀ d, LinkedChild s' g d ↔ LinkedChild s g d := by
    intro g notParent d
    unfold LinkedChild
    rw [pending]
    by_cases isChild : d = c
    · subst isChild
      have notPending : d ∉ s.pendingChildren g := by
        simp [mem_pendingChildren, parentEq, Ne.symm notParent]
      simp [notPending]
    · rw [linkedOf d isChild, Finset.mem_erase]
      simp [isChild]
  refine ⟨?_, ?_, failures.trans inv.failures⟩
  · intro g
    by_cases isChild : g = c
    · subst isChild
      constructor
      · simp [self, FrameStrand.HasFiber]
      · simp [self]
      · simp [self, synchedChild]
      · simp [self, FrameStrand.HasFiber]
      · intro _ d member
        rw [pending, childless] at member
        simp at member
      · rw [self]
        exact child.synchedChild
      · simp [self, synchedChild]
      · intro d
        rw [self, child.children d]
        exact (linked g distinct.symm d).symm
      · rw [self]
        exact child.nodup
    · by_cases isParent : g = p
      · subst isParent
        constructor
        · simp [parentFrame, FrameStrand.HasFiber]
        · intro _
          rw [parentFrame]
          exact frame.home (by simp [waits])
        · simp [parentFrame, FrameStrand.Childless]
        · intro flag _
          rw [parentFrame] at flag ⊢
          -- The called child was made with the fiber its parent was made with.
          rw [← holds, child.synchedSelf synchedChild hasFiber]
          exact frame.synchedCall flag c pendingChild isCall
        · intro flag d member call
          rw [parentFrame] at flag ⊢
          rw [pending] at member
          have old := Finset.mem_of_mem_erase member
          have madeChild := (mem_pendingChildren.1 old).1
          rw [stable.home d madeChild]
          exact frame.synchedCall flag d old (stable.isCallChild d madeChild ▸ call)
        · rw [parentFrame]
          exact frame.synchedChild
        · intro flag
          rw [parentFrame] at flag
          apply (frame.region flag).congr stable <;> rw [parentFrame]
          intro first firstEq
          obtain ⟨-, first', firstEq', -, -, isSpawn, -⟩ := frame.region flag
          rw [firstEq, Option.some.injEq] at firstEq'
          subst firstEq'
          have notFirst : first ≠ c := by
            rintro rfl
            rw [isCall] at isSpawn
            exact Bool.noConfusion isSpawn
          exact ⟨fun head => head?_erase_of_ne head notFirst,
            fun gone member => gone (List.mem_of_mem_erase member)⟩
        · intro d
          rw [parentFrame, frame.nodup.mem_erase_iff, frame.children d, pending, Finset.mem_erase]
          by_cases isChild : d = c
          · simp [isChild]
          · rw [linkedOf d isChild]
            simp [isChild]
        · rw [parentFrame]
          exact frame.nodup.erase c
      · apply (inv.frames g).of_untouched (others g isChild isParent) stable _ (linked g isParent)
        rw [pending]
        exact Finset.erase_subset c _
  · obtain ⟨place, map⟩ := inv.places
    obtain ⟨place', map'⟩ := map.handOver holds empty
    refine ⟨place', ?_⟩
    rw [freed, fibers, funext (fieldEq TreeFrame.fiberChild (by rw [self]) (by rw [parentFrame]))]
    convert map' using 1
    funext g
    by_cases isParent : g = p
    · subst isParent
      simp [parentFrame]
    · by_cases isChild : g = c
      · subst isChild
        simp [isParent, self]
      · simp [isParent, isChild, others g isChild isParent]

/-! ### Stealing -/

/-- A frame is made, as a linked child of `p` or under no parent, and `p` changes with it. -/
structure Birth (s s' : SpawnTree) (p : Nat) : Prop where
  alive : (s.frame p).strand ≠ .dead
  others : ∀ g, g ≠ s.frames → g ≠ p → s'.frame g = s.frame g
  frames : s'.frames = s.frames + 1
  child : (s'.frame s.frames).parent = none ∨ (s'.frame s.frames).parent = some p
  childLinked : (s'.frame s.frames).strand.Linked
  parent : (s'.frame p).parent = (s.frame p).parent
  home : (s'.frame p).home = (s.frame p).home
  isCallChild : (s'.frame p).isCallChild = (s.frame p).isCallChild
  linked : (s'.frame p).strand.Linked ∧ (s.frame p).strand.Linked

theorem FrameStrand.Linked.alive {strand : FrameStrand} (linked : strand.Linked) :
    strand ≠ .dead := by
  rintro rfl
  exact linked

theorem Birth.stable {s s' : SpawnTree} {p : Nat} (birth : Birth s s' p) : StableFrames s s' := by
  constructor
  · rw [birth.frames]
    exact Nat.le_succ _
  · intro c made
    by_cases isParent : c = p
    · rw [isParent, birth.home]
    · rw [birth.others c (Nat.ne_of_lt made) isParent]
  · intro c made
    by_cases isParent : c = p
    · rw [isParent, birth.isCallChild]
    · rw [birth.others c (Nat.ne_of_lt made) isParent]

theorem Birth.pending {s s' : SpawnTree} {p : Nat} (birth : Birth s s' p) (join : JoinInv s) (g : Nat) :
    s'.pendingChildren g =
      if (s'.frame s.frames).parent = some g then insert s.frames (s.pendingChildren g)
      else s.pendingChildren g :=
  join.pendingChildren_birth birth.alive birth.others birth.frames birth.childLinked.alive
    ⟨birth.parent, birth.linked.1.alive⟩ g

/-- The children of one frame with the new one. -/
theorem Birth.linkedChild_iff {s s' : SpawnTree} {p : Nat} (birth : Birth s s' p) (join : JoinInv s)
    (g c : Nat) :
    LinkedChild s' g c ↔
      LinkedChild s g c ∨ ((s'.frame s.frames).parent = some g ∧ c = s.frames) := by
  unfold LinkedChild
  rw [birth.pending join]
  by_cases isChild : c = s.frames
  · subst isChild
    have unmade : s.frames ∉ s.pendingChildren g := by simp [mem_pendingChildren]
    by_cases link : (s'.frame s.frames).parent = some g
    · simp [link, birth.childLinked]
    · simp [link, unmade]
  · have linked : (s'.frame c).strand.Linked ↔ (s.frame c).strand.Linked := by
      by_cases isParent : c = p
      · rw [isParent]
        exact iff_of_true birth.linked.1 birth.linked.2
      · rw [birth.others c isChild isParent]
    rw [linked]
    split <;> simp [isChild]

/-- The frames apart from the new one and its parent. -/
theorem StackInv.of_birth_other {s s' : SpawnTree} (inv : StackInv s) (join : JoinInv s) {p : Nat}
    (birth : Birth s s' p) {g : Nat} (notChild : g ≠ s.frames) (notParent : g ≠ p) :
    StackLocal s' g := by
  have notLinked : (s'.frame s.frames).parent ≠ some g := by
    rcases birth.child with orphan | linked
    · simp [orphan]
    · simp [linked, Ne.symm notParent]
  have pending := birth.pending join g
  rw [if_neg notLinked] at pending
  apply (inv.frames g).of_untouched (birth.others g notChild notParent) birth.stable pending.subset
  intro c
  rw [birth.linkedChild_iff join]
  simp [notLinked]

/-- The new frame has a fiber and no children. -/
theorem Birth.child_local {s s' : SpawnTree} {p : Nat} (birth : Birth s s' p) (join : JoinInv s)
    (hasFiber : (s'.frame s.frames).strand.HasFiber)
    (home : (s'.frame s.frames).home.isSome)
    (fiberSelf : (s'.frame s.frames).fiberSelf = (s'.frame s.frames).home)
    (synched : (s'.frame s.frames).unsynched = false)
    (fiberChild : (s'.frame s.frames).fiberChild = none)
    (firstSpawn : (s'.frame s.frames).firstSpawn = none)
    (children : (s'.frame s.frames).children = []) : StackLocal s' s.frames := by
  have made := join.made birth.alive
  have notSelf : (s'.frame s.frames).parent ≠ some s.frames := by
    rcases birth.child with orphan | linked
    · simp [orphan]
    · rw [linked, ne_eq, Option.some.injEq]
      exact Nat.ne_of_lt made
  have pending := birth.pending join s.frames
  rw [if_neg notSelf, join.pending_fresh (Nat.le_refl _)] at pending
  constructor
  · simp [fiberSelf, home, hasFiber]
  · exact fun _ => home
  · exact fun _ => synched
  · exact fun _ _ => fiberSelf
  · simp [pending]
  · exact fun _ => ⟨fiberChild, firstSpawn⟩
  · simp [synched]
  · simp [children, pending]
  · simp [children]

theorem birth_makeCallChild {s : SpawnTree} (join : JoinInv s) {f : Nat}
    (strand : (s.frame f).strand = .held) : Birth s (s.makeCallChild f) f := by
  have made : f < s.frames := join.made (by simp [strand])
  constructor
  · simp [strand]
  · exact fun g notChild notParent => makeCallChild_other notChild notParent
  · rfl
  · rw [makeCallChild_child made]
    exact .inr rfl
  · rw [makeCallChild_child made]
    trivial
  · rw [makeCallChild_parent made]
  · rw [makeCallChild_parent made]
  · rw [makeCallChild_parent made]
  · rw [makeCallChild_parent made, strand]
    exact ⟨trivial, trivial⟩

/-- The list of children with the new one. -/
theorem StackLocal.children_append {s s' : SpawnTree} {p : Nat} (frame : StackLocal s p)
    (join : JoinInv s) (birth : Birth s s' p)
    (linked : (s'.frame s.frames).parent = some p)
    (children : (s'.frame p).children = (s.frame p).children ++ [s.frames]) :
    (∀ c, c ∈ (s'.frame p).children ↔ LinkedChild s' p c) ∧ (s'.frame p).children.Nodup := by
  have unlisted : s.frames ∉ (s.frame p).children := by
    rw [frame.children]
    simp [mem_pendingChildren]
  constructor
  · intro c
    rw [children, List.mem_append, List.mem_singleton, birth.linkedChild_iff join, frame.children c]
    simp [linked, LinkedChild]
  · rw [children, List.nodup_append]
    refine ⟨frame.nodup, List.nodup_singleton _, ?_⟩
    rintro c member _ single rfl
    exact unlisted (List.mem_singleton.1 single ▸ member)

theorem head?_append_of_some {α : Type} {xs ys : List α} {x : α} (head : xs.head? = some x) :
    (xs ++ ys).head? = some x := by
  rw [List.head?_append, head]
  rfl

/-- The held frame's fiber goes to the function it called. -/
theorem StackInv.of_makeCallChild {s : SpawnTree} (inv : StackInv s) (join : JoinInv s) {f : Nat}
    (strand : (s.frame f).strand = .held) : StackInv (s.makeCallChild f) := by
  have made : f < s.frames := join.made (by simp [strand])
  have birth := birth_makeCallChild join strand
  have frame := inv.frames f
  have hasFiber : (s.frame f).strand.HasFiber := by rw [strand]; trivial
  obtain ⟨x, holds⟩ := frame.fiberSelf_some hasFiber
  have self := makeCallChild_parent made
  have child := makeCallChild_child made
  have rest : (s.makeCallChild f).fibers = s.fibers ∧ (s.makeCallChild f).freed = s.freed ∧
      (s.makeCallChild f).failures = s.failures := ⟨rfl, rfl, rfl⟩
  obtain ⟨fibers, freed, failures⟩ := rest
  generalize s.makeCallChild f = s' at *
  have pending := birth.pending join f
  have link : (s'.frame s.frames).parent = some f := by
    rw [child]
    rfl
  rw [if_pos link] at pending
  refine ⟨?_, ?_, failures.trans inv.failures⟩
  · intro g
    by_cases isChild : g = s.frames
    · subst isChild
      apply birth.child_local join <;> rw [child]
      · trivial
      · simp [madeFrame, holds]
      · rfl
      · rfl
      · rfl
      · rfl
      · rfl
    · by_cases isParent : g = f
      · subst isParent
        have appended := frame.children_append join birth link (by rw [self])
        constructor
        · simp [self, FrameStrand.HasFiber]
        · intro _
          rw [self]
          exact frame.home (by simp [strand])
        · simp [self, FrameStrand.Childless]
        · simp [self, FrameStrand.HasFiber]
        · intro flag c member call
          rw [self] at flag ⊢
          rw [pending, Finset.mem_insert] at member
          rcases member with rfl | old
          · rw [child]
            exact frame.synchedSelf flag hasFiber
          · have madeChild := (mem_pendingChildren.1 old).1
            rw [birth.stable.home c madeChild]
            exact frame.synchedCall flag c old (birth.stable.isCallChild c madeChild ▸ call)
        · rw [self]
          exact frame.synchedChild
        · intro flag
          rw [self] at flag
          apply (frame.region flag).congr birth.stable <;> rw [self]
          intro first firstEq
          obtain ⟨-, first', firstEq', firstMade, -⟩ := frame.region flag
          rw [firstEq, Option.some.injEq] at firstEq'
          subst firstEq'
          refine ⟨head?_append_of_some, fun gone member => ?_⟩
          rcases List.mem_append.1 member with old | new
          · exact gone old
          · exact Nat.ne_of_lt firstMade (List.mem_singleton.1 new)
        · exact appended.1
        · exact appended.2
      · exact inv.of_birth_other join birth isChild isParent
  · obtain ⟨place, map⟩ := inv.places
    have fresh : (s.frame s.frames).fiberSelf = none := by
      rw [join.fresh s.frames (Nat.le_refl _)]
      rfl
    have freshChild : (s.frame s.frames).fiberChild = none := by
      rw [join.fresh s.frames (Nat.le_refl _)]
      rfl
    obtain ⟨place', map'⟩ := map.handOver holds fresh
    refine ⟨place', ?_⟩
    rw [freed, fibers]
    convert map' using 1
    · funext g
      by_cases isChild : g = s.frames
      · subst isChild
        simp [child, madeFrame, holds]
      · by_cases isParent : g = f
        · subst isParent
          simp [isChild, self]
        · simp [isParent, isChild, birth.others g isChild isParent]
    · funext g
      by_cases isChild : g = s.frames
      · subst isChild
        rw [child, freshChild]
        rfl
      · by_cases isParent : g = f
        · subst isParent
          rw [self]
        · rw [birth.others g isChild isParent]

theorem birth_adoptChild {s : SpawnTree} (join : JoinInv s) {loot : Nat} (future : Bool)
    (younger : List SpawnLink) (strand : (s.frame loot).strand = .held) :
    Birth s (s.adoptChild loot future younger) loot := by
  have made : loot < s.frames := join.made (by simp [strand])
  constructor
  · simp [strand]
  · exact fun g notChild notLoot => adoptChild_other notChild notLoot
  · exact adoptChild_frames s loot future younger
  · rw [adoptChild_child made]
    cases future
    · exact .inr rfl
    · exact .inl rfl
  · rw [adoptChild_child made]
    trivial
  · rw [adoptChild_loot made]
    split <;> rfl
  · rw [adoptChild_loot made]
    split <;> rfl
  · rw [adoptChild_loot made]
    split <;> rfl
  · rw [adoptChild_loot made, strand]
    split <;> exact ⟨trivial, trivial⟩

/-- The thief takes the continuation of a future spawn: the future keeps the fiber it runs on. -/
theorem StackInv.of_adoptFuture {s : SpawnTree} (inv : StackInv s) (join : JoinInv s) {loot : Nat}
    {younger : List SpawnLink} (strand : (s.frame loot).strand = .held) :
    StackInv (s.adoptChild loot true younger) := by
  have made : loot < s.frames := join.made (by simp [strand])
  have birth := birth_adoptChild join true younger strand
  have frame := inv.frames loot
  have self := @adoptChild_loot s loot true younger made
  have child := @adoptChild_child s loot true younger made
  have rest : (s.adoptChild loot true younger).fibers = s.fibers + 1 ∧
      (s.adoptChild loot true younger).freed = s.freed ∧
      (s.adoptChild loot true younger).failures = s.failures := ⟨rfl, rfl, rfl⟩
  obtain ⟨fibers, freed, failures⟩ := rest
  rw [if_pos rfl] at self
  simp only [if_true] at child
  generalize s.adoptChild loot true younger = s' at *
  have orphan : (s'.frame s.frames).parent = none := by
    rw [child]
    rfl
  have pending : s'.pendingChildren loot = s.pendingChildren loot := by
    rw [birth.pending join, orphan]
    simp
  refine ⟨?_, ?_, failures.trans inv.failures⟩
  · intro g
    by_cases isChild : g = s.frames
    · subst isChild
      apply birth.child_local join <;> rw [child] <;> trivial
    · by_cases isLoot : g = loot
      · subst isLoot
        apply frame.congr _ birth.stable _ _ _ pending.subset
        · intro c
          rw [birth.linkedChild_iff join, orphan]
          simp
        · rw [self]
          exact ⟨rfl, rfl, rfl, rfl, rfl, rfl, rfl⟩
        · simp [strand]
        · simp [self, strand, FrameStrand.HasFiber]
        · simp [self, FrameStrand.Childless]
      · exact inv.of_birth_other join birth isChild isLoot
  · obtain ⟨place, map⟩ := inv.places
    have fresh : (s.frame s.frames).fiberSelf = none := by
      rw [join.fresh s.frames (Nat.le_refl _)]
      rfl
    have freshChild : (s.frame s.frames).fiberChild = none := by
      rw [join.fresh s.frames (Nat.le_refl _)]
      rfl
    obtain ⟨place', map'⟩ := map.give fresh
    refine ⟨place', ?_⟩
    rw [freed, fibers]
    convert map' using 1
    · funext g
      by_cases isChild : g = s.frames
      · subst isChild
        simp [child, madeFrame]
      · by_cases isLoot : g = loot
        · subst isLoot
          simp [isChild, self]
        · simp [isChild, birth.others g isChild isLoot]
    · funext g
      by_cases isChild : g = s.frames
      · subst isChild
        rw [child, freshChild]
        rfl
      · by_cases isLoot : g = loot
        · subst isLoot
          rw [self]
        · rw [birth.others g isChild isLoot]

/-- The thief takes the continuation of a spawn: the child keeps the fiber, and the parent gets the
    thief's. -/
theorem StackInv.of_adoptSpawn {s : SpawnTree} (inv : StackInv s) (join : JoinInv s) {loot : Nat}
    {younger : List SpawnLink} (strand : (s.frame loot).strand = .held) :
    StackInv (s.adoptChild loot false younger) := by
  have made : loot < s.frames := join.made (by simp [strand])
  have birth := birth_adoptChild join false younger strand
  have frame := inv.frames loot
  have hasFiber : (s.frame loot).strand.HasFiber := by rw [strand]; trivial
  obtain ⟨x, holds⟩ := frame.fiberSelf_some hasFiber
  have self := @adoptChild_loot s loot false younger made
  have child := @adoptChild_child s loot false younger made
  have rest : (s.adoptChild loot false younger).fibers = s.fibers + 1 ∧
      (s.adoptChild loot false younger).freed = s.freed ∧
      (s.adoptChild loot false younger).failures = s.failures := ⟨rfl, rfl, rfl⟩
  obtain ⟨fibers, freed, failures⟩ := rest
  simp only [Bool.false_eq_true, if_false] at self child
  generalize s.adoptChild loot false younger = s' at *
  have link : (s'.frame s.frames).parent = some loot := by
    rw [child]
    rfl
  refine ⟨?_, ?_, failures.trans inv.failures⟩
  · intro g
    by_cases isChild : g = s.frames
    · subst isChild
      apply birth.child_local join <;> rw [child]
      · trivial
      · simp [madeFrame, holds]
      · rfl
      · rfl
      · rfl
      · rfl
      · rfl
    · by_cases isLoot : g = loot
      · subst isLoot
        have appended := frame.children_append join birth link (by rw [self])
        constructor
        · simp [self, FrameStrand.HasFiber]
        · intro _
          rw [self]
          exact frame.home (by simp [strand])
        · simp [self, FrameStrand.Childless]
        · simp [self]
        · simp [self]
        · simp [self]
        · intro _
          cases flag : (s.frame g).unsynched with
          | false =>
              -- The first stolen child of a region: no child was left from the last one.
              have none := (join.frames g).pending_of_synched (by simp [strand]) flag
              have empty : (s.frame g).children = [] := by
                apply List.eq_nil_iff_forall_not_mem.2
                intro c
                rw [frame.children c, none]
                simp
              obtain ⟨noFiberChild, noFirst⟩ := frame.synchedChild flag
              have home := frame.synchedSelf flag hasFiber
              refine ⟨by simp [self, noFirst, home], s.frames, by simp [self, noFirst],
                by simp [birth.frames], ?_, by simp [child, madeFrame], .inl ?_⟩
              · rw [child, self]
                exact home
              · simp [self, empty, noFiberChild]
          | true =>
              obtain ⟨regionEq, first, firstEq, firstMade, firstHome, isSpawn, holder⟩ :=
                frame.region flag
              refine ⟨by simp [self, firstEq, regionEq], first, by simp [self, firstEq],
                Nat.lt_of_lt_of_le firstMade birth.stable.more, ?_,
                (birth.stable.isCallChild first firstMade).trans isSpawn, ?_⟩
              · rw [birth.stable.home first firstMade, self]
                exact firstHome
              · rw [self]
                refine holder.imp (fun inList => ⟨head?_append_of_some inList.1, inList.2⟩)
                  (fun gone => ⟨fun member => ?_, gone.2⟩)
                rcases List.mem_append.1 member with old | new
                · exact gone.1 old
                · exact Nat.ne_of_lt firstMade (List.mem_singleton.1 new)
        · exact appended.1
        · exact appended.2
      · exact inv.of_birth_other join birth isChild isLoot
  · obtain ⟨place, map⟩ := inv.places
    have fresh : (s.frame s.frames).fiberSelf = none := by
      rw [join.fresh s.frames (Nat.le_refl _)]
      rfl
    have freshChild : (s.frame s.frames).fiberChild = none := by
      rw [join.fresh s.frames (Nat.le_refl _)]
      rfl
    have notChild : loot ≠ s.frames := Nat.ne_of_lt made
    obtain ⟨place', map'⟩ := map.handOver holds fresh
    have lootFree : Function.update (Function.update (fun f => (s.frame f).fiberSelf) loot none)
        s.frames (some x) loot = none := by
      simp [notChild]
    obtain ⟨place'', map''⟩ := map'.give lootFree
    refine ⟨place'', ?_⟩
    rw [freed, fibers]
    convert map'' using 1
    · funext g
      by_cases isLoot : g = loot
      · subst isLoot
        simp [self]
      · by_cases isChild : g = s.frames
        · subst isChild
          simp [isLoot, child, madeFrame, holds]
        · simp [isLoot, isChild, birth.others g isChild isLoot]
    · funext g
      by_cases isChild : g = s.frames
      · subst isChild
        rw [child, freshChild]
        rfl
      · by_cases isLoot : g = loot
        · subst isLoot
          rw [self]
        · rw [birth.others g isChild isLoot]

theorem StackInv.of_unroll {s : SpawnTree} (inv : StackInv s) (join : JoinInv s) {f : Nat}
    (strand : (s.frame f).strand = .held) (older : Nat) : StackInv (s.unrollCallStack f older).1 := by
  induction older generalizing s f with
  | zero => exact inv
  | succ older ih =>
      have made : f < s.frames := join.made (by simp [strand])
      apply ih (inv.of_makeCallChild join strand) (join.of_makeCallChild strand)
      simp [makeCallChild_child made, madeFrame]

/-- A thief takes a frame out of its deque. -/
theorem StackInv.of_detach {s : SpawnTree} (inv : StackInv s) (join : JoinInv s) {f : Nat}
    {callers : List SpawnLink} (strand : (s.frame f).strand = .running callers) :
    StackInv ((s.decjoin f).modify f fun ff => { ff with strand := .held }) := by
  have owned : (s.frame f).strand.Owned := by
    rw [strand]
    trivial
  rw [decjoin_of_pos ((join.frames f).pos_of_owned owned)]
  have counted : StackInv (s.modify f fun ff => { ff with joinCounter := ff.joinCounter - 1 }) := by
    apply inv.of_change
    · exact fun _ => ⟨rfl, rfl, rfl, rfl, rfl, rfl, rfl⟩
    · exact fun _ => ⟨rfl, rfl⟩
    · exact id
    · exact Iff.rfl
    · exact Iff.rfl
    · exact (inv.frames f).leaf
  apply counted.of_change
  · exact fun _ => ⟨rfl, rfl, rfl, rfl, rfl, rfl, rfl⟩
  · exact fun _ => ⟨rfl, rfl⟩
  · simp [strand]
  · simp [strand, FrameStrand.HasFiber]
  · simp [strand, FrameStrand.Linked]
  · simp [FrameStrand.Childless]

theorem StackInv.of_detachForSteal {s : SpawnTree} (inv : StackInv s) (join : JoinInv s)
    (noneHeld : s.NoneHeld) {f : Nat} {callers younger : List SpawnLink} {future : Bool} {older : Nat}
    (strand : (s.frame f).strand = .running callers) :
    StackInv (s.detachForSteal f younger future older) := by
  have owned : (s.frame f).strand.Owned := by
    rw [strand]
    trivial
  have positive := (join.frames f).pos_of_owned owned
  have detached := inv.of_detach join strand
  have joinDetached := join.of_detach strand
  have only : SpawnTree.OnlyHeld ((s.decjoin f).modify f fun ff => { ff with strand := .held }) f := by
    intro g held
    by_contra other
    rw [modify_frame_other other, decjoin_of_pos positive, modify_frame_other other] at held
    exact noneHeld g held
  have held : (((s.decjoin f).modify f fun ff => { ff with strand := .held }).frame f).strand =
      .held := by
    rw [modify_frame_self]
  obtain ⟨joinUnrolled, lootHeld, -⟩ := joinDetached.of_unroll held only older
  have unrolled := detached.of_unroll joinDetached held older
  cases future
  · exact unrolled.of_adoptSpawn joinUnrolled lootHeld
  · exact unrolled.of_adoptFuture joinUnrolled lootHeld

/-! ### Every step -/

/-- A strand step that keeps the frame's fiber and its place among its siblings. -/
theorem StackInv.of_strandStep {s : SpawnTree} (inv : StackInv s) {f : Nat} {strand : FrameStrand}
    (alive : strand ≠ .dead → (s.frame f).strand ≠ .dead)
    (hasFiber : strand.HasFiber ↔ (s.frame f).strand.HasFiber)
    (linked : strand.Linked ↔ (s.frame f).strand.Linked)
    (leaf : strand.Childless → (s.frame f).unsynched = false) :
    StackInv (s.modify f fun ff => { ff with strand := strand }) := by
  apply inv.of_change
  · exact fun _ => ⟨rfl, rfl, rfl, rfl, rfl, rfl, rfl⟩
  · exact fun _ => ⟨rfl, rfl⟩
  · exact alive
  · exact hasFiber
  · exact linked
  · exact leaf

theorem StackInv.of_decjoin {s : SpawnTree} (inv : StackInv s) {f : Nat}
    (positive : 0 < (s.frame f).joinCounter) : StackInv (s.decjoin f) := by
  rw [decjoin_of_pos positive]
  apply inv.of_change
  · exact fun _ => ⟨rfl, rfl, rfl, rfl, rfl, rfl, rfl⟩
  · exact fun _ => ⟨rfl, rfl⟩
  · exact id
  · exact Iff.rfl
  · exact Iff.rfl
  · exact (inv.frames f).leaf

theorem StackInv.of_decjoinSelf {s : SpawnTree} (inv : StackInv s) (join : JoinInv s) {f : Nat}
    (strand : (s.frame f).strand = .unlinked) :
    StackInv ((s.decjoin f).modify f fun ff =>
      { ff with strand := if ff.parent.isSome then .leaving else .dead }) := by
  have owned : (s.frame f).strand.Owned := by
    rw [strand]
    trivial
  have positive := (join.frames f).pos_of_owned owned
  have counted := inv.of_decjoin positive
  have strand' : ((s.decjoin f).frame f).strand = .unlinked := by
    rw [decjoin_of_pos positive, modify_frame_self]
    exact strand
  generalize s.decjoin f = t at *
  apply counted.of_change
  · exact fun _ => ⟨rfl, rfl, rfl, rfl, rfl, rfl, rfl⟩
  · exact fun _ => ⟨rfl, rfl⟩
  · simp [strand']
  · dsimp only
    split <;> simp [strand', FrameStrand.HasFiber]
  · dsimp only
    split <;> simp [strand', FrameStrand.Linked]
  · exact fun _ => (counted.frames f).leaf (by rw [strand']; trivial)

theorem StackInv.of_callReturn {s : SpawnTree} (inv : StackInv s) (join : JoinInv s) {f : Nat}
    (strand : (s.frame f).strand = .running []) (synched : (s.frame f).unsynched = false) :
    StackInv (((s.check ((s.frame f).joinCounter = 1) .returnCounter).decjoin f).modify f fun ff =>
      { ff with strand := .disowned }) := by
  have owned : (s.frame f).strand.Owned := by
    rw [strand]
    trivial
  have positive := (join.frames f).pos_of_owned owned
  have counter := (join.frames f).counter
  rw [(join.frames f).pending_of_synched (by simp [strand]) synched, if_pos owned] at counter
  rw [check_of_true (by simp [counter])]
  have counted := inv.of_decjoin positive
  have kept : ((s.decjoin f).frame f).strand = .running [] ∧
      ((s.decjoin f).frame f).unsynched = false := by
    rw [decjoin_of_pos positive, modify_frame_self]
    exact ⟨strand, synched⟩
  apply counted.of_strandStep
  · simp [kept.1]
  · simp [kept.1, FrameStrand.HasFiber]
  · simp [kept.1, FrameStrand.Linked]
  · exact fun _ => kept.2

theorem StackInv.of_initial : StackInv .initial := by
  have noChildren : ∀ f, SpawnTree.initial.pendingChildren f = ∅ := by
    intro f
    ext c
    by_cases root : c = 0 <;> simp [mem_pendingChildren, SpawnTree.initial, root, TreeFrame.absent]
  refine ⟨?_, ⟨fun x => if x = 0 then .self 0 else .unused, ?_⟩, rfl⟩
  · intro f
    have called : ∀ c ∈ SpawnTree.initial.pendingChildren f, False := by
      simp [noChildren]
    by_cases root : f = 0
    · constructor
      case synchedCall => exact fun _ c member => (called c member).elim
      case children =>
        intro c
        rw [noChildren]
        simp [SpawnTree.initial, root, TreeFrame.absent]
      all_goals simp [SpawnTree.initial, root, TreeFrame.absent, FrameStrand.HasFiber]
    · constructor
      case synchedCall => exact fun _ c member => (called c member).elim
      case children =>
        intro c
        rw [noChildren]
        simp [SpawnTree.initial, root, TreeFrame.absent]
      all_goals simp [SpawnTree.initial, root, TreeFrame.absent, FrameStrand.HasFiber]
  · constructor
    · intro f x
      by_cases root : f = 0 <;> by_cases first : x = 0 <;>
        simp [SpawnTree.initial, root, first, TreeFrame.absent, eq_comm]
    · intro f x
      by_cases root : f = 0 <;> by_cases first : x = 0 <;>
        simp [SpawnTree.initial, root, first, TreeFrame.absent]
    · intro x
      by_cases first : x = 0 <;> simp [SpawnTree.initial, first]
    · simp [SpawnTree.initial]
    · intro x
      by_cases first : x = 0
      · simp [SpawnTree.initial, first]
      · simp [SpawnTree.initial, first]
        omega

theorem StackInv.of_step {s s' : SpawnTree} {label : TreeLabel} (inv : StackInv s) (tree : TreeInv s)
    (taken : spawnTreeStep s label = some s') : StackInv s' := by
  have join := tree.toJoinInv
  cases label with
  | invoke f link =>
      cases strand : (s.frame f).strand <;> simp [spawnTreeStep, strand] at taken
      rw [← taken]
      apply inv.of_strandStep <;> simp [strand, FrameStrand.HasFiber, FrameStrand.Linked,
        FrameStrand.Childless]
  | leave f =>
      cases strand : (s.frame f).strand <;> simp [spawnTreeStep, strand] at taken
      rename_i callers
      cases callers with
      | nil => simp at taken
      | cons link callers =>
          simp only [Option.some.injEq] at taken
          rw [← taken]
          apply inv.of_strandStep <;> simp [strand, FrameStrand.HasFiber, FrameStrand.Linked,
            FrameStrand.Childless]
  | steal f =>
      cases strand : (s.frame f).strand <;> simp [spawnTreeStep, strand] at taken
      rename_i callers
      split at taken
      · simp only [Option.some.injEq] at taken
        rw [← taken]
        exact inv.of_detachForSteal join tree.noneHeld strand
      · simp at taken
  | resume f =>
      cases strand : (s.frame f).strand <;> simp [spawnTreeStep, strand] at taken
      rw [← taken]
      apply inv.of_strandStep <;> simp [strand, FrameStrand.HasFiber, FrameStrand.Linked,
        FrameStrand.Childless]
  | sync f =>
      simp only [spawnTreeStep] at taken
      split at taken
      · rename_i atSync
        cases taken
        exact inv.of_fiberToFree atSync.1 id (by simp) (.inl trivial) (fun childless => absurd childless id)
      · simp at taken
  | doSync f =>
      simp only [spawnTreeStep] at taken
      split at taken
      · rename_i strand
        cases taken
        exact inv.of_doSync join strand
      · simp at taken
  | spawnReturn f =>
      simp only [spawnTreeStep] at taken
      split at taken
      · rename_i returns
        cases taken
        cases parent : (s.frame f).parent with
        | none =>
            have orphan : s.finishSpawnReturn f = s.fiberToFree f := by
              simp only [finishSpawnReturn, parent]
            rw [orphan]
            exact inv.of_fiberToFree returns.1 id (by simp) (.inr parent) (fun _ => returns.2.1)
        | some p => exact inv.of_spawnReturn join returns.1 returns.2.1 returns.2.2.1 parent
      · simp at taken
  | decjoinSelf f =>
      simp only [spawnTreeStep] at taken
      split at taken
      · rename_i strand
        cases taken
        exact inv.of_decjoinSelf join strand
      · simp at taken
  | decjoinParent f =>
      cases strand : (s.frame f).strand <;> cases parent : (s.frame f).parent <;>
        simp [spawnTreeStep, strand, parent] at taken
      rw [← taken]
      exact inv.of_decjoinParent join tree.noneHeld strand parent
  | callReturn f =>
      simp only [spawnTreeStep] at taken
      split at taken
      · rename_i returns
        cases taken
        exact inv.of_callReturn join returns.1 returns.2.1
      · simp at taken
  | finalizeCall f =>
      cases strand : (s.frame f).strand <;> cases parent : (s.frame f).parent <;>
        simp [spawnTreeStep, strand, parent] at taken
      rw [← taken]
      exact inv.of_finalizeCall join strand parent

theorem stackInv_reachable {s : SpawnTree} (reachable : spawnTreeMachine.Reachable s) :
    TreeInv s ∧ StackInv s := by
  apply reachable.invariant
  · rintro _ rfl
    exact ⟨.of_initial, .of_initial⟩
  · exact fun _ _ _ _ inv taken => ⟨inv.1.of_step taken, inv.2.of_step inv.1 taken⟩

/-! ### What the rule says of one step -/

/-- The frame that crosses takes the fiber its first stolen child passed up. -/
theorem TreeInv.crossing_takes {s s' : SpawnTree} {label : TreeLabel} (inv : TreeInv s)
    (taken : spawnTreeStep s label = some s') {f : Nat}
    (crosses : (s'.frame f).crossings ≠ (s.frame f).crossings) :
    (s'.frame f).fiberSelf = (s.frame f).fiberChild ∧ (s'.frame f).fiberChild = none := by
  have join := inv.toJoinInv
  rcases (inv.crossing taken crosses).1 with rfl | ⟨c, rfl, parent, stalled⟩
  · simp only [spawnTreeStep] at taken
    split at taken
    · rename_i strand
      cases taken
      have positive : 0 < ((s.modify f fun ff =>
          { ff with strand := .stalled, syncs := ff.syncs + 1 }).frame f).joinCounter := by
        rw [modify_frame_self]
        exact (join.frames f).pos_of_owned (by rw [strand]; trivial)
      rw [provablyGoodSteal_frame positive] at crosses ⊢
      split at crosses
      · rename_i one
        rw [if_pos one, modify_frame_self]
        exact ⟨rfl, rfl⟩
      · simp at crosses
    · simp at taken
  · cases strand : (s.frame c).strand <;> simp [spawnTreeStep, strand, parent] at taken
    have pendingChild : c ∈ s.pendingChildren f :=
      mem_pendingChildren.2 ⟨join.made (by simp [strand]), parent, by simp [strand]⟩
    have distinct : f ≠ c := by
      rintro rfl
      simp [strand] at stalled
    have parentFrame : (s.destroyFullFrame c).frame f = s.frame f := modify_frame_other distinct s _
    have positive : 0 < ((s.destroyFullFrame c).frame f).joinCounter := by
      rw [parentFrame]
      exact (join.frames f).pos_of_pending pendingChild
    rw [← taken] at crosses ⊢
    rw [provablyGoodSteal_frame positive, parentFrame] at crosses ⊢
    split at crosses
    · rename_i one
      rw [if_pos one]
      exact ⟨rfl, rfl⟩
    · simp at crosses

/-- What a step hands to `fiber_to_free` by the rule: the fiber of the frame that stalls, and that of a
    returning child that is not the first stolen one of its parent's region. -/
def freedByRule (s : SpawnTree) : TreeLabel → List Nat
  | .sync f => (s.frame f).fiberSelf.toList
  | .spawnReturn c =>
      if ((s.frame c).parent.bind fun p => (s.frame p).firstSpawn) = some c then []
      else (s.frame c).fiberSelf.toList
  | _ => []

theorem check_freed (s : SpawnTree) (holds : Bool) (assertion : TreeAssert) :
    (s.check holds assertion).freed = s.freed := by
  cases holds <;> rfl

theorem unroll_freed (s : SpawnTree) (f older : Nat) : (s.unrollCallStack f older).1.freed = s.freed := by
  induction older generalizing s f with
  | zero => rfl
  | succ older ih => exact ih (s.makeCallChild f) s.frames

theorem detachForSteal_freed (s : SpawnTree) (f : Nat) (younger : List SpawnLink) (future : Bool)
    (older : Nat) : (s.detachForSteal f younger future older).freed = s.freed := by
  have adopted : ∀ (t : SpawnTree) (loot : Nat), (t.adoptChild loot future younger).freed = t.freed := by
    intro t loot
    cases future <;> rfl
  rw [SpawnTree.detachForSteal, adopted, unroll_freed]
  exact check_freed s _ _

/-- The first stolen child passes its fiber up, and the parent was made with that fiber. -/
theorem StackInv.first_returns {s : SpawnTree} (inv : StackInv s) (join : JoinInv s) {c p : Nat}
    (strand : (s.frame c).strand = .running []) (synched : (s.frame c).unsynched = false)
    (isSpawn : (s.frame c).isCallChild = false) (parent : (s.frame c).parent = some p) :
    (PassesUp s c p ↔ (s.frame p).firstSpawn = some c) ∧
      ((s.frame p).firstSpawn = some c → (s.frame c).fiberSelf = (s.frame p).regionFiber) := by
  have pendingChild : c ∈ s.pendingChildren p :=
    mem_pendingChildren.2 ⟨join.made (by simp [strand]), parent, by simp [strand]⟩
  have region := (inv.frames p).region (join.unsynched_of_spawned pendingChild isSpawn)
  have listed : c ∈ (s.frame p).children :=
    ((inv.frames p).children c).2 ⟨pendingChild, by rw [strand]; trivial⟩
  constructor
  · exact region.passesUp_iff ((inv.frames p).home (join.parent_made pendingChild)) listed
  · intro isFirst
    obtain ⟨regionEq, first, firstEq, -, firstHome, -⟩ := region
    rw [firstEq, Option.some.injEq] at isFirst
    subst isFirst
    rw [(inv.frames first).synchedSelf synched (by rw [strand]; trivial), firstHome, regionEq]

/-- Nothing else is handed to `fiber_to_free`. -/
theorem StackInv.freed_of_step {s s' : SpawnTree} {label : TreeLabel} (inv : StackInv s)
    (join : JoinInv s) (taken : spawnTreeStep s label = some s') :
    s'.freed = s.freed ++ freedByRule s label := by
  cases label with
  | sync f =>
      simp only [spawnTreeStep] at taken
      split at taken
      · cases taken
        rfl
      · simp at taken
  | spawnReturn c =>
      simp only [spawnTreeStep] at taken
      split at taken
      · rename_i returns
        cases taken
        cases parent : (s.frame c).parent with
        | none =>
            simp only [finishSpawnReturn, parent, freedByRule]
            rfl
        | some p =>
            have passesIff := (inv.first_returns join returns.1 returns.2.1 returns.2.2.1 parent).1
            have freed := finishSpawnReturn_freed parent
            by_cases passes : PassesUp s c p
            · rw [if_pos passes] at freed
              simp only [freedByRule, parent, Option.bind_some, passesIff.1 passes]
              simpa [SpawnTree.modify] using freed
            · rw [if_neg passes] at freed
              have notFirst : (s.frame p).firstSpawn ≠ some c := fun isFirst =>
                passes (passesIff.2 isFirst)
              simp only [freedByRule, parent, Option.bind_some, notFirst]
              exact freed
      · simp at taken
  | invoke f link =>
      cases strand : (s.frame f).strand <;> simp [spawnTreeStep, strand] at taken
      simp [← taken, SpawnTree.modify, freedByRule]
  | leave f =>
      cases strand : (s.frame f).strand <;> simp [spawnTreeStep, strand] at taken
      split at taken <;> simp at taken
      simp [← taken, SpawnTree.modify, freedByRule]
  | steal f =>
      cases strand : (s.frame f).strand <;> simp [spawnTreeStep, strand] at taken
      split at taken <;> simp at taken
      simp [← taken, detachForSteal_freed, freedByRule]
  | resume f =>
      cases strand : (s.frame f).strand <;> simp [spawnTreeStep, strand] at taken
      simp [← taken, SpawnTree.modify, freedByRule]
  | doSync f =>
      simp only [spawnTreeStep] at taken
      split at taken <;> simp at taken
      simp [← taken, provablyGoodSteal_freed, SpawnTree.modify, freedByRule]
  | decjoinSelf f =>
      simp only [spawnTreeStep] at taken
      split at taken <;> simp at taken
      simp [← taken, decjoin, SpawnTree.modify, check_freed, freedByRule]
  | decjoinParent f =>
      cases strand : (s.frame f).strand <;> cases parent : (s.frame f).parent <;>
        simp [spawnTreeStep, strand, parent] at taken
      simp [← taken, provablyGoodSteal_freed, destroyFullFrame, SpawnTree.modify, freedByRule]
  | callReturn f =>
      simp only [spawnTreeStep] at taken
      split at taken <;> simp at taken
      simp [← taken, decjoin, SpawnTree.modify, check_freed, freedByRule]
  | finalizeCall f =>
      cases strand : (s.frame f).strand <;> cases parent : (s.frame f).parent <;>
        simp [spawnTreeStep, strand, parent] at taken
      simp [← taken, unconditionalSteal, pushNextFrame, incjoin, decjoin, destroyFullFrame,
        spliceCallChild, SpawnTree.modify, check_freed, freedByRule]

/-- The loot runs on the fiber of the stolen deque's frame, and unrolling starts no sync region. -/
theorem JoinInv.unroll_loot {s : SpawnTree} (join : JoinInv s) {f : Nat}
    (strand : (s.frame f).strand = .held) (older : Nat) :
    ((s.unrollCallStack f older).1.frame (s.unrollCallStack f older).2).fiberSelf =
        (s.frame f).fiberSelf ∧
      ∀ g, ((s.unrollCallStack f older).1.frame g).firstSpawn = (s.frame g).firstSpawn := by
  induction older generalizing s f with
  | zero => exact ⟨rfl, fun _ => rfl⟩
  | succ older ih =>
      have made : f < s.frames := join.made (by simp [strand])
      have child := makeCallChild_child made
      have held : ((s.makeCallChild f).frame s.frames).strand = .held := by
        rw [child]
        rfl
      obtain ⟨fiber, first⟩ := ih (join.of_makeCallChild strand) held
      constructor
      · rw [SpawnTree.unrollCallStack, fiber, child]
        rfl
      · intro g
        rw [SpawnTree.unrollCallStack, first g]
        by_cases isChild : g = s.frames
        · subst isChild
          rw [child, join.fresh s.frames (Nat.le_refl _)]
          rfl
        · by_cases isParent : g = f
          · rw [isParent, makeCallChild_parent made]
          · rw [makeCallChild_other isChild isParent]

/-- The fiber recorded for a new region is the one the stolen function was running on. -/
theorem JoinInv.region_of_steal {s : SpawnTree} (join : JoinInv s) (noneHeld : s.NoneHeld) {f : Nat}
    {callers younger : List SpawnLink} {future : Bool} {older : Nat}
    (strand : (s.frame f).strand = .running callers) {g : Nat}
    (opens : ((s.detachForSteal f younger future older).frame g).firstSpawn ≠ (s.frame g).firstSpawn) :
    ((s.detachForSteal f younger future older).frame g).regionFiber = (s.frame f).fiberSelf := by
  have positive := (join.frames f).pos_of_owned (by rw [strand]; trivial)
  have joinDetached := join.of_detach strand
  have detached : ∀ g, (((s.decjoin f).modify f fun ff => { ff with strand := .held }).frame
        g).firstSpawn = (s.frame g).firstSpawn ∧
      (((s.decjoin f).modify f fun ff => { ff with strand := .held }).frame g).fiberSelf =
        (s.frame g).fiberSelf ∧
      ((((s.decjoin f).modify f fun ff => { ff with strand := .held }).frame g).strand = .held →
        g = f) := by
    intro g
    rw [decjoin_of_pos positive]
    by_cases here : g = f
    · subst here
      rw [modify_frame_self, modify_frame_self]
      exact ⟨rfl, rfl, fun _ => rfl⟩
    · rw [modify_frame_other here, modify_frame_other here]
      exact ⟨rfl, rfl, fun held => absurd held (noneHeld g)⟩
  have held : (((s.decjoin f).modify f fun ff => { ff with strand := .held }).frame f).strand =
      .held := by
    rw [modify_frame_self]
  obtain ⟨joinUnrolled, lootHeld, -⟩ := joinDetached.of_unroll held (fun g => (detached g).2.2) older
  obtain ⟨fiber, first⟩ := joinDetached.unroll_loot held older
  have made := joinUnrolled.made (by rw [lootHeld]; simp)
  rw [(detached f).2.1] at fiber
  have first' := (first g).trans (detached g).1
  simp only [SpawnTree.detachForSteal] at opens ⊢
  generalize ((s.decjoin f).modify f fun ff => { ff with strand := .held }).unrollCallStack f older =
    unrolled at *
  by_cases isLoot : g = unrolled.2
  · subst isLoot
    rw [adoptChild_loot made] at opens ⊢
    cases future with
    | true => exact absurd first' opens
    | false =>
        cases noFirst : (unrolled.1.frame unrolled.2).firstSpawn with
        | none => simpa [noFirst] using fiber
        | some child =>
            rw [noFirst] at first'
            simp [noFirst, ← first'] at opens
  · by_cases isChild : g = unrolled.1.frames
    · subst isChild
      rw [adoptChild_child made] at opens
      rw [joinUnrolled.fresh _ (Nat.le_refl _)] at first'
      exact absurd first' opens
    · rw [adoptChild_other isChild isLoot] at opens
      exact absurd first' opens

/-- In every run, every fiber has one place and is handed to `fiber_to_free` at most once, by the rule;
    a frame that crosses its sync runs on the fiber it was running on before the first stolen spawn of
    the region, which its first stolen child passed up. -/
theorem left_holder_rule {s : SpawnTree} (reachable : spawnTreeMachine.Reachable s) :
    s.failures = [] ∧
      (∃ place, FiberMap (fun f => (s.frame f).fiberSelf) (fun f => (s.frame f).fiberChild) s.freed
        s.fibers place) ∧
      (∀ f, (s.frame f).strand = .dead →
        (s.frame f).fiberSelf = none ∧ (s.frame f).fiberChild = none) ∧
      ∀ label s', spawnTreeStep s label = some s' →
        s'.freed = s.freed ++ freedByRule s label ∧
        (∀ f, (s'.frame f).crossings ≠ (s.frame f).crossings →
          (s'.frame f).fiberSelf = (s.frame f).regionFiber ∧ (s.frame f).regionFiber.isSome ∧
            (s'.frame f).fiberChild = none) ∧
        (∀ c p, label = .spawnReturn c → (s.frame c).parent = some p →
          (s.frame p).firstSpawn = some c →
            (s.frame c).fiberSelf = (s.frame p).regionFiber ∧
              (s'.frame p).fiberChild = (s.frame p).regionFiber) ∧
        ∀ f g, label = .steal f → (s'.frame g).firstSpawn ≠ (s.frame g).firstSpawn →
          (s'.frame g).regionFiber = (s.frame f).fiberSelf := by
  obtain ⟨tree, inv⟩ := stackInv_reachable reachable
  have join := tree.toJoinInv
  refine ⟨inv.failures, inv.places, ?_, ?_⟩
  · intro f dead
    have frame := inv.frames f
    exact ⟨frame.fiberSelf_none (by rw [dead]; exact id),
      (frame.synchedChild (frame.leaf (by rw [dead]; trivial))).1⟩
  · intro label s' taken
    have inv' := inv.of_step tree taken
    refine ⟨inv.freed_of_step join taken, ?_, ?_, ?_⟩
    · intro f crosses
      obtain ⟨takes, empty⟩ := tree.crossing_takes taken crosses
      have next := (tree.crossing taken crosses).2.2.1
      have runs : (s'.frame f).fiberSelf.isSome :=
        (inv'.frames f).self.2 (by rw [next]; trivial)
      rw [takes] at runs ⊢
      have passed : (s.frame f).fiberChild = (s.frame f).regionFiber := by
        cases flag : (s.frame f).unsynched with
        | false => simp [((inv.frames f).synchedChild flag).1] at runs
        | true =>
            obtain ⟨regionEq, first, -, -, -, -, ⟨-, none⟩ | ⟨-, home⟩⟩ := (inv.frames f).region flag
            · simp [none] at runs
            · rw [regionEq, home]
      exact ⟨passed, passed ▸ runs, empty⟩
    · rintro c p rfl parent isFirst
      simp only [spawnTreeStep] at taken
      split at taken
      · rename_i returns
        cases taken
        obtain ⟨passesIff, fiber⟩ :=
          inv.first_returns join returns.1 returns.2.1 returns.2.2.1 parent
        have distinct : c ≠ p := by
          rintro rfl
          have childless := (join.frames c).pending_of_synched (by simp [returns.1]) returns.2.1
          have pendingChild : c ∈ s.pendingChildren c :=
            mem_pendingChildren.2 ⟨join.made (by simp [returns.1]), parent, by simp [returns.1]⟩
          simp [childless] at pendingChild
        refine ⟨fiber isFirst, ?_⟩
        rw [modify_frame_other distinct.symm, finishSpawnReturn_parent parent distinct,
          if_pos (passesIff.2 isFirst)]
        exact fiber isFirst
      · simp at taken
    · rintro f g rfl opens
      cases strand : (s.frame f).strand <;> simp [spawnTreeStep, strand] at taken
      split at taken <;> simp at taken
      rw [← taken] at opens ⊢
      exact join.region_of_steal tree.noneHeld strand opens

/-- The run of `stolenSpawnTrace`: the frame crosses its sync on fiber 0, and the fiber of the thief is
    handed to `fiber_to_free`. -/
theorem left_holder_rule_stolen :
    (spawnTreeMachine.after .initial stolenSpawnTrace).failures = [] ∧
      (spawnTreeMachine.after .initial stolenSpawnTrace).freed = [1] ∧
      ((spawnTreeMachine.after .initial stolenSpawnTrace).frame 0).fiberSelf = some 0 := by
  have start : spawnTreeMachine.Reachable .initial := .start rfl
  exact ⟨(left_holder_rule (start.after stolenSpawnTrace)).1, by decide, by decide⟩

end CilkL
