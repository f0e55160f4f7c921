/-
Module: CilkL.Proofs.FrameSlots
Layer: Proofs
Purpose: What the tree of full frames says about the pointers of a frame to reducer maps and exceptions, and
  what a step of the tree keeps of it: a frame that is about to be destroyed has none. A called child is the
  last one in its parent's list, so nothing is left to the right of it.
Imports: CilkL.Proofs.ActiveWorkers, CilkL.Proofs.LeftHolder, CilkL.Proofs.SyncReplay,
  CilkL.Runtime.FrameLifetime
Trusted boundary: none (fully proved)
Main exports: SlotOk, SlotsKept, CallsLast, Turns, Grown, TreeInv.grown_of_steal, TreeInv.region_of_step,
  TreeInv.slots_of_step, CallsLast.of_step
Open obligations: none
-/
import CilkL.Proofs.ActiveWorkers
import CilkL.Proofs.LeftHolder
import CilkL.Proofs.SyncReplay
import CilkL.Runtime.FrameLifetime

namespace CilkL

open SpawnTree

/-! ### The pointers of a frame -/

/-- When a frame can have maps and exceptions. -/
structure SlotOk (ff : TreeFrame) (slots : FrameSlots) : Prop where
  childrenReducerMap : slots.childrenReducerMap = true → ff.unsynched = true ∨ ff.strand = .next
  childPendingException : slots.childPendingException = true → ff.unsynched = true
  pendingException : slots.pendingException = true → ff.strand = .next ∨ ff.strand = .disowned
  right : slots.rightReducerMap = true ∨ slots.rightPendingException = true →
    ff.isCallChild = false ∧ ff.parent.isSome ∧ ff.strand.Linked

/-- A frame that was just made has none. -/
theorem SlotOk.of_null (ff : TreeFrame) : SlotOk ff .null := by
  constructor <;> simp [FrameSlots.null]

/-- What a step keeps for the pointers to stay as they are. -/
structure SlotsKept (ff ff' : TreeFrame) : Prop where
  unsynched : ff.unsynched = true → ff'.unsynched = true
  next : ff.strand = .next → ff'.strand = .next
  disowned : ff.strand = .disowned → ff'.strand = .disowned
  linked : ff.strand.Linked →
    ff'.strand.Linked ∧ ff'.isCallChild = ff.isCallChild ∧ ff'.parent = ff.parent

theorem SlotsKept.refl (ff : TreeFrame) : SlotsKept ff ff := ⟨id, id, id, fun linked => ⟨linked, rfl, rfl⟩⟩

theorem SlotsKept.trans {ff ff' ff'' : TreeFrame} (first : SlotsKept ff ff') (second : SlotsKept ff' ff'') :
    SlotsKept ff ff'' where
  unsynched := second.unsynched ∘ first.unsynched
  next := second.next ∘ first.next
  disowned := second.disowned ∘ first.disowned
  linked isLinked := by
    obtain ⟨linked', isCallChild, parent⟩ := first.linked isLinked
    obtain ⟨linked'', isCallChild', parent'⟩ := second.linked linked'
    exact ⟨linked'', isCallChild'.trans isCallChild, parent'.trans parent⟩

/-- A frame that is made. -/
theorem SlotsKept.of_absent (ff' : TreeFrame) : SlotsKept .absent ff' where
  unsynched flag := Bool.noConfusion flag
  next isNext := FrameStrand.noConfusion isNext
  disowned isDisowned := FrameStrand.noConfusion isDisowned
  linked isLinked := absurd isLinked id

theorem SlotOk.kept {ff ff' : TreeFrame} {slots : FrameSlots} (ok : SlotOk ff slots)
    (kept : SlotsKept ff ff') : SlotOk ff' slots where
  childrenReducerMap isSet := (ok.childrenReducerMap isSet).imp kept.unsynched kept.next
  childPendingException isSet := kept.unsynched (ok.childPendingException isSet)
  pendingException isSet := (ok.pendingException isSet).imp kept.next kept.disowned
  right isSet := by
    obtain ⟨isSpawn, hasParent, linked⟩ := ok.right isSet
    obtain ⟨linked', isCallChild, parent⟩ := kept.linked linked
    exact ⟨isCallChild.trans isSpawn, parent ▸ hasParent, linked'⟩

/-- A synched frame that is neither about to be resumed nor linked has nothing. -/
theorem SlotOk.null {ff : TreeFrame} {slots : FrameSlots} (ok : SlotOk ff slots)
    (synched : ff.unsynched = false) (quiet : ff.strand ≠ .next ∧ ff.strand ≠ .disowned)
    (alone : ff.parent = none ∨ ¬ff.strand.Linked) : slots = .null := by
  have right : ¬(slots.rightReducerMap = true ∨ slots.rightPendingException = true) := by
    intro isSet
    obtain ⟨-, hasParent, linked⟩ := ok.right isSet
    rcases alone with orphan | unlinked
    · simp [orphan] at hasParent
    · exact unlinked linked
  have children : slots.childrenReducerMap ≠ true := fun isSet => by
    rcases ok.childrenReducerMap isSet with flag | next
    · simp [synched] at flag
    · exact quiet.1 next
  have childException : slots.childPendingException ≠ true := fun isSet => by
    simpa [synched] using ok.childPendingException isSet
  have exception : slots.pendingException ≠ true := fun isSet =>
    (ok.pendingException isSet).elim quiet.1 quiet.2
  rcases slots with ⟨childrenMap, rightMap, pending, childPending, rightPending⟩
  simp only [not_or, Bool.not_eq_true] at right children childException exception
  simp [FrameSlots.null, children, childException, exception, right]

/-- Pointers that are cleared. -/
theorem SlotOk.less {ff : TreeFrame} {slots slots' : FrameSlots} (ok : SlotOk ff slots)
    (children : slots'.childrenReducerMap = true → slots.childrenReducerMap = true)
    (childException : slots'.childPendingException = true → slots.childPendingException = true)
    (exception : slots'.pendingException = true → slots.pendingException = true)
    (right : slots'.rightReducerMap = true ∨ slots'.rightPendingException = true →
      slots.rightReducerMap = true ∨ slots.rightPendingException = true) : SlotOk ff slots' where
  childrenReducerMap isSet := ok.childrenReducerMap (children isSet)
  childPendingException isSet := ok.childPendingException (childException isSet)
  pendingException isSet := ok.pendingException (exception isSet)
  right isSet := ok.right (right isSet)

/-- `setup_for_execution`. -/
theorem SlotOk.resumed {ff : TreeFrame} {slots : FrameSlots} (ok : SlotOk ff slots) :
    SlotOk { ff with strand := .running [] }
      { slots with
        childrenReducerMap := slots.childrenReducerMap && ff.unsynched, pendingException := false } where
  childrenReducerMap isSet := .inl (Bool.and_elim_right isSet)
  childPendingException isSet := ok.childPendingException isSet
  pendingException isSet := Bool.noConfusion isSet
  right isSet := ⟨(ok.right isSet).1, (ok.right isSet).2.1, trivial⟩

/-- A spawned frame has given up what it had when it unlinks itself. -/
theorem SlotOk.returned {ff ff' : TreeFrame} {slots : FrameSlots} (ok : SlotOk ff slots)
    (running : ff.strand = .running []) (unsynched : ff'.unsynched = ff.unsynched)
    (right : ¬(slots.rightReducerMap = true ∨ slots.rightPendingException = true)) : SlotOk ff' slots where
  childrenReducerMap isSet :=
    .inl (unsynched.trans ((ok.childrenReducerMap isSet).resolve_right (by simp [running])))
  childPendingException isSet := unsynched.trans (ok.childPendingException isSet)
  pendingException isSet := by simpa [running] using ok.pendingException isSet
  right isSet := absurd isSet right

/-- The exception of a called frame goes to the caller, which goes on. -/
theorem SlotOk.goesOn {ff ff' : TreeFrame} {slots : FrameSlots} (ok : SlotOk ff slots)
    (next : ff'.strand = .next) (unsynched : ff'.unsynched = ff.unsynched)
    (isCallChild : ff'.isCallChild = ff.isCallChild) (parent : ff'.parent = ff.parent) (exception : Bool) :
    SlotOk ff' { slots with pendingException := exception } where
  childrenReducerMap _ := .inr next
  childPendingException isSet := unsynched.trans (ok.childPendingException isSet)
  pendingException _ := .inl next
  right isSet := by
    obtain ⟨isSpawn, hasParent, -⟩ := ok.right isSet
    exact ⟨isCallChild.trans isSpawn, parent ▸ hasParent, by rw [next]; trivial⟩

/-! ### Called children -/

/-- A called child is the last one in the list. -/
def CallsLast (t : SpawnTree) : Prop :=
  ∀ p, ∀ c ∈ (t.frame p).children, (t.frame c).isCallChild = true →
    (t.frame p).children.getLast? = some c

/-- The lists of children stay, or lose an element. -/
theorem CallsLast.of_erase {t t' : SpawnTree} (calls : CallsLast t) (stack : StackInv t)
    (isCallChild : ∀ c, (t'.frame c).isCallChild = (t.frame c).isCallChild)
    (children : ∀ p, (t'.frame p).children = (t.frame p).children ∨
      ∃ c, (t'.frame p).children = (t.frame p).children.erase c) : CallsLast t' := by
  intro p c member isCall
  rw [isCallChild] at isCall
  rcases children p with same | ⟨gone, erased⟩
  · rw [same] at member ⊢
    exact calls p c member isCall
  · rw [erased] at member ⊢
    obtain ⟨other, old⟩ := (stack.frames p).nodup.mem_erase_iff.1 member
    obtain ⟨before, split⟩ := List.getLast?_eq_some_iff.1 (calls p c old isCall)
    rw [split, List.erase_append]
    split
    · simp
    · rw [List.erase_of_not_mem (by simpa using other.symm)]
      simp

/-- A called child waits for a frame that is not held. -/
theorem StackInv.spawned_of_held {t : SpawnTree} (stack : StackInv t) (join : JoinInv t) {p c : Nat}
    (working : (t.frame p).strand ≠ .waiting) (member : c ∈ (t.frame p).children) :
    (t.frame c).isCallChild = false := by
  obtain ⟨pending, -⟩ := ((stack.frames p).children c).1 member
  by_contra isCall
  exact working ((join.frames p).called c pending (by simpa [SpawnTree.isCall] using isCall))

/-- A frame is made at the end of the list. -/
theorem CallsLast.of_birth {t t' : SpawnTree} {p : Nat} (calls : CallsLast t) (stack : StackInv t)
    (join : JoinInv t) (birth : Birth t t' p) (held : (t.frame p).strand = .held)
    (leaf : (t'.frame t.frames).children = [])
    (children : (t'.frame p).children = (t.frame p).children ∨
      (t'.frame p).children = (t.frame p).children ++ [t.frames]) : CallsLast t' := by
  have stays : ∀ g, ∀ c ∈ (t.frame g).children, (t'.frame c).isCallChild = (t.frame c).isCallChild := by
    intro g c member
    obtain ⟨pending, -⟩ := ((stack.frames g).children c).1 member
    exact birth.stable.isCallChild c (mem_pendingChildren.1 pending).1
  have spawned : ∀ c ∈ (t.frame p).children, (t'.frame c).isCallChild = false := by
    intro c member
    rw [stays p c member]
    exact stack.spawned_of_held join (by simp [held]) member
  intro g c member isCall
  by_cases isChild : g = t.frames
  · rw [isChild, leaf] at member
    simp at member
  by_cases isParent : g = p
  · subst isParent
    rcases children with same | longer
    · rw [same] at member
      simp [spawned c member] at isCall
    · rw [longer] at member ⊢
      rcases List.mem_append.1 member with old | new
      · simp [spawned c old] at isCall
      · simp [List.mem_singleton.1 new]
  · rw [birth.others g isChild isParent] at member ⊢
    exact calls g c member (stays g c member ▸ isCall)

/-! ### Steals -/

/-- What a steal does: it makes frames, and takes nothing from the others. -/
structure Grown (t t' : SpawnTree) : Prop where
  more : t.frames ≤ t'.frames
  kept : ∀ g, SlotsKept (t.frame g) (t'.frame g)
  alive : ∀ g, (t'.frame g).strand ≠ .dead ↔
    (t.frame g).strand ≠ .dead ∨ g < t'.frames ∧ ¬g < t.frames
  callsLast : CallsLast t → CallsLast t'
  leaving : ∀ g, (t'.frame g).strand = .leaving → (t.frame g).strand = .leaving ∧
    (t'.frame g).parent = (t.frame g).parent

theorem Grown.trans {t t' t'' : SpawnTree} (first : Grown t t') (second : Grown t' t'') : Grown t t'' where
  more := first.more.trans second.more
  kept g := (first.kept g).trans (second.kept g)
  alive g := by
    have more := first.more
    have more' := second.more
    rw [second.alive, first.alive]
    constructor
    · rintro ((alive | new) | new)
      · exact .inl alive
      · exact .inr ⟨by omega, new.2⟩
      · exact .inr ⟨new.1, by omega⟩
    · rintro (alive | new)
      · exact .inl (.inl alive)
      · by_cases early : g < t'.frames
        · exact .inl (.inr ⟨early, new.2⟩)
        · exact .inr ⟨new.1, early⟩
  callsLast := second.callsLast ∘ first.callsLast
  leaving g isLeaving := by
    obtain ⟨before, parent⟩ := second.leaving g isLeaving
    obtain ⟨before', parent'⟩ := first.leaving g before
    exact ⟨before', parent.trans parent'⟩

/-- One frame is made. -/
theorem Grown.of_birth {t t' : SpawnTree} {p : Nat} (stack : StackInv t) (join : JoinInv t)
    (birth : Birth t t' p) (held : (t.frame p).strand = .held)
    (strands : (t'.frame p).strand ≠ .leaving ∧ (t'.frame t.frames).strand ≠ .leaving)
    (unsynched : (t.frame p).unsynched = true → (t'.frame p).unsynched = true)
    (leaf : (t'.frame t.frames).children = [])
    (children : (t'.frame p).children = (t.frame p).children ∨
      (t'.frame p).children = (t.frame p).children ++ [t.frames]) : Grown t t' where
  more := by
    rw [birth.frames]
    exact Nat.le_succ _
  kept g := by
    by_cases isChild : g = t.frames
    · rw [isChild, join.fresh t.frames (Nat.le_refl _)]
      exact .of_absent _
    by_cases isParent : g = p
    · subst isParent
      exact ⟨unsynched, by simp [held], by simp [held],
        fun _ => ⟨birth.linked.1, birth.isCallChild, birth.parent⟩⟩
    · rw [birth.others g isChild isParent]
      exact .refl _
  alive g := by
    rw [birth.frames]
    by_cases isChild : g = t.frames
    · subst isChild
      exact iff_of_true birth.childLinked.alive (.inr ⟨Nat.lt_succ_self _, Nat.lt_irrefl _⟩)
    by_cases isParent : g = p
    · subst isParent
      exact iff_of_true birth.linked.1.alive (.inl birth.alive)
    · rw [birth.others g isChild isParent]
      exact ⟨.inl, fun known => known.resolve_right fun new => by omega⟩
  callsLast calls := calls.of_birth stack join birth held leaf children
  leaving g isLeaving := by
    by_cases isChild : g = t.frames
    · exact absurd (isChild ▸ isLeaving) strands.2
    by_cases isParent : g = p
    · exact absurd (isParent ▸ isLeaving) strands.1
    · rw [birth.others g isChild isParent] at isLeaving ⊢
      exact ⟨isLeaving, rfl⟩

theorem grown_makeCallChild {t : SpawnTree} (stack : StackInv t) (join : JoinInv t) {f : Nat}
    (held : (t.frame f).strand = .held) : Grown t (t.makeCallChild f) := by
  have made : f < t.frames := join.made (by simp [held])
  apply Grown.of_birth stack join (birth_makeCallChild join held) held
  · rw [makeCallChild_parent made, makeCallChild_child made]
    simp [madeFrame]
  · rw [makeCallChild_parent made]
    exact id
  · rw [makeCallChild_child made]
    rfl
  · rw [makeCallChild_parent made]
    exact .inr rfl

theorem grown_adoptChild {t : SpawnTree} (stack : StackInv t) (join : JoinInv t) {loot : Nat}
    (future : Bool) (younger : List SpawnLink) (held : (t.frame loot).strand = .held) :
    Grown t (t.adoptChild loot future younger) := by
  have made : loot < t.frames := join.made (by simp [held])
  apply Grown.of_birth stack join (birth_adoptChild join future younger held) held
  · rw [adoptChild_loot made, adoptChild_child made]
    cases future <;> simp
  · rw [adoptChild_loot made]
    cases future
    · exact fun _ => rfl
    · exact id
  · rw [adoptChild_child made]
    rfl
  · rw [adoptChild_loot made]
    cases future
    · exact .inr rfl
    · exact .inl rfl

theorem grown_unroll {t : SpawnTree} (stack : StackInv t) (join : JoinInv t) {f : Nat}
    (held : (t.frame f).strand = .held) (older : Nat) {t' : SpawnTree}
    (after : Grown (t.unrollCallStack f older).1 t') : Grown t t' := by
  induction older generalizing t f with
  | zero => exact after
  | succ older ih =>
    have made : f < t.frames := join.made (by simp [held])
    refine (grown_makeCallChild stack join held).trans ?_
    refine ih (stack.of_makeCallChild join held) (join.of_makeCallChild held) ?_ after
    simp [makeCallChild_child made, madeFrame]

/-- A running frame is taken out of its deque. -/
theorem grown_detach {t : SpawnTree} (join : JoinInv t) {f : Nat} {callers : List SpawnLink}
    (running : (t.frame f).strand = .running callers) :
    Grown t ((t.decjoin f).modify f fun ff => { ff with strand := .held }) := by
  rw [decjoin_of_pos ((join.frames f).pos_of_owned (by rw [running]; trivial))]
  have frame : ∀ g, g ≠ f → (((t.modify f fun ff => { ff with joinCounter := ff.joinCounter - 1 }).modify f
      fun ff => { ff with strand := .held }).frame g) = t.frame g := by
    intro g other
    rw [modify_frame_other other, modify_frame_other other]
  have fields : ∀ {β : Type} (field : TreeFrame → β), (∀ ff n, field { ff with joinCounter := n } = field ff) →
      (∀ ff strand, field { ff with strand := strand } = field ff) → ∀ g,
      field (((t.modify f fun ff => { ff with joinCounter := ff.joinCounter - 1 }).modify f
        fun ff => { ff with strand := .held }).frame g) = field (t.frame g) := by
    intro β field counter strand g
    by_cases here : g = f
    · subst here
      rw [modify_frame_self, modify_frame_self, strand, counter]
    · rw [frame g here]
  constructor
  · exact Nat.le_refl _
  · intro g
    by_cases here : g = f
    · subst here
      rw [modify_frame_self, modify_frame_self]
      exact ⟨id, by simp [running], by simp [running], fun _ => ⟨trivial, rfl, rfl⟩⟩
    · rw [frame g here]
      exact .refl _
  · intro g
    rw [modify_frames, modify_frames, and_not_self_iff, or_false]
    by_cases here : g = f
    · subst here
      rw [modify_frame_self]
      simp [running]
    · rw [frame g here]
  · intro calls p c member isCall
    rw [fields TreeFrame.children (fun _ _ => rfl) (fun _ _ => rfl)] at member ⊢
    rw [fields TreeFrame.isCallChild (fun _ _ => rfl) (fun _ _ => rfl)] at isCall
    exact calls p c member isCall
  · intro g isLeaving
    by_cases here : g = f
    · subst here
      simp at isLeaving
    · rw [frame g here] at isLeaving ⊢
      exact ⟨isLeaving, rfl⟩

theorem TreeInv.grown_of_steal {t t' : SpawnTree} (inv : TreeInv t) (stack : StackInv t) {f : Nat}
    (taken : spawnTreeStep t (.steal f) = some t') : Grown t t' := by
  have join := inv.toJoinInv
  cases running : (t.frame f).strand <;> simp [spawnTreeStep, running] at taken
  split at taken <;> simp at taken
  rename_i callers _ younger future older _
  have only : SpawnTree.OnlyHeld ((t.decjoin f).modify f fun ff => { ff with strand := .held }) f := by
    intro g heldToo
    by_contra other
    rw [modify_frame_other other, strand_decjoin] at heldToo
    exact inv.noneHeld g heldToo
  have held : (((t.decjoin f).modify f fun ff => { ff with strand := .held }).frame f).strand = .held := by
    rw [modify_frame_self]
  have joinDetached := join.of_detach running
  have stackDetached := stack.of_detach join running
  obtain ⟨joinUnrolled, lootHeld, -⟩ := joinDetached.of_unroll held only older
  have unrolled := stackDetached.of_unroll joinDetached held older
  rw [← taken, SpawnTree.detachForSteal]
  exact (grown_detach join running).trans (grown_unroll stackDetached joinDetached held older
    (grown_adoptChild unrolled joinUnrolled future younger lootHeld))

/-! ### The other steps -/

/-- The lists of children and the flags stay. -/
def SameRegions (t t' : SpawnTree) : Prop :=
  ∀ g, (t'.frame g).unsynched = (t.frame g).unsynched ∧ (t'.frame g).children = (t.frame g).children

/-- A list may lose an element. -/
def RegionsKept (t t' : SpawnTree) : Prop :=
  ∀ g, (t'.frame g).unsynched = (t.frame g).unsynched ∧
    ((t'.frame g).children = (t.frame g).children ∨
      ∃ c, (t'.frame g).children = (t.frame g).children.erase c)

theorem SameRegions.refl (t : SpawnTree) : SameRegions t t := fun _ => ⟨rfl, rfl⟩

theorem SameRegions.kept {t t' : SpawnTree} (same : SameRegions t t') : RegionsKept t t' :=
  fun g => ⟨(same g).1, .inl (same g).2⟩

theorem RegionsKept.refl (t : SpawnTree) : RegionsKept t t := (SameRegions.refl t).kept

theorem SameRegions.modify {t u : SpawnTree} (same : SameRegions t u) {f : Nat}
    {change : TreeFrame → TreeFrame}
    (stays : ∀ ff, (change ff).unsynched = ff.unsynched ∧ (change ff).children = ff.children) :
    SameRegions t (u.modify f change) := by
  intro g
  by_cases here : g = f
  · subst here
    rw [modify_frame_self, (stays _).1, (stays _).2]
    exact same g
  · rw [modify_frame_other here]
    exact same g

theorem SameRegions.check {t u : SpawnTree} (same : SameRegions t u) (holds : Bool) (assertion : TreeAssert) :
    SameRegions t (u.check holds assertion) := by
  intro g
  rw [check_frame]
  exact same g

theorem SameRegions.decjoin {t u : SpawnTree} (same : SameRegions t u) (f : Nat) :
    SameRegions t (u.decjoin f) :=
  (same.check _ _).modify fun _ => ⟨rfl, rfl⟩

theorem SameRegions.fiberToFree {t u : SpawnTree} (same : SameRegions t u) (f : Nat) :
    SameRegions t (u.fiberToFree f) := by
  have freed : SameRegions t { u with freed := u.freed ++ (u.frame f).fiberSelf.toList } := same
  exact freed.modify fun _ => ⟨rfl, rfl⟩

/-- A child is unlinked. -/
theorem RegionsKept.erase {t u : SpawnTree} (same : SameRegions t u) {f c : Nat}
    {change : TreeFrame → TreeFrame}
    (unlinks : ∀ ff, (change ff).unsynched = ff.unsynched ∧ (change ff).children = ff.children.erase c) :
    RegionsKept t (u.modify f change) := by
  intro g
  by_cases here : g = f
  · subst here
    rw [modify_frame_self, (unlinks _).1, (unlinks _).2, (same g).2]
    exact ⟨(same g).1, .inr ⟨c, rfl⟩⟩
  · rw [modify_frame_other here]
    exact same.kept g

theorem RegionsKept.modify {t u : SpawnTree} (kept : RegionsKept t u) {f : Nat}
    {change : TreeFrame → TreeFrame}
    (stays : ∀ ff, (change ff).unsynched = ff.unsynched ∧ (change ff).children = ff.children) :
    RegionsKept t (u.modify f change) := by
  intro g
  by_cases here : g = f
  · subst here
    rw [modify_frame_self, (stays _).1, (stays _).2]
    exact kept g
  · rw [modify_frame_other here]
    exact kept g

theorem RegionsKept.check {t u : SpawnTree} (kept : RegionsKept t u) (holds : Bool) (assertion : TreeAssert) :
    RegionsKept t (u.check holds assertion) := by
  intro g
  rw [check_frame]
  exact kept g

theorem regionsKept_finishSpawnReturn (t : SpawnTree) (c : Nat) : RegionsKept t (t.finishSpawnReturn c) := by
  unfold finishSpawnReturn
  split
  · exact ((SameRegions.refl t).fiberToFree c).kept
  · dsimp only
    split
    · exact .erase (c := c) (.fiberToFree (.check (.refl t) _ _) c) fun _ => ⟨rfl, rfl⟩
    · refine .erase (c := c) (.modify (.modify (.refl t) ?_) ?_) ?_ <;> exact fun _ => ⟨rfl, rfl⟩

theorem regionsKept_finalizeCall (t : SpawnTree) (p c : Nat) :
    RegionsKept t (((t.spliceCallChild p c).destroyFullFrame c).unconditionalSteal p) := by
  have unlinked : RegionsKept t (t.spliceCallChild p c) := by
    unfold spliceCallChild
    refine .modify (.erase (c := c) (.check (.refl t) _ _) ?_) ?_ <;> exact fun _ => ⟨rfl, rfl⟩
  have destroyed : RegionsKept t ((t.spliceCallChild p c).destroyFullFrame c) :=
    unlinked.modify fun _ => ⟨rfl, rfl⟩
  have counted : RegionsKept t (((t.spliceCallChild p c).destroyFullFrame c).decjoin p) :=
    .modify (destroyed.check _ _) fun _ => ⟨rfl, rfl⟩
  unfold unconditionalSteal pushNextFrame incjoin
  refine .modify (.modify counted ?_) ?_ <;> exact fun _ => ⟨rfl, rfl⟩

/-- The last arrival at the sync of a frame: the frame itself, or a child that returns. -/
def Crosses (t : SpawnTree) (label : TreeLabel) (g : Nat) : Prop :=
  (label = .doSync g ∨ ∃ c, label = .decjoinParent c ∧ (t.frame c).parent = some g) ∧
    (t.frame g).joinCounter = 1

/-- What the last arrival does to the frame. -/
structure Crossed (ff ff' : TreeFrame) : Prop where
  unsynched : ff'.unsynched = false
  strand : ff'.strand = .next
  isCallChild : ff'.isCallChild = ff.isCallChild
  parent : ff'.parent = ff.parent
  children : ff'.children = ff.children

/-- The exceptions of the children go to the frame. -/
theorem SlotOk.crossed {ff ff' : TreeFrame} {slots : FrameSlots} (ok : SlotOk ff slots)
    (crossed : Crossed ff ff') (exception : Bool) :
    SlotOk ff' { slots with pendingException := exception, childPendingException := false } where
  childrenReducerMap _ := .inr crossed.strand
  childPendingException isSet := Bool.noConfusion isSet
  pendingException _ := .inl crossed.strand
  right isSet := by
    obtain ⟨isSpawn, hasParent, -⟩ := ok.right isSet
    exact ⟨crossed.isCallChild.trans isSpawn, crossed.parent ▸ hasParent, by rw [crossed.strand]; trivial⟩

/-- `provably_good_steal` on a frame with arrivals still to come. -/
theorem SameRegions.provablyGoodSteal {t u : SpawnTree} (same : SameRegions t u) {f : Nat}
    (frame : (u.frame f).isCallChild = (t.frame f).isCallChild ∧ (u.frame f).parent = (t.frame f).parent ∧
      (u.frame f).joinCounter = (t.frame f).joinCounter)
    (positive : 0 < (t.frame f).joinCounter) (g : Nat) :
    (((u.provablyGoodSteal f).frame g).children = (t.frame g).children ∧
        ((u.provablyGoodSteal f).frame g).unsynched = (t.frame g).unsynched ∧
        ¬(g = f ∧ (t.frame f).joinCounter = 1)) ∨
      (g = f ∧ (t.frame f).joinCounter = 1) ∧ Crossed (t.frame g) ((u.provablyGoodSteal f).frame g) := by
  by_cases here : g = f
  · subst here
    rw [provablyGoodSteal_frame (frame.2.2 ▸ positive), frame.2.2]
    by_cases last : (t.frame g).joinCounter = 1
    · rw [if_pos last]
      exact .inr ⟨⟨rfl, last⟩, rfl, rfl, frame.1, frame.2.1, (same g).2⟩
    · rw [if_neg last]
      exact .inl ⟨(same g).2, (same g).1, fun both => last both.2⟩
  · rw [provablyGoodSteal_other here]
    exact .inl ⟨(same g).2, (same g).1, fun both => here both.1⟩

/-- What a step that is not a steal does to the lists of children and the flags. -/
theorem TreeInv.region_of_step {t t' : SpawnTree} {label : TreeLabel} (inv : TreeInv t)
    (notSteal : ∀ f, label ≠ .steal f) (taken : spawnTreeStep t label = some t') (g : Nat) :
    ((t'.frame g).children = (t.frame g).children ∨
        ∃ c, (t'.frame g).children = (t.frame g).children.erase c) ∧
      ((t'.frame g).unsynched = (t.frame g).unsynched ∧ ¬Crosses t label g ∨
        Crosses t label g ∧ Crossed (t.frame g) (t'.frame g)) := by
  have of_kept : RegionsKept t t' → ¬Crosses t label g →
      ((t'.frame g).children = (t.frame g).children ∨
        ∃ c, (t'.frame g).children = (t.frame g).children.erase c) ∧
      ((t'.frame g).unsynched = (t.frame g).unsynched ∧ ¬Crosses t label g ∨
        Crosses t label g ∧ Crossed (t.frame g) (t'.frame g)) :=
    fun kept stays => ⟨(kept g).2, .inl ⟨(kept g).1, stays⟩⟩
  cases label with
  | steal f => exact absurd rfl (notSteal f)
  | invoke f link =>
    cases strand : (t.frame f).strand <;> simp [spawnTreeStep, strand] at taken
    rw [← taken] at of_kept ⊢
    exact of_kept (.modify (.refl t) fun _ => ⟨rfl, rfl⟩) (by simp [Crosses])
  | leave f =>
    cases strand : (t.frame f).strand <;> simp [spawnTreeStep, strand] at taken
    rename_i callers
    cases callers with
    | nil => simp at taken
    | cons link callers =>
      simp only [Option.some.injEq] at taken
      rw [← taken] at of_kept ⊢
      exact of_kept (.modify (.refl t) fun _ => ⟨rfl, rfl⟩) (by simp [Crosses])
  | resume f =>
    cases strand : (t.frame f).strand <;> simp [spawnTreeStep, strand] at taken
    rw [← taken] at of_kept ⊢
    exact of_kept (.modify (.refl t) fun _ => ⟨rfl, rfl⟩) (by simp [Crosses])
  | sync f =>
    simp only [spawnTreeStep, Option.ite_none_right_eq_some, Option.some.injEq] at taken
    rw [← taken.2] at of_kept ⊢
    exact of_kept (.modify ((SameRegions.refl t).fiberToFree f).kept fun _ => ⟨rfl, rfl⟩) (by simp [Crosses])
  | spawnReturn f =>
    simp only [spawnTreeStep, Option.ite_none_right_eq_some, Option.some.injEq] at taken
    rw [← taken.2] at of_kept ⊢
    exact of_kept (.modify (regionsKept_finishSpawnReturn t f) fun _ => ⟨rfl, rfl⟩) (by simp [Crosses])
  | decjoinSelf f =>
    simp only [spawnTreeStep, Option.ite_none_right_eq_some, Option.some.injEq] at taken
    rw [← taken.2] at of_kept ⊢
    exact of_kept (.modify ((SameRegions.refl t).decjoin f).kept fun _ => ⟨rfl, rfl⟩) (by simp [Crosses])
  | callReturn f =>
    simp only [spawnTreeStep, Option.ite_none_right_eq_some, Option.some.injEq] at taken
    rw [← taken.2] at of_kept ⊢
    exact of_kept (.modify (((SameRegions.refl t).check _ _).decjoin f).kept fun _ => ⟨rfl, rfl⟩)
      (by simp [Crosses])
  | finalizeCall c =>
    cases strand : (t.frame c).strand <;> cases parent : (t.frame c).parent <;>
      simp [spawnTreeStep, strand, parent] at taken
    rename_i p
    rw [← taken] at of_kept ⊢
    exact of_kept (regionsKept_finalizeCall t p c) (by simp [Crosses])
  | doSync f =>
    simp only [spawnTreeStep, Option.ite_none_right_eq_some, Option.some.injEq] at taken
    obtain ⟨syncing, rfl⟩ := taken
    have positive := (inv.frames f).pos_of_owned (by rw [syncing]; trivial)
    have same : SameRegions t (t.modify f fun ff =>
        { ff with strand := .stalled, syncs := ff.syncs + 1 }) :=
      .modify (.refl t) fun _ => ⟨rfl, rfl⟩
    have isLast : Crosses t (.doSync f) g ↔ g = f ∧ (t.frame f).joinCounter = 1 := by
      simp only [Crosses, TreeLabel.doSync.injEq, reduceCtorEq, false_and, exists_false, or_false]
      exact ⟨fun both => ⟨both.1.symm, both.1 ▸ both.2⟩, fun both => ⟨both.1.symm, both.1 ▸ both.2⟩⟩
    rw [isLast]
    rcases same.provablyGoodSteal (f := f) (by simp) positive g with ⟨children, unsynched, stays⟩ | crossed
    · exact ⟨.inl children, .inl ⟨unsynched, stays⟩⟩
    · exact ⟨.inl crossed.2.children, .inr crossed⟩
  | decjoinParent c =>
    cases strand : (t.frame c).strand <;> cases parent : (t.frame c).parent <;>
      simp [spawnTreeStep, strand, parent] at taken
    rename_i p
    subst taken
    have arrival : Arrival t c p := .inr ⟨strand, parent⟩
    have distinct : p ≠ c := by
      rintro rfl
      exact arrival.not_leaving inv.toJoinInv strand
    have same : SameRegions t (t.destroyFullFrame c) := .modify (.refl t) fun _ => ⟨rfl, rfl⟩
    have frame : (t.destroyFullFrame c).frame p = t.frame p := modify_frame_other distinct t _
    have isLast : Crosses t (.decjoinParent c) g ↔ g = p ∧ (t.frame p).joinCounter = 1 := by
      simp only [Crosses, reduceCtorEq, TreeLabel.decjoinParent.injEq, false_or, exists_eq_left', parent,
        Option.some.injEq]
      exact ⟨fun both => ⟨both.1.symm, both.1 ▸ both.2⟩, fun both => ⟨both.1.symm, both.1 ▸ both.2⟩⟩
    rw [isLast]
    rcases same.provablyGoodSteal (f := p) (by simp [frame]) (arrival.positive inv.toJoinInv) g with
      ⟨children, unsynched, stays⟩ | crossed
    · exact ⟨.inl children, .inl ⟨unsynched, stays⟩⟩
    · exact ⟨.inl crossed.2.children, .inr crossed⟩

/-- Lists of children lose elements, or are those of a steal. -/
theorem TreeInv.callsLast_of_step {t t' : SpawnTree} {label : TreeLabel} (inv : TreeInv t)
    (stack : StackInv t) (calls : CallsLast t) (taken : spawnTreeStep t label = some t') : CallsLast t' := by
  by_cases steal : ∃ f, label = .steal f
  · obtain ⟨f, rfl⟩ := steal
    exact (inv.grown_of_steal stack taken).callsLast calls
  · have notSteal : ∀ f, label ≠ .steal f := fun f isSteal => steal ⟨f, isSteal⟩
    exact calls.of_erase stack (inv.moves notSteal taken).1.isCallChild
      fun p => (inv.region_of_step notSteal taken p).1

/-! ### Pointers along a step -/

/-- The frames whose pointers a step changes. -/
inductive Turns (t : SpawnTree) : TreeLabel → Nat → Prop where
  | resume (f : Nat) : Turns t (.resume f) f
  | spawnReturn (f : Nat) : Turns t (.spawnReturn f) f
  | splice (f : Nat) : Turns t (.finalizeCall f) f
  | goOn {c p : Nat} (parent : (t.frame c).parent = some p) : Turns t (.finalizeCall c) p
  | cross {label : TreeLabel} {f : Nat} (crosses : Crosses t label f) : Turns t label f

/-- A strand that moves on with its frame as it is. -/
theorem SlotsKept.of_move {t : SpawnTree} {label : TreeLabel} {f : Nat} {ff ff' : TreeFrame}
    (move : StrandMove label f ff ff'.strand) (stays : ¬Turns t label f)
    (unsynched : ff'.unsynched = ff.unsynched) (isCallChild : ff'.isCallChild = ff.isCallChild)
    (parent : ff'.parent = ff.parent) : SlotsKept ff ff' := by
  have moved : (ff.strand ≠ .next ∧ ff.strand ≠ .disowned) ∧ (ff.strand.Linked → ff'.strand.Linked) := by
    generalize ff'.strand = strand' at move
    cases move with
    | resume => exact absurd (.resume f) stays
    | spawnReturn => exact absurd (.spawnReturn f) stays
    | splice => exact absurd (.splice f) stays
    | cross strand => rcases strand with strand | strand <;> simp [strand, FrameStrand.Linked]
    | leaveParent strand left => simp [strand, FrameStrand.Linked]
    | invoke strand | leave strand | sync strand | stall strand | destroy strand | callReturn strand
      | goOn strand => simp [strand, FrameStrand.Linked]
  exact ⟨fun flag => unsynched.trans flag, fun next => absurd next moved.1.1,
    fun disowned => absurd disowned moved.1.2, fun linked => ⟨moved.2 linked, isCallChild, parent⟩⟩

/-- The frames that a step does not turn keep their pointers. -/
theorem TreeInv.kept_of_step {t t' : SpawnTree} {label : TreeLabel} (inv : TreeInv t) (stack : StackInv t)
    (taken : spawnTreeStep t label = some t') {g : Nat} (stays : ¬Turns t label g) :
    SlotsKept (t.frame g) (t'.frame g) := by
  by_cases steal : ∃ f, label = .steal f
  · obtain ⟨f, rfl⟩ := steal
    exact (inv.grown_of_steal stack taken).kept g
  · have notSteal : ∀ f, label ≠ .steal f := fun f isSteal => steal ⟨f, isSteal⟩
    obtain ⟨kinds, moves⟩ := inv.moves notSteal taken
    rcases (inv.region_of_step notSteal taken g).2 with ⟨unsynched, -⟩ | crossed
    · rcases moves g with same | move
      · refine ⟨fun flag => unsynched.trans flag, fun next => same.trans next,
          fun disowned => same.trans disowned, fun linked => ⟨?_, kinds.isCallChild g, kinds.parent g⟩⟩
        rwa [same]
      · exact .of_move move stays unsynched (kinds.isCallChild g) (kinds.parent g)
    · exact absurd (.cross crossed.1) stays

/-- The pointers after a step: those of the frames that it turns are to be shown. -/
theorem TreeInv.slots_of_step {t t' : SpawnTree} {label : TreeLabel} {slots slots' : Nat → FrameSlots}
    (inv : TreeInv t) (stack : StackInv t) (ok : ∀ g, SlotOk (t.frame g) (slots g))
    (taken : spawnTreeStep t label = some t') (same : ∀ g, ¬Turns t label g → slots' g = slots g)
    (turned : ∀ g, Turns t label g → SlotOk (t'.frame g) (slots' g)) (g : Nat) :
    SlotOk (t'.frame g) (slots' g) := by
  by_cases turns : Turns t label g
  · exact turned g turns
  · rw [same g turns]
    exact (ok g).kept (inv.kept_of_step stack taken turns)

end CilkL
