/-
Module: CilkL.Proofs.CactusTree
Layer: Proofs
Purpose: The cactus stack as a tree of strands. A function whose continuation was stolen goes on, after its
  sync, on the fiber it was on before the first of these steals: the leftmost of its children has that fiber
  until it returns, and then the function's full frame. So a future ends on the fiber that was taken for it,
  whatever was stolen while it ran.
Imports: CilkL.Runtime.FutureFiberCache
Trusted boundary: none
Main exports: FramesWf, CactusTree, CactusTree.Inv, CactusTree.Inv.fork, CactusTree.Inv.join
Open obligations: none
-/
import CilkL.Runtime.FutureFiberCache

namespace CilkL

variable {δ β : Type}

/-! ### The functions of a strand -/

/-- The oldest function of a strand is not invoked by one below it. -/
def Invocation.isBottom : Invocation δ β → Bool
  | .root | .spawnedStolen _ _ | .futureStolen _ => true
  | _ => false

/-- A bottom is not in a deque. -/
theorem Invocation.not_inDeque_of_isBottom {invocation : Invocation δ β} (bottom : invocation.isBottom) :
    invocation.inDeque = false := by
  cases invocation <;> first | rfl | cases bottom

/-- The shape of a strand: only the oldest function has no invoker on it, and below a function that has
something to wait for there is no continuation in the deque. -/
def FramesWf : List (CactusFrame δ β) → Prop
  | [] => False
  | frame :: below =>
      (frame.invocation.isBottom ↔ below = []) ∧
        (¬frame.synced → ∀ other ∈ frame :: below, other.invocation.inDeque = false) ∧
        (below ≠ [] → FramesWf below)

/-- A function with something to wait for knows the fiber it goes on with, and that is its `fiber_child`. -/
structure CactusFrame.HomeOk (frame : CactusFrame δ β) : Prop where
  forked : frame.home = none ↔ frame.synced
  child : ∀ f, frame.fiberChild = some f → frame.home = some f

/-- The fiber of the oldest function that has something to wait for. -/
def oldestHome : List (CactusFrame δ β) → Option β
  | [] => none
  | frame :: below => (oldestHome below).or frame.home

section Frames

variable {frame child : CactusFrame δ β} {frames younger below older : List (CactusFrame δ β)} {h : Nat}

theorem enter_synced (invocation : Invocation δ β) : (CactusFrame.enter invocation).synced := ⟨rfl, rfl⟩

theorem enter_homeOk (invocation : Invocation δ β) : (CactusFrame.enter invocation).HomeOk :=
  ⟨⟨fun _ => ⟨rfl, rfl⟩, fun _ => rfl⟩, nofun⟩

/-- A function is pushed. -/
theorem FramesWf.push (wf : FramesWf frames) {invocation : Invocation δ β}
    (notBottom : invocation.isBottom = false) : FramesWf (.enter invocation :: frames) := by
  refine ⟨⟨fun bottom => ?_, fun empty => ?_⟩, fun unsynced => absurd (enter_synced _) unsynced, fun _ => wf⟩
  · exact absurd bottom (by simp [CactusFrame.enter, notBottom])
  · rw [empty] at wf
    exact absurd wf id

/-- The bottom of a strand. -/
def bottomOf (frames : List (CactusFrame δ β)) : Option (Invocation δ β) :=
  frames.getLast?.map CactusFrame.invocation

theorem bottomOf_cons (nonempty : below ≠ []) : bottomOf (frame :: below) = bottomOf below := by
  rw [bottomOf, bottomOf, List.getLast?_cons_of_ne_nil nonempty]

theorem bottomOf_append (nonempty : below ≠ []) : bottomOf (younger ++ below) = bottomOf below := by
  rw [bottomOf, bottomOf, List.getLast?_append_of_ne_nil _ nonempty]

theorem atHeight_length : atHeight below.length (frame :: below) = some frame := by
  simp [atHeight]

/-- What is above does not count. -/
theorem atHeight_append (inside : h < below.length) : atHeight h (younger ++ below) = atHeight h below := by
  induction younger with
  | nil => rfl
  | cons frame younger ih =>
    rw [List.cons_append, atHeight, if_neg (by simp; omega), ih]

theorem atHeight_cons (inside : h < below.length) : atHeight h (frame :: below) = atHeight h below := by
  rw [← List.singleton_append]
  exact atHeight_append inside

theorem lt_of_atHeight (found : atHeight h frames = some frame) : h < frames.length := by
  induction frames with
  | nil => cases found
  | cons first below ih =>
    rw [atHeight] at found
    split at found
    · rename_i isHeight
      simp [isHeight]
    · exact Nat.lt_succ_of_lt (ih found)

theorem mem_of_atHeight (found : atHeight h frames = some frame) : frame ∈ frames := by
  induction frames with
  | nil => cases found
  | cons first below ih =>
    rw [atHeight] at found
    split at found
    · cases found
      exact List.mem_cons_self
    · exact List.mem_cons_of_mem _ (ih found)

/-- A function above the lower part is one of the upper part. -/
theorem mem_of_atHeight_append (found : atHeight h (younger ++ below) = some frame)
    (outside : below.length ≤ h) : frame ∈ younger := by
  induction younger with
  | nil => exact absurd (lt_of_atHeight found) (Nat.not_lt.2 outside)
  | cons first younger ih =>
    rw [List.cons_append, atHeight] at found
    split at found
    · cases found
      exact List.mem_cons_self
    · exact List.mem_cons_of_mem _ (ih found)

/-- The function at a height is the new one or one that was there. -/
theorem atHeight_push {first : CactusFrame δ β} (found : atHeight h (first :: below) = some frame) :
    frame = first ∧ h = below.length ∨ atHeight h below = some frame := by
  rw [atHeight] at found
  split at found
  · rename_i isHeight
    cases found
    exact .inl ⟨rfl, isHeight.symm⟩
  · exact .inr found

/-- The functions with a continuation in the deque are among the younger ones. -/
theorem splitOldest_spec (split : splitOldest frames = some (younger, child, older)) :
    frames = younger ++ child :: older ∧ child.invocation.inDeque = true ∧
      ∀ other ∈ older, other.invocation.inDeque = false := by
  have none_of : ∀ {l : List (CactusFrame δ β)}, splitOldest l = none →
      ∀ other ∈ l, other.invocation.inDeque = false := by
    intro l noSplit
    induction l with
    | nil => nofun
    | cons first below ih =>
      rw [splitOldest] at noSplit
      split at noSplit
      · cases noSplit
      · rename_i noneBelow
        simp only [ite_eq_right_iff, reduceCtorEq, imp_false, Bool.not_eq_true] at noSplit
        intro other member
        rcases List.mem_cons.1 member with rfl | member
        · exact noSplit
        · exact ih noneBelow other member
  induction frames generalizing younger with
  | nil => cases split
  | cons first below ih =>
    rw [splitOldest] at split
    split at split
    · rename_i younger' child' older' splitBelow
      cases split
      obtain ⟨isSplit, inDeque, outside⟩ := ih splitBelow
      exact ⟨by rw [isSplit]; rfl, inDeque, outside⟩
    · rename_i noneBelow
      simp only [Option.ite_none_right_eq_some, Option.some.injEq, Prod.mk.injEq] at split
      obtain ⟨inDeque, rfl, rfl, rfl⟩ := split
      exact ⟨rfl, inDeque, none_of noneBelow⟩

/-- The lower part of a strand is a strand. -/
theorem FramesWf.lower (wf : FramesWf (younger ++ below)) (nonempty : below ≠ []) : FramesWf below := by
  induction younger with
  | nil => exact wf
  | cons frame younger ih => exact ih (wf.2.2 (by simp [nonempty]))

/-- Above a continuation in the deque all functions are synced. -/
theorem FramesWf.synced_above (wf : FramesWf (younger ++ child :: older))
    (inDeque : child.invocation.inDeque = true) : ∀ frame ∈ younger ++ [child], frame.synced := by
  induction younger with
  | nil =>
    intro frame member
    obtain rfl := List.mem_singleton.1 member
    by_contra unsynced
    have outside := wf.2.1 unsynced frame List.mem_cons_self
    rw [inDeque] at outside
    cases outside
  | cons first younger ih =>
    intro frame member
    rcases List.mem_cons.1 member with rfl | member
    · by_contra unsynced
      have outside := wf.2.1 unsynced child (by simp)
      rw [inDeque] at outside
      cases outside
    · exact ih (wf.2.2 (by simp)) frame member

/-- The upper part of a strand is one when its oldest function gets a bottom. -/
theorem FramesWf.upper (wf : FramesWf (younger ++ child :: older)) (inDeque : child.invocation.inDeque = true)
    {invocation : Invocation δ β} (bottom : invocation.isBottom) :
    FramesWf (younger ++ [{ child with invocation := invocation }]) := by
  have synced := wf.synced_above inDeque
  induction younger with
  | nil =>
    refine ⟨⟨fun _ => rfl, fun _ => bottom⟩, fun unsynced => ?_, fun nonempty => absurd rfl nonempty⟩
    exact absurd (synced child (by simp)) unsynced
  | cons first younger ih =>
    exact ⟨⟨fun isBottom => absurd (wf.1.1 isBottom) (by simp), fun empty => absurd empty (by simp)⟩,
      fun unsynced => absurd (synced first (by simp)) unsynced, fun _ =>
      ih (wf.2.2 (by simp)) fun frame member => synced frame (List.mem_cons_of_mem _ member)⟩

/-- There is nothing to wait for in synced functions. -/
theorem oldestHome_of_synced (homes : ∀ frame ∈ frames, frame.HomeOk) (synced : ∀ frame ∈ frames, frame.synced) :
    oldestHome frames = none := by
  induction frames with
  | nil => rfl
  | cons frame below ih =>
    rw [oldestHome, ih (fun other member => homes other (List.mem_cons_of_mem _ member))
      (fun other member => synced other (List.mem_cons_of_mem _ member))]
    exact (homes frame List.mem_cons_self).forked.2 (synced frame List.mem_cons_self)

theorem oldestHome_append : oldestHome (younger ++ below) = (oldestHome below).or (oldestHome younger) := by
  induction younger with
  | nil => rw [List.nil_append, oldestHome, Option.or_none]
  | cons frame younger ih => rw [List.cons_append, oldestHome, ih, oldestHome, Option.or_assoc]

end Frames

section Modify

variable {change : CactusFrame δ β → CactusFrame δ β} {frame : CactusFrame δ β}
  {frames : List (CactusFrame δ β)} {h k : Nat}

theorem length_modifyHeight : (modifyHeight h change frames).length = frames.length := by
  induction frames with
  | nil => rfl
  | cons frame below ih =>
    rw [modifyHeight]
    split
    · rfl
    · rw [List.length_cons, ih, List.length_cons]

theorem atHeight_modifyHeight (found : atHeight h frames = some frame) :
    atHeight h (modifyHeight h change frames) = some (change frame) := by
  induction frames with
  | nil => cases found
  | cons first below ih =>
    rw [modifyHeight]
    rw [atHeight] at found
    split
    · rename_i isHeight
      rw [if_pos isHeight] at found
      rw [atHeight, if_pos isHeight, Option.some.inj found]
    · rename_i notHeight
      rw [if_neg notHeight] at found
      rw [atHeight, length_modifyHeight, if_neg notHeight, ih found]

theorem atHeight_modifyHeight_other (other : k ≠ h) :
    atHeight k (modifyHeight h change frames) = atHeight k frames := by
  induction frames with
  | nil => rfl
  | cons first below ih =>
    rw [modifyHeight]
    split
    · rename_i isHeight
      have notK : below.length ≠ k := fun isK => other (isK.symm.trans isHeight)
      rw [atHeight, if_neg notK, atHeight, if_neg notK]
    · rw [atHeight, length_modifyHeight, ih, atHeight]

/-- The functions after a change of one are the others and the changed one. -/
theorem mem_modifyHeight {other : CactusFrame δ β} (found : atHeight h frames = some frame)
    (member : other ∈ modifyHeight h change frames) : other = change frame ∨ other ∈ frames := by
  induction frames with
  | nil => cases found
  | cons first below ih =>
    rw [modifyHeight] at member
    rw [atHeight] at found
    split at member
    · rename_i isHeight
      rw [if_pos isHeight] at found
      obtain rfl := Option.some.inj found
      exact (List.mem_cons.1 member).imp id (List.mem_cons_of_mem _)
    · rename_i notHeight
      rw [if_neg notHeight] at found
      rcases List.mem_cons.1 member with rfl | member
      · exact .inr List.mem_cons_self
      · exact (ih found member).imp id (List.mem_cons_of_mem _)

/-- How the functions were invoked does not change. -/
theorem map_invocation_modifyHeight (found : atHeight h frames = some frame)
    (same : (change frame).invocation = frame.invocation) :
    (modifyHeight h change frames).map CactusFrame.invocation = frames.map CactusFrame.invocation := by
  induction frames with
  | nil => rfl
  | cons first below ih =>
    rw [modifyHeight]
    rw [atHeight] at found
    split
    · rename_i isHeight
      rw [if_pos isHeight] at found
      obtain rfl := Option.some.inj found
      rw [List.map_cons, List.map_cons, same]
    · rename_i notHeight
      rw [if_neg notHeight] at found
      rw [List.map_cons, List.map_cons, ih found]

theorem bottomOf_eq_map (frames : List (CactusFrame δ β)) :
    bottomOf frames = (frames.map CactusFrame.invocation).getLast? := by
  rw [bottomOf, List.getLast?_map]

theorem oldestHome_modifyHeight (found : atHeight h frames = some frame)
    (same : (change frame).home = frame.home) : oldestHome (modifyHeight h change frames) = oldestHome frames := by
  induction frames with
  | nil => rfl
  | cons first below ih =>
    rw [modifyHeight]
    rw [atHeight] at found
    split
    · rename_i isHeight
      rw [if_pos isHeight] at found
      obtain rfl := Option.some.inj found
      rw [oldestHome, same, oldestHome]
    · rename_i notHeight
      rw [if_neg notHeight] at found
      rw [oldestHome, ih found, oldestHome]

/-- A function of a strand changes, and waits for something only if it did. -/
theorem FramesWf.modify (wf : FramesWf frames) (found : atHeight h frames = some frame)
    (same : (change frame).invocation = frame.invocation) (waits : ¬(change frame).synced → ¬frame.synced) :
    FramesWf (modifyHeight h change frames) := by
  induction frames with
  | nil => exact wf
  | cons first below ih =>
    have outside : ∀ {l : List (CactusFrame δ β)}, (∀ other ∈ l, other.invocation.inDeque = false) ↔
        ∀ invocation ∈ l.map CactusFrame.invocation, invocation.inDeque = false := by
      intro l
      simp
    have invocations := map_invocation_modifyHeight found same
    rw [FramesWf, outside] at wf
    rw [modifyHeight] at invocations ⊢
    rw [atHeight] at found
    split
    · rename_i isHeight
      rw [if_pos isHeight] at found invocations
      obtain rfl := Option.some.inj found
      rw [FramesWf, outside, invocations, same]
      exact ⟨wf.1, fun unsynced => wf.2.1 (waits unsynced), wf.2.2⟩
    · rename_i notHeight
      rw [if_neg notHeight] at found invocations
      rw [FramesWf, outside, invocations]
      have empty : modifyHeight h change below = [] ↔ below = [] := by
        rw [← List.length_eq_zero_iff, length_modifyHeight, List.length_eq_zero_iff]
      rw [Ne, empty]
      exact ⟨wf.1, wf.2.1, fun nonempty => ih (wf.2.2 nonempty) found⟩

end Modify

/-! ### The tree -/

variable {ω : Type}

namespace CactusStrand

/-- The fiber that a strand will have at its end. -/
def root (x : CactusStrand ω δ β) : Option β := (oldestHome x.frames).or x.fiberSelf

/-- The strand is one of the children of the function at a height of another one. -/
def ChildOf (x : CactusStrand ω δ β) (p : δ) (h : Nat) : Prop := bottomOf x.frames = some (.spawnedStolen p h)

/-- The functions of one strand. -/
structure FramesOk (x : CactusStrand ω δ β) : Prop where
  wf : FramesWf x.frames
  homes : ∀ frame ∈ x.frames, frame.HomeOk
  /-- A future has its fiber. -/
  future : ∀ f, bottomOf x.frames = some (.futureStolen f) → x.root = some f

end CactusStrand

/-- What holds of the strands and the functions that wait for them. -/
structure CactusTree (T : δ → CactusStrand ω δ β) : Prop where
  frames : ∀ d, (T d).place.live → (T d).FramesOk
  parent : ∀ d p h, (T d).place.live → (T d).ChildOf p h →
    (T p).place.live ∧ ∃ frame, atHeight h (T p).frames = some frame ∧ d ∈ frame.children
  children : ∀ p h frame, (T p).place.live → atHeight h (T p).frames = some frame →
    frame.children.Nodup ∧ ∀ c ∈ frame.children, (T c).place.live ∧ (T c).ChildOf p h
  /-- The leftmost child has the fiber that its parent goes on with. -/
  due : ∀ d p h frame, (T d).place.live → (T d).ChildOf p h → atHeight h (T p).frames = some frame →
    frame.children.head? = some d → frame.fiberChild = none → (T d).root = frame.home

namespace CactusTree

variable [DecidableEq δ] {T : δ → CactusStrand ω δ β} {d c p : δ} {h : Nat}
  {frame child parent : CactusFrame δ β} {younger below : List (CactusFrame δ β)}
  {x : CactusStrand ω δ β}

/-- A strand changes, but for its bottom, the fiber it will have at its end and the functions that wait. -/
theorem set (tree : CactusTree T) (live : (T d).place.live) (live' : x.place.live) (wf : FramesWf x.frames)
    (homes : ∀ frame ∈ x.frames, frame.HomeOk) (bottom : bottomOf x.frames = bottomOf (T d).frames)
    (root : x.root = (T d).root)
    (keeps : ∀ h frame, frame.children ≠ [] →
      (atHeight h x.frames = some frame ↔ atHeight h (T d).frames = some frame)) :
    CactusTree (setAt T d x) := by
  have live_iff : ∀ c, (setAt T d x c).place.live = (T c).place.live := by
    intro c
    by_cases isD : c = d
    · rw [isD, setAt_self, live, live']
    · rw [setAt_other isD]
  have childOf : ∀ c p h, (setAt T d x c).ChildOf p h ↔ (T c).ChildOf p h := by
    intro c p h
    by_cases isD : c = d
    · rw [isD, setAt_self, CactusStrand.ChildOf, CactusStrand.ChildOf, bottom]
    · rw [setAt_other isD]
  have roots : ∀ c, (setAt T d x c).root = (T c).root := by
    intro c
    by_cases isD : c = d
    · rw [isD, setAt_self, root]
    · rw [setAt_other isD]
  have at_height : ∀ p h frame, frame.children ≠ [] →
      (atHeight h (setAt T d x p).frames = some frame ↔ atHeight h (T p).frames = some frame) := by
    intro p h frame hasChildren
    by_cases isD : p = d
    · rw [isD, setAt_self]
      exact keeps h frame hasChildren
    · rw [setAt_other isD]
  refine ⟨fun c isLive => ?_, fun c p h isLive isChild => ?_, fun p h frame isLive found => ?_,
    fun c p h frame isLive isChild found isHead noFiber => ?_⟩
  · by_cases isD : c = d
    · rw [isD, setAt_self]
      refine ⟨wf, homes, fun f isFuture => ?_⟩
      rw [root]
      exact (tree.frames d live).future f (bottom ▸ isFuture)
    · rw [setAt_other isD] at isLive ⊢
      exact tree.frames c isLive
  · rw [live_iff] at isLive ⊢
    obtain ⟨parentLive, frame, found, member⟩ := tree.parent c p h isLive ((childOf c p h).1 isChild)
    exact ⟨parentLive, frame, (at_height p h frame (List.ne_nil_of_mem member)).2 found, member⟩
  · rw [live_iff] at isLive
    by_cases hasChildren : frame.children = []
    · rw [hasChildren]
      exact ⟨List.nodup_nil, nofun⟩
    · obtain ⟨nodup, each⟩ := tree.children p h frame isLive ((at_height p h frame hasChildren).1 found)
      refine ⟨nodup, fun c member => ?_⟩
      rw [live_iff]
      exact ⟨(each c member).1, (childOf c p h).2 (each c member).2⟩
  · have hasChildren : frame.children ≠ [] := by
      intro empty
      rw [empty] at isHead
      cases isHead
    rw [live_iff] at isLive
    rw [roots]
    exact tree.due c p h frame isLive ((childOf c p h).1 isChild)
      ((at_height p h frame hasChildren).1 found) isHead noFiber

omit [DecidableEq δ] in
/-- A live strand has functions. -/
theorem nonempty (tree : CactusTree T) (live : (T d).place.live) : (T d).frames ≠ [] := by
  intro empty
  have wf := (tree.frames d live).wf
  rw [empty] at wf
  exact wf

/-- A function is invoked. -/
theorem push (tree : CactusTree T) (live : (T d).place.live) (live' : x.place.live) {invocation : Invocation δ β}
    (notBottom : invocation.isBottom = false) (frames : x.frames = .enter invocation :: (T d).frames)
    (self : x.fiberSelf = (T d).fiberSelf) : CactusTree (setAt T d x) := by
  have ok := tree.frames d live
  refine tree.set live live' ?_ ?_ ?_ ?_ ?_
  · rw [frames]
    exact ok.wf.push notBottom
  · rw [frames]
    intro frame member
    rcases List.mem_cons.1 member with rfl | member
    · exact enter_homeOk invocation
    · exact ok.homes frame member
  · rw [frames]
    exact bottomOf_cons (tree.nonempty live)
  · rw [CactusStrand.root, CactusStrand.root, frames, self, oldestHome]
    exact congrArg (Option.or · _) Option.or_none
  · rw [frames]
    intro h frame hasChildren
    constructor
    · intro found
      rcases atHeight_push found with ⟨rfl, -⟩ | found
      · exact absurd rfl hasChildren
      · exact found
    · intro found
      rw [atHeight_cons (lt_of_atHeight found), found]

/-- A function returns to the one below it. -/
theorem pop (tree : CactusTree T) (live : (T d).place.live) (live' : x.place.live)
    (isFrames : (T d).frames = frame :: below) (synced : frame.synced)
    (notBottom : frame.invocation.isBottom = false) (frames : x.frames = below)
    (self : x.fiberSelf = (T d).fiberSelf) : CactusTree (setAt T d x) := by
  have wf := (tree.frames d live).wf
  have homes := (tree.frames d live).homes
  rw [isFrames] at wf homes
  have nonempty : below ≠ [] := by
    intro empty
    have bottom := wf.1.2 empty
    rw [notBottom] at bottom
    cases bottom
  refine tree.set live live' ?_ ?_ ?_ ?_ ?_
  · rw [frames]
    exact wf.2.2 nonempty
  · rw [frames]
    exact fun other member => homes other (List.mem_cons_of_mem _ member)
  · rw [frames, isFrames, bottomOf_cons nonempty]
  · rw [CactusStrand.root, CactusStrand.root, frames, self, isFrames, oldestHome,
      (homes frame List.mem_cons_self).forked.2 synced, Option.or_none]
  · intro h other hasChildren
    rw [isFrames, frames]
    constructor
    · intro found
      rw [atHeight_cons (lt_of_atHeight found), found]
    · intro found
      rcases atHeight_push found with ⟨rfl, -⟩ | found
      · exact absurd synced.1 hasChildren
      · exact found

/-- The place of a strand and its own fiber change, where that is not the fiber it will have at its end. -/
theorem place (tree : CactusTree T) (live : (T d).place.live) (live' : x.place.live)
    (frames : x.frames = (T d).frames) (root : x.root = (T d).root) : CactusTree (setAt T d x) := by
  have ok := tree.frames d live
  refine tree.set live live' (frames ▸ ok.wf) (frames ▸ ok.homes) (by rw [frames]) root fun h frame _ => ?_
  rw [frames]

/-- The function on top goes on after its sync, on the fiber that its leftmost child left. -/
theorem resume (tree : CactusTree T) (live : (T d).place.live) (live' : x.place.live) {f : β}
    (isFrames : (T d).frames = frame :: below) (noChildren : frame.children = [])
    (isFiber : frame.fiberChild = some f)
    (frames : x.frames = { frame with fiberChild := none, home := none } :: below)
    (self : x.fiberSelf = some f) (stalled : (T d).fiberSelf = none) : CactusTree (setAt T d x) := by
  have wf := (tree.frames d live).wf
  have homes := (tree.frames d live).homes
  rw [isFrames] at wf homes
  have synced : CactusFrame.synced { frame with fiberChild := none, home := none } := ⟨noChildren, rfl⟩
  refine tree.set live live' ?_ ?_ ?_ ?_ ?_
  · rw [frames]
    exact ⟨wf.1, fun unsynced => absurd synced unsynced, wf.2.2⟩
  · rw [frames]
    intro other member
    rcases List.mem_cons.1 member with rfl | member
    · exact ⟨⟨fun _ => synced, fun _ => rfl⟩, nofun⟩
    · exact homes other (List.mem_cons_of_mem _ member)
  · rw [frames, isFrames]
    cases below with
    | nil => rfl
    | cons next below => rw [bottomOf_cons (List.cons_ne_nil _ _), bottomOf_cons (List.cons_ne_nil _ _)]
  · rw [CactusStrand.root, CactusStrand.root, frames, self, isFrames, stalled, oldestHome, oldestHome,
      (homes frame List.mem_cons_self).child f isFiber, Option.or_none, Option.or_none]
  · intro h other hasChildren
    rw [isFrames, frames, atHeight, atHeight]
    split
    · constructor
      · rintro found
        obtain rfl := Option.some.inj found
        exact absurd noChildren hasChildren
      · rintro found
        obtain rfl := Option.some.inj found
        exact absurd noChildren hasChildren
    · exact Iff.rfl

/-- The oldest continuation of a strand is taken: the functions above it become the strand `c`, which is a
child of the function whose continuation it is, or a future. -/
theorem steal (tree : CactusTree T) (live : (T d).place.live) (isNew : (T c).place.live = false)
    {xc xd : CactusStrand ω δ β} (liveC : xc.place.live) (liveD : xd.place.live)
    {parent' : CactusFrame δ β} {invocation : Invocation δ β} {extra : List δ}
    (isFrames : (T d).frames = younger ++ child :: parent :: below) (inDeque : child.invocation.inDeque = true)
    (outside : ∀ other ∈ parent :: below, other.invocation.inDeque = false)
    (framesC : xc.frames = younger ++ [{ child with invocation := invocation }])
    (framesD : xd.frames = parent' :: below) (bottom : invocation.isBottom)
    (isExtra : extra = [c] ∧ invocation = .spawnedStolen d below.length ∨
      extra = [] ∧ ∀ p h, invocation ≠ .spawnedStolen p h)
    (sameInvocation : parent'.invocation = parent.invocation)
    (isChildren : parent'.children = parent.children ++ extra) (isFiber : parent'.fiberChild = parent.fiberChild)
    (homeOk : parent'.HomeOk) (sameHome : parent.children ≠ [] → parent'.home = parent.home)
    (rootD : xd.root = (T d).root) (rootFuture : ∀ f, invocation = .futureStolen f → xc.root = some f)
    (rootChild : extra = [c] → parent.children = [] → parent.fiberChild = none → xc.root = parent'.home) :
    CactusTree (setAt (setAt T c xc) d xd) := by
  have ok := tree.frames d live
  have wf := ok.wf
  have homes := ok.homes
  rw [isFrames] at wf homes
  have other_c : d ≠ c := by
    rintro rfl
    rw [live] at isNew
    cases isNew
  have synced := wf.synced_above inDeque
  have at_d : setAt (setAt T c xc) d xd d = xd := setAt_self _ _ _
  have at_c : setAt (setAt T c xc) d xd c = xc := by rw [setAt_other (Ne.symm other_c), setAt_self]
  have at_other : ∀ e, e ≠ c → e ≠ d → setAt (setAt T c xc) d xd e = T e := fun e notC notD => by
    rw [setAt_other notD, setAt_other notC]
  have not_new : ∀ {e}, (T e).place.live → e ≠ c := by
    rintro e isLive rfl
    rw [isLive] at isNew
    cases isNew
  have live_iff : ∀ e, (setAt (setAt T c xc) d xd e).place.live ↔ e = c ∨ (T e).place.live := by
    intro e
    by_cases isC : e = c
    · simp [isC, at_c, liveC]
    · by_cases isD : e = d
      · simp [isD, liveD, live]
      · simp [at_other e isC isD, isC]
  have bottomD : bottomOf xd.frames = bottomOf (T d).frames := by
    rw [framesD, isFrames, bottomOf_append (List.cons_ne_nil _ _), bottomOf_cons (List.cons_ne_nil _ _)]
    cases below with
    | nil => exact congrArg some sameInvocation
    | cons next below => rw [bottomOf_cons (List.cons_ne_nil _ _), bottomOf_cons (List.cons_ne_nil _ _)]
  have childOf : ∀ e p h, e ≠ c → ((setAt (setAt T c xc) d xd e).ChildOf p h ↔ (T e).ChildOf p h) := by
    intro e p h notC
    by_cases isD : e = d
    · rw [isD, at_d, CactusStrand.ChildOf, CactusStrand.ChildOf, bottomD]
    · rw [at_other e notC isD]
  have roots : ∀ e, e ≠ c → (setAt (setAt T c xc) d xd e).root = (T e).root := by
    intro e notC
    by_cases isD : e = d
    · rw [isD, at_d, rootD]
    · rw [at_other e notC isD]
  have bottomC : bottomOf xc.frames = some invocation := by
    rw [framesC, bottomOf_append (List.cons_ne_nil _ _)]
    rfl
  -- the functions that have children are those from the parent down
  have inside : ∀ h frame, frame.children ≠ [] → atHeight h (T d).frames = some frame →
      h = below.length ∧ frame = parent ∨ h < below.length ∧ atHeight h below = some frame := by
    intro h frame hasChildren found
    rw [isFrames] at found
    by_cases low : h < (parent :: below).length
    · rw [List.append_cons, atHeight_append low] at found
      rcases atHeight_push found with ⟨rfl, isTop⟩ | found
      · exact .inl ⟨isTop, rfl⟩
      · exact .inr ⟨lt_of_atHeight found, found⟩
    · rw [List.append_cons] at found
      exact absurd (synced frame (mem_of_atHeight_append found (Nat.not_lt.1 low))).1 hasChildren
  have synced_c : ∀ frame ∈ xc.frames, frame.synced := by
    rw [framesC]
    intro frame member
    rcases List.mem_append.1 member with member | member
    · exact synced frame (List.mem_append_left _ member)
    · obtain rfl := List.mem_singleton.1 member
      exact synced child (by simp)
  -- what the parent, and the functions below it, were
  have found_parent : atHeight below.length (T d).frames = some parent := by
    rw [isFrames, List.append_cons, atHeight_append (Nat.lt_succ_self _), atHeight_length]
  have found_below : ∀ {h frame}, atHeight h below = some frame → atHeight h (T d).frames = some frame := by
    intro h frame found
    have low := lt_of_atHeight found
    rw [isFrames, List.append_cons, atHeight_append (Nat.lt_succ_of_lt low), atHeight_cons low, found]
  have each_live : ∀ {p h frame}, (T p).place.live → atHeight h (T p).frames = some frame →
      ∀ e ∈ frame.children, e ≠ c := fun isLive found e member =>
    not_new ((tree.children _ _ _ isLive found).2 e member).1
  refine ⟨fun e isLive => ?_, fun e p h isLive isChild => ?_, fun p h frame isLive found => ?_,
    fun e p h frame isLive isChild found isHead noFiber => ?_⟩
  · by_cases isC : e = c
    · rw [isC, at_c]
      refine ⟨framesC ▸ wf.upper inDeque bottom, ?_, fun f isFuture => ?_⟩
      · rw [framesC]
        intro frame member
        rcases List.mem_append.1 member with member | member
        · exact homes frame (List.mem_append_left _ member)
        · obtain rfl := List.mem_singleton.1 member
          have childOk := homes child (by simp)
          exact ⟨childOk.forked, childOk.child⟩
      · exact rootFuture f (Option.some.inj (bottomC.symm.trans isFuture))
    · by_cases isD : e = d
      · rw [isD, at_d]
        have lower := FramesWf.lower (List.append_cons younger child _ ▸ wf) (List.cons_ne_nil _ _)
        refine ⟨framesD ▸ ⟨sameInvocation ▸ lower.1, fun _ => ?_, lower.2.2⟩, ?_, fun f isFuture => ?_⟩
        · intro other member
          rcases List.mem_cons.1 member with rfl | member
          · rw [sameInvocation]
            exact outside parent List.mem_cons_self
          · exact outside other (List.mem_cons_of_mem _ member)
        · rw [framesD]
          intro frame member
          rcases List.mem_cons.1 member with rfl | member
          · exact homeOk
          · exact homes frame (by simp [member])
        · rw [rootD]
          exact ok.future f (bottomD ▸ isFuture)
      · rw [at_other e isC isD] at isLive ⊢
        exact tree.frames e isLive
  · rw [live_iff] at isLive
    by_cases isC : e = c
    · rw [isC, at_c, CactusStrand.ChildOf, bottomC] at isChild
      rcases isExtra with ⟨isExtra, isInvocation⟩ | ⟨-, notChild⟩
      · obtain ⟨rfl, rfl⟩ : d = p ∧ below.length = h := by
          simpa [isInvocation] using isChild
        refine ⟨(live_iff d).2 (.inr live), parent', ?_, ?_⟩
        · rw [at_d, framesD, atHeight_length]
        · rw [isC, isChildren, isExtra]
          exact List.mem_append_right _ List.mem_cons_self
      · exact absurd (Option.some.inj isChild) (notChild p h)
    · obtain ⟨parentLive, frame, found, member⟩ :=
        tree.parent e p h (isLive.resolve_left isC) ((childOf e p h isC).1 isChild)
      refine ⟨(live_iff p).2 (.inr parentLive), ?_⟩
      by_cases isD : p = d
      · rw [isD] at found ⊢
        rw [at_d, framesD]
        rcases inside h frame (List.ne_nil_of_mem member) found with ⟨isTop, rfl⟩ | ⟨low, found⟩
        · rw [isTop, atHeight_length]
          exact ⟨parent', rfl, isChildren ▸ List.mem_append_left _ member⟩
        · rw [atHeight_cons low]
          exact ⟨frame, found, member⟩
      · rw [at_other p (not_new parentLive) isD]
        exact ⟨frame, found, member⟩
  · by_cases isC : p = c
    · rw [isC, at_c] at found
      rw [(synced_c frame (mem_of_atHeight found)).1]
      exact ⟨List.nodup_nil, nofun⟩
    · have wasLive := ((live_iff p).1 isLive).resolve_left isC
      -- the children that were there are still there
      have still : ∀ {frame}, atHeight h (T p).frames = some frame →
          ∀ e ∈ frame.children, (setAt (setAt T c xc) d xd e).place.live ∧
            (setAt (setAt T c xc) d xd e).ChildOf p h := by
        intro frame found e member
        obtain ⟨isLive, isChild⟩ := (tree.children p h frame wasLive found).2 e member
        exact ⟨(live_iff e).2 (.inr isLive), (childOf e p h (each_live wasLive found e member)).2 isChild⟩
      by_cases isD : p = d
      · rw [isD, at_d, framesD] at found
        rcases atHeight_push found with ⟨rfl, isTop⟩ | found
        · rw [isD, isTop] at still ⊢
          rw [isChildren]
          obtain ⟨nodup, -⟩ := tree.children d _ parent live found_parent
          rcases isExtra with ⟨isExtra, isInvocation⟩ | ⟨isExtra, -⟩
          · rw [isExtra]
            refine ⟨List.nodup_append.2 ⟨nodup, List.nodup_singleton c, ?_⟩, fun e member => ?_⟩
            · rintro e member _ isNew rfl
              exact each_live live found_parent e member (List.mem_singleton.1 isNew)
            · rcases List.mem_append.1 member with member | member
              · exact still found_parent e member
              · obtain rfl := List.mem_singleton.1 member
                refine ⟨(live_iff e).2 (.inl rfl), ?_⟩
                rw [at_c, CactusStrand.ChildOf, bottomC, isInvocation]
          · rw [isExtra, List.append_nil]
            exact ⟨nodup, still found_parent⟩
        · rw [isD] at still
          exact ⟨(tree.children d h frame live (found_below found)).1, isD ▸ still (found_below found)⟩
      · rw [at_other p isC isD] at found
        exact ⟨(tree.children p h frame wasLive found).1, still found⟩
  · rw [live_iff] at isLive
    by_cases isC : e = c
    · rw [isC, at_c] at isChild ⊢
      rw [CactusStrand.ChildOf, bottomC] at isChild
      rcases isExtra with ⟨isExtra, isInvocation⟩ | ⟨-, notChild⟩
      · obtain ⟨rfl, rfl⟩ : d = p ∧ below.length = h := by
          simpa [isInvocation] using isChild
        rw [at_d, framesD, atHeight_length] at found
        obtain rfl := Option.some.inj found
        refine rootChild isExtra ?_ (isFiber ▸ noFiber)
        -- an older child would be the leftmost one
        cases isOlder : parent.children with
        | nil => rfl
        | cons first rest =>
          rw [isChildren, isOlder, isC] at isHead
          have isFirst : first = c := Option.some.inj isHead
          exact absurd isFirst (each_live live found_parent first (by simp [isOlder]))
      · exact absurd (Option.some.inj isChild) (notChild p h)
    · have wasLive := isLive.resolve_left isC
      have wasChild := (childOf e p h isC).1 isChild
      obtain ⟨parentLive, -⟩ := tree.parent e p h wasLive wasChild
      rw [roots e isC]
      by_cases isD : p = d
      · rw [isD] at wasChild found
        rw [at_d, framesD] at found
        rcases atHeight_push found with ⟨rfl, isTop⟩ | found
        · have isOlder : parent.children.head? = some e := by
            rw [isChildren] at isHead
            cases isOlder : parent.children with
            | cons first rest => rw [isOlder] at isHead; exact isHead
            | nil =>
              rw [isOlder] at isHead
              rcases isExtra with ⟨isExtra, -⟩ | ⟨isExtra, -⟩
              · rw [isExtra] at isHead
                exact absurd (Option.some.inj isHead).symm isC
              · rw [isExtra] at isHead
                cases isHead
          have hasChildren : parent.children ≠ [] := by
            intro empty
            rw [empty] at isOlder
            cases isOlder
          rw [sameHome hasChildren]
          exact tree.due e d h parent wasLive wasChild (isTop ▸ found_parent) isOlder (isFiber ▸ noFiber)
        · exact tree.due e d h frame wasLive wasChild (found_below found) isHead noFiber
      · rw [at_other p (not_new parentLive) isD] at found
        exact tree.due e p h frame wasLive wasChild found isHead noFiber

/-- A thief takes the continuation of a function that spawned: what is above becomes its child, on the fiber
that the function had, and the function goes on with another one. -/
theorem fork (tree : CactusTree T) (live : (T d).place.live) (isNew : (T c).place.live = false)
    {xc xd : CactusStrand ω δ β} (liveC : xc.place.live) (liveD : xd.place.live) {self stolen : β}
    (isFrames : (T d).frames = younger ++ child :: parent :: below) (inDeque : child.invocation.inDeque = true)
    (outside : ∀ other ∈ parent :: below, other.invocation.inDeque = false)
    (isSelf : (T d).fiberSelf = some self) (selfC : xc.fiberSelf = some self) (selfD : xd.fiberSelf = some stolen)
    (framesC : xc.frames = younger ++ [{ child with invocation := .spawnedStolen d below.length }])
    (framesD : xd.frames = { parent with
      children := parent.children ++ [c]
      home := if parent.synced then some self else parent.home } :: below) :
    CactusTree (setAt (setAt T c xc) d xd) := by
  have ok := tree.frames d live
  have wf := ok.wf
  have homes := ok.homes
  rw [isFrames] at wf homes
  have synced := wf.synced_above inDeque
  have parentOk := homes parent (by simp)
  -- what is above the continuation has nothing to wait for
  have upperHome : oldestHome (younger ++ [child]) = none :=
    oldestHome_of_synced (fun frame member => homes frame (by
      rcases List.mem_append.1 member with member | member
      · exact List.mem_append_left _ member
      · simp [List.mem_singleton.1 member])) synced
  have wasRoot : (T d).root = ((oldestHome below).or parent.home).or (some self) := by
    rw [CactusStrand.root, isFrames, isSelf, List.append_cons, oldestHome_append, upperHome, Option.or_none,
      oldestHome]
  have upperHome' : oldestHome xc.frames = none := by
    rw [framesC]
    rw [oldestHome_append] at upperHome ⊢
    exact upperHome
  refine tree.steal live isNew liveC liveD isFrames inDeque outside framesC framesD rfl (.inl ⟨rfl, rfl⟩) rfl rfl
    rfl ⟨?_, fun f isFiber => ?_⟩ (fun hasChildren => if_neg fun isSynced => hasChildren isSynced.1) ?_ nofun
    fun _ noChildren noFiber => ?_
  · constructor
    · intro noHome
      split at noHome
      · cases noHome
      · rename_i unsynced
        exact absurd (parentOk.forked.1 noHome) unsynced
    · intro isSynced
      exact absurd isSynced.1 (by simp)
  · split
    · rename_i isSynced
      rw [isSynced.2] at isFiber
      cases isFiber
    · exact parentOk.child f isFiber
  · rw [wasRoot, CactusStrand.root, framesD, selfD, oldestHome]
    split
    · rename_i isSynced
      rw [parentOk.forked.2 isSynced, Option.or_none]
      cases oldestHome below <;> rfl
    · rename_i unsynced
      obtain ⟨f, isHome⟩ := Option.ne_none_iff_exists'.1 (mt parentOk.forked.1 unsynced)
      rw [isHome]
      cases oldestHome below <;> rfl
  · rw [CactusStrand.root, upperHome', selfC]
    exact (if_pos ⟨noChildren, noFiber⟩).symm

/-- A thief takes the continuation of a function that called a future: the future goes on with its own
fiber, and the function with the fiber it had. -/
theorem stealFuture (tree : CactusTree T) (live : (T d).place.live) (isNew : (T c).place.live = false)
    {xc xd : CactusStrand ω δ β} (liveC : xc.place.live) (liveD : xd.place.live) {fiber : β}
    (isFrames : (T d).frames = younger ++ child :: parent :: below) (inDeque : child.invocation.inDeque = true)
    (outside : ∀ other ∈ parent :: below, other.invocation.inDeque = false)
    (selfC : xc.fiberSelf = some fiber) (selfD : xd.fiberSelf = (T d).fiberSelf)
    (framesC : xc.frames = younger ++ [{ child with invocation := .futureStolen fiber }])
    (framesD : xd.frames = parent :: below) : CactusTree (setAt (setAt T c xc) d xd) := by
  have ok := tree.frames d live
  have wf := ok.wf
  have homes := ok.homes
  rw [isFrames] at wf homes
  have upperHome : oldestHome (younger ++ [child]) = none :=
    oldestHome_of_synced (fun frame member => homes frame (by
      rcases List.mem_append.1 member with member | member
      · exact List.mem_append_left _ member
      · simp [List.mem_singleton.1 member])) (wf.synced_above inDeque)
  refine tree.steal live isNew liveC liveD isFrames inDeque outside framesC framesD rfl
    (.inr ⟨rfl, nofun⟩) rfl (List.append_nil _).symm rfl (homes parent (by simp)) (fun _ => rfl) ?_ ?_ nofun
  · rw [CactusStrand.root, CactusStrand.root, framesD, selfD, isFrames, List.append_cons, oldestHome_append,
      upperHome, Option.or_none]
  · intro f isFuture
    obtain rfl : fiber = f := by simpa using isFuture
    rw [oldestHome_append] at upperHome
    rw [CactusStrand.root, framesC, selfC, oldestHome_append]
    exact congrArg (Option.or · (some fiber)) upperHome

/-- A strand that waits for nothing and that nobody waits for ends. -/
theorem drop (tree : CactusTree T) (live : (T d).place.live) (dead : x.place.live = false)
    (noChildren : ∀ frame ∈ (T d).frames, frame.children = []) (notChild : ∀ p h, ¬(T d).ChildOf p h) :
    CactusTree (setAt T d x) := by
  have at_other : ∀ {e}, (setAt T d x e).place.live → e ≠ d := by
    rintro e isLive rfl
    rw [setAt_self, dead] at isLive
    cases isLive
  refine ⟨fun e isLive => ?_, fun e p h isLive isChild => ?_, fun p h frame isLive found => ?_,
    fun e p h frame isLive isChild found isHead noFiber => ?_⟩
  · have notD := at_other isLive
    rw [setAt_other notD] at isLive ⊢
    exact tree.frames e isLive
  · have notD := at_other isLive
    rw [setAt_other notD] at isLive isChild
    obtain ⟨parentLive, frame, found, member⟩ := tree.parent e p h isLive isChild
    by_cases isD : p = d
    · rw [isD] at found
      rw [noChildren frame (mem_of_atHeight found)] at member
      cases member
    · rw [setAt_other isD]
      exact ⟨parentLive, frame, found, member⟩
  · have notD := at_other isLive
    rw [setAt_other notD] at isLive found
    obtain ⟨nodup, each⟩ := tree.children p h frame isLive found
    refine ⟨nodup, fun e member => ?_⟩
    obtain ⟨childLive, isChild⟩ := each e member
    by_cases isD : e = d
    · exact absurd (isD ▸ isChild) (notChild p h)
    · rw [setAt_other isD]
      exact ⟨childLive, isChild⟩
  · have notD := at_other isLive
    rw [setAt_other notD] at isLive isChild ⊢
    by_cases isD : p = d
    · obtain ⟨-, other, foundOther, member⟩ := tree.parent e p h isLive isChild
      rw [isD] at foundOther
      rw [noChildren other (mem_of_atHeight foundOther)] at member
      cases member
    · rw [setAt_other isD] at found
      exact tree.due e p h frame isLive isChild found isHead noFiber

omit [DecidableEq δ] in
/-- The parent of a strand that waits for nothing is another one. -/
theorem parent_of_child (tree : CactusTree T) (live : (T d).place.live) (isFrames : (T d).frames = [frame])
    (synced : frame.synced) (isInvocation : frame.invocation = .spawnedStolen p h) :
    (T d).ChildOf p h ∧ (T p).place.live ∧ p ≠ d := by
  have isChild : (T d).ChildOf p h := by
    rw [CactusStrand.ChildOf, isFrames]
    exact congrArg some isInvocation
  obtain ⟨liveP, parent, found, member⟩ := tree.parent d p h live isChild
  refine ⟨isChild, liveP, ?_⟩
  rintro rfl
  rw [isFrames] at found
  have isParent := mem_of_atHeight found
  rw [List.mem_singleton.1 isParent, synced.1] at member
  cases member

/-- A spawned strand ends and gives its fiber to its parent, if it is the leftmost child and no child gave
one before. -/
theorem join (tree : CactusTree T) (live : (T d).place.live) (dead : x.place.live = false)
    {xp : CactusStrand ω δ β} {self : β} {change : CactusFrame δ β → CactusFrame δ β}
    (isFrames : (T d).frames = [frame]) (synced : frame.synced)
    (isInvocation : frame.invocation = .spawnedStolen p h) (isSelf : (T d).fiberSelf = some self)
    (found : atHeight h (T p).frames = some parent) (placeP : xp.place = (T p).place)
    (framesP : xp.frames = modifyHeight h change (T p).frames) (selfP : xp.fiberSelf = (T p).fiberSelf)
    (isChange : change parent = { parent with
      children := parent.children.erase d
      fiberChild := if parent.children.head? ≠ some d ∨ parent.fiberChild ≠ none then parent.fiberChild
        else some self }) :
    CactusTree (setAt (setAt T p xp) d x) := by
  obtain ⟨isChild, -, notP⟩ := tree.parent_of_child live isFrames synced isInvocation
  obtain ⟨liveP, parent', found', member⟩ := tree.parent d p h live isChild
  obtain rfl := Option.some.inj (found.symm.trans found')
  have okP := tree.frames p liveP
  have parentOk := okP.homes parent (mem_of_atHeight found)
  have hasChildren : parent.children ≠ [] := List.ne_nil_of_mem member
  have unsynced : ¬parent.synced := fun isSynced => hasChildren isSynced.1
  obtain ⟨nodup, each⟩ := tree.children p h parent liveP found
  -- the strand has the fiber that the parent goes on with, if it is the leftmost one
  have isRoot : (T d).root = some self := by
    have noHome : frame.home = none :=
      ((tree.frames d live).homes frame (by rw [isFrames]; exact List.mem_cons_self)).forked.2 synced
    rw [CactusStrand.root, isFrames, isSelf, oldestHome, oldestHome, noHome]
    rfl
  have isHome : parent.children.head? = some d → parent.fiberChild = none → parent.home = some self :=
    fun isHead noFiber => (tree.due d p h parent live isChild found isHead noFiber).symm.trans isRoot
  have sameInvocation : (change parent).invocation = parent.invocation := by rw [isChange]
  have sameHome : (change parent).home = parent.home := by rw [isChange]
  have stillWaits : ¬(change parent).synced := by
    rw [isChange]
    rintro ⟨noChildren, noFiber⟩
    simp only at noFiber
    split at noFiber
    · rename_i notLeftmost
      rcases notLeftmost with notHead | hasFiber
      · cases isChildren : parent.children with
        | nil => exact hasChildren isChildren
        | cons first rest =>
          rw [isChildren] at notHead
          have other : first ≠ d := fun same => notHead (same ▸ rfl)
          have noChildren : parent.children.erase d = [] := noChildren
          rw [isChildren, List.erase_cons_tail (by simpa using other)] at noChildren
          cases noChildren
      · exact hasFiber noFiber
    · cases noFiber
  have at_d : setAt (setAt T p xp) d x d = x := setAt_self _ _ _
  have at_p : setAt (setAt T p xp) d x p = xp := by rw [setAt_other notP, setAt_self]
  have at_other : ∀ {e}, e ≠ d → e ≠ p → setAt (setAt T p xp) d x e = T e := fun notD notP => by
    rw [setAt_other notD, setAt_other notP]
  have bottomP : bottomOf xp.frames = bottomOf (T p).frames := by
    rw [framesP, bottomOf_eq_map, map_invocation_modifyHeight found sameInvocation, bottomOf_eq_map]
  have rootP : xp.root = (T p).root := by
    rw [CactusStrand.root, framesP, selfP, oldestHome_modifyHeight found sameHome, CactusStrand.root]
  have live_iff : ∀ e, (setAt (setAt T p xp) d x e).place.live ↔ e ≠ d ∧ (T e).place.live := by
    intro e
    by_cases isD : e = d
    · simp [isD, dead]
    · by_cases isP : e = p
      · simp [isP, notP, at_p, placeP, liveP]
      · simp [at_other isD isP, isD]
  have childOf : ∀ {e q k}, e ≠ d → ((setAt (setAt T p xp) d x e).ChildOf q k ↔ (T e).ChildOf q k) := by
    intro e q k notD
    by_cases isP : e = p
    · rw [isP, at_p, CactusStrand.ChildOf, CactusStrand.ChildOf, bottomP]
    · rw [at_other notD isP]
  have roots : ∀ {e}, e ≠ d → (setAt (setAt T p xp) d x e).root = (T e).root := by
    intro e notD
    by_cases isP : e = p
    · rw [isP, at_p, rootP]
    · rw [at_other notD isP]
  -- the functions that wait are those that did, and the parent has one child less
  have was : ∀ {q k other}, q ≠ d → atHeight k (setAt (setAt T p xp) d x q).frames = some other →
      (q = p ∧ k = h ∧ other = change parent) ∨
        ((q ≠ p ∨ k ≠ h) ∧ atHeight k (T q).frames = some other) := by
    intro q k other notD foundOther
    by_cases isP : q = p
    · rw [isP, at_p, framesP] at foundOther
      by_cases isH : k = h
      · rw [isH, atHeight_modifyHeight found] at foundOther
        exact .inl ⟨isP, isH, (Option.some.inj foundOther).symm⟩
      · rw [atHeight_modifyHeight_other isH] at foundOther
        exact .inr ⟨.inr isH, isP ▸ foundOther⟩
    · rw [at_other notD isP] at foundOther
      exact .inr ⟨.inl isP, foundOther⟩
  have not_d : ∀ {q k other}, (q ≠ p ∨ k ≠ h) → (T q).place.live → atHeight k (T q).frames = some other →
      ∀ e ∈ other.children, e ≠ d := by
    rintro q k other differ liveQ foundOther e memberOther rfl
    have childQ := ((tree.children q k other liveQ foundOther).2 e memberOther).2
    have same := Option.some.inj (childQ.symm.trans isChild)
    obtain ⟨rfl, rfl⟩ : q = p ∧ k = h := by simpa using same
    exact differ.elim (absurd rfl) (absurd rfl)
  -- nobody waits for a child in the strand that ends
  have parent_ne : ∀ {e q k}, (T e).place.live → (T e).ChildOf q k → q ≠ d := by
    rintro e q k liveE isChildE rfl
    obtain ⟨-, other, foundOther, memberOther⟩ := tree.parent e q k liveE isChildE
    have isOther := mem_of_atHeight foundOther
    rw [isFrames] at isOther
    rw [List.mem_singleton.1 isOther, synced.1] at memberOther
    cases memberOther
  refine ⟨fun e isLive => ?_, fun e q k isLive isChildE => ?_, fun q k other isLive foundOther => ?_,
    fun e q k other isLive isChildE foundOther isHead noFiber => ?_⟩
  · obtain ⟨notD, wasLive⟩ := (live_iff e).1 isLive
    by_cases isP : e = p
    · rw [isP, at_p]
      refine ⟨framesP ▸ okP.wf.modify found sameInvocation fun _ => unsynced, ?_, fun f isFuture => ?_⟩
      · rw [framesP]
        intro other memberOther
        rcases mem_modifyHeight found memberOther with rfl | memberOther
        · refine ⟨⟨fun noHome => ?_, fun isSynced => absurd isSynced stillWaits⟩, fun f isFiber => ?_⟩
          · rw [sameHome] at noHome
            exact absurd (parentOk.forked.1 noHome) unsynced
          · rw [sameHome]
            rw [isChange] at isFiber
            simp only at isFiber
            split at isFiber
            · exact parentOk.child f isFiber
            · rename_i leftmost
              rw [not_or, not_not, not_not] at leftmost
              exact (isHome leftmost.1 leftmost.2).trans isFiber
        · exact okP.homes other memberOther
      · rw [rootP]
        exact okP.future f (bottomP ▸ isFuture)
    · rw [at_other notD isP]
      exact tree.frames e wasLive
  · obtain ⟨notD, wasLive⟩ := (live_iff e).1 isLive
    obtain ⟨liveQ, other, foundOther, memberOther⟩ := tree.parent e q k wasLive ((childOf notD).1 isChildE)
    have notQ := parent_ne wasLive ((childOf notD).1 isChildE)
    refine ⟨(live_iff q).2 ⟨notQ, liveQ⟩, ?_⟩
    by_cases isP : q = p
    · rw [isP, at_p, framesP]
      rw [isP] at foundOther
      by_cases isH : k = h
      · rw [isH] at foundOther ⊢
        obtain rfl := Option.some.inj (found.symm.trans foundOther)
        refine ⟨_, atHeight_modifyHeight found, ?_⟩
        rw [isChange]
        exact (List.mem_erase_of_ne notD).2 memberOther
      · exact ⟨other, (atHeight_modifyHeight_other isH).trans foundOther, memberOther⟩
    · rw [at_other notQ isP]
      exact ⟨other, foundOther, memberOther⟩
  · obtain ⟨notD, wasLive⟩ := (live_iff q).1 isLive
    rcases was notD foundOther with ⟨rfl, rfl, rfl⟩ | ⟨differ, foundOther⟩
    · rw [isChange]
      refine ⟨nodup.erase d, fun e memberE => ?_⟩
      have notE : e ≠ d := fun same => nodup.not_mem_erase (same ▸ memberE)
      obtain ⟨liveE, childE⟩ := each e (List.mem_of_mem_erase memberE)
      exact ⟨(live_iff e).2 ⟨notE, liveE⟩, (childOf notE).2 childE⟩
    · obtain ⟨nodupOther, eachOther⟩ := tree.children q k other wasLive foundOther
      refine ⟨nodupOther, fun e memberE => ?_⟩
      have notE := not_d differ wasLive foundOther e memberE
      exact ⟨(live_iff e).2 ⟨notE, (eachOther e memberE).1⟩, (childOf notE).2 (eachOther e memberE).2⟩
  · obtain ⟨notD, wasLive⟩ := (live_iff e).1 isLive
    have wasChild := (childOf notD).1 isChildE
    rw [roots notD]
    have notQ := parent_ne wasLive wasChild
    rcases was notQ foundOther with ⟨rfl, rfl, rfl⟩ | ⟨differ, foundOther⟩
    · rw [sameHome]
      rw [isChange] at isHead noFiber
      simp only at isHead noFiber
      split at noFiber
      · rename_i notLeftmost
        have notHead := notLeftmost.resolve_right fun hasFiber => hasFiber noFiber
        refine tree.due e q k parent wasLive wasChild found ?_ noFiber
        -- the leftmost child is still the same
        cases isChildren : parent.children with
        | nil => exact absurd isChildren hasChildren
        | cons first rest =>
          rw [isChildren] at notHead isHead
          have other : first ≠ d := fun same => notHead (same ▸ rfl)
          rw [List.erase_cons_tail (by simpa using other)] at isHead
          exact isHead
      · cases noFiber
    · exact tree.due e q k other wasLive wasChild foundOther isHead noFiber

end CactusTree

end CilkL
