/-
Module: CilkL.Proofs.SiblingList
Layer: Proofs
Purpose: In every reachable state the links of the children of a frame form the doubly linked list of the
  children that were pushed and not unlinked, in the order of the pushes, and `rightmost_child` is its last
  node. The invariant has one lemma for a push, one for an unlink and one for the steps that leave the lists
  alone. The fields to the left of a returning child or of a sync are those of the unfinished child before
  it, when they are computed and for as long as the parent's lock is held.
Imports: CilkL.Library.DoublyLinked, CilkL.Proofs.CallStack, CilkL.Runtime.SiblingList
Trusted boundary: none
Main exports: SiblingState.Linked, sibling_lists_ordered
Open obligations: none
-/
import CilkL.Library.DoublyLinked
import CilkL.Proofs.CallStack
import CilkL.Runtime.SiblingList

namespace CilkL

variable {ω φ ψ β : Type}

/-! ### The places of deposit -/

/-- The fields that belong to an unfinished child, or to the parent where there is none. -/
def depositPlace (parentFf : ψ) : Option ψ → SpliceLeftPtrs ψ
  | some childFf => { mapPtr := .right childFf, exceptionPtr := .right childFf }
  | none => { mapPtr := .children parentFf, exceptionPtr := .children parentFf }

/-- The fields in use are those of the serially preceding unfinished child. -/
def FrameHold.Serial (parentFf : ψ) (unfinished : List ψ) : FrameHold ψ → Prop
  | .returning childFf left => ∃ before after, unfinished = before ++ childFf :: after ∧
      left = depositPlace parentFf before.getLast?
  | .syncing left => left = depositPlace parentFf unfinished.getLast?

/-! ### What the operations do to the links -/

section Links

variable [DecidableEq ψ] {fulls fulls' : ψ → FrameRecord ω φ ψ β} {heap heap' : FrameHeap ω φ ψ β}
  {parentFf childFf : ψ} {childSf : Option φ} {fiber : ChildFiber β}

/-- The record of a full frame after the frame `childFf` was pushed under `parentFf`. -/
structure ChildPushed (fulls fulls' : ψ → FrameRecord ω φ ψ β) (parentFf childFf : ψ) : Prop where
  parent : ∀ y, (fulls' y).parent = if y = childFf then some parentFf else (fulls y).parent
  rightmost : ∀ y, (fulls' y).rightmostChild =
    if y = childFf then none else if y = parentFf then some childFf else (fulls y).rightmostChild
  left : ∀ y, (fulls' y).leftSibling =
    if y = childFf then (fulls parentFf).rightmostChild else (fulls y).leftSibling
  right : ∀ y, (fulls' y).rightSibling = if y = childFf then none
    else if (fulls parentFf).rightmostChild = some y then some childFf else (fulls y).rightSibling

/-- `make_child` pushes the frame, or makes it and leaves the lists alone. -/
theorem makeChild_links [DecidableEq φ] (fresh : childFf ≠ parentFf)
    (made : heap.makeChild parentFf childFf childSf fiber = some heap') :
    if SiblingState.isFutureParent heap parentFf then heap' = heap.setFull childFf (madeFullFrame childSf)
    else ChildPushed heap.fulls heap'.fulls parentFf childFf := by
  have sameParent : setAt heap.fulls childFf (madeFullFrame childSf) parentFf = heap.fulls parentFf :=
    setAt_other (Ne.symm fresh) _ _
  simp only [FrameHeap.makeChild, sameParent] at made
  unfold SiblingState.isFutureParent
  cases calls : (heap.fulls parentFf).callStack with
  | none => simp [calls] at made
  | some sf =>
      simp only [calls] at made ⊢
      by_cases future : (heap.frames sf).flags.futureParent
      · rw [if_pos future] at made ⊢
        exact (Option.some.inj made).symm
      · rw [if_neg future] at made ⊢
        obtain rfl := Option.some.inj made
        constructor <;> intro y <;>
          simp only [FrameHeap.linkChild, pushChild_apply, setAt] <;> grind -linarith [madeFullFrame]

/-- The records of the full frames after the frame `childFf` was unlinked from `parentFf`. -/
structure ChildUnlinked (fulls fulls' : ψ → FrameRecord ω φ ψ β) (parentFf childFf : ψ) : Prop where
  parent : ∀ y, (fulls' y).parent = (fulls y).parent
  rightmost : ∀ y, (fulls' y).rightmostChild =
    if y = parentFf ∧ (fulls childFf).rightSibling = none then (fulls childFf).leftSibling
    else (fulls y).rightmostChild
  left : ∀ y, (fulls' y).leftSibling = if y = childFf then none
    else if (fulls childFf).rightSibling = some y then (fulls childFf).leftSibling else (fulls y).leftSibling
  right : ∀ y, (fulls' y).rightSibling = if y = childFf then none
    else if (fulls childFf).leftSibling = some y then (fulls childFf).rightSibling
    else (fulls y).rightSibling

/-- `unlink_child` of a frame that is not its own sibling and is the rightmost child when it has no right
    sibling: the assertion holds. -/
theorem unlinkChild_links (notLeft : (fulls childFf).leftSibling ≠ some childFf)
    (notRight : (fulls childFf).rightSibling ≠ some childFf)
    (isLast : (fulls childFf).rightSibling = none → (fulls parentFf).rightmostChild = some childFf) :
    ∃ fulls', unlinkChild fulls parentFf childFf = some fulls' ∧ ChildUnlinked fulls fulls' parentFf childFf := by
  unfold unlinkChild
  simp only [doubleLink_apply, if_neg notLeft, if_neg notRight]
  by_cases last : (fulls childFf).rightSibling = none
  · rw [if_pos last, if_pos (isLast last)]
    refine ⟨_, rfl, ?_⟩
    constructor <;> intro y <;> simp only [setAt, doubleLink_apply] <;> grind -linarith
  · rw [if_neg last]
    refine ⟨_, rfl, ?_⟩
    constructor <;> intro y <;> simp only [setAt, doubleLink_apply] <;> grind -linarith

end Links

/-! ### The invariant -/

namespace SiblingState

variable {s s' : SiblingState ω φ ψ β} {parentFf childFf ff : ψ} {before after : List ψ}

/-- The sibling lists are in order. -/
structure Linked (s : SiblingState ω φ ψ β) : Prop where
  list : ∀ p, DoublyLinked s.leftSibling s.rightSibling (s.unfinished p)
  rightmost : ∀ p, s.place p ≠ .free → s.rightmostChild p = (s.unfinished p).getLast?
  free : ∀ p, s.place p = .free → s.unfinished p = []
  child : ∀ p c, c ∈ s.unfinished p ↔ s.place c = .childOf p
  parent : ∀ p c, s.place c = .childOf p → (s.heap.fulls c).parent = some p
  alone : ∀ c, s.place c = .alone → s.leftSibling c = none ∧ s.rightSibling c = none
  held : ∀ p hold, s.held p = some hold → hold.Serial p (s.unfinished p)

/-- A state without full frames. -/
theorem Initial.linked (initial : s.Initial) : s.Linked where
  list p := by
    rw [(initial p).2.2]
    exact .nil
  rightmost p isMade := absurd (initial p).1 isMade
  free p _ := (initial p).2.2
  child p c := by simp [(initial p).2.2, (initial c).1]
  parent p c isChild := by simp [(initial c).1] at isChild
  alone c isAlone := by simp [(initial c).1] at isAlone
  held p hold isHeld := by simp [(initial p).2.1] at isHeld

/-- A child is in its parent's list, between its neighbours. -/
theorem Linked.split (linked : s.Linked) (isChild : s.place childFf = .childOf parentFf) :
    ∃ before after, s.unfinished parentFf = before ++ childFf :: after :=
  List.append_of_mem ((linked.child parentFf childFf).mpr isChild)

/-- Only frames with children are parents. -/
theorem Linked.made (linked : s.Linked) (isChild : s.place childFf = .childOf parentFf) :
    s.place parentFf ≠ .free := by
  intro isFree
  have mem := (linked.child parentFf childFf).mpr isChild
  rw [linked.free parentFf isFree] at mem
  exact List.not_mem_nil mem

/-- A frame is in one list at most. -/
theorem Linked.same_parent (linked : s.Linked) {p q : ψ} (one : ff ∈ s.unfinished p)
    (two : ff ∈ s.unfinished q) : p = q :=
  FramePlace.childOf.inj (((linked.child p ff).mp one).symm.trans ((linked.child q ff).mp two))

/-- What the child to the left of a returning one leaves to it. -/
theorem Linked.spawnReturn (linked : s.Linked) (split : s.unfinished parentFf = before ++ childFf :: after) :
    computeLeftPtrsForSpawnReturn s.heap.fulls childFf =
      some (depositPlace parentFf before.getLast?) := by
  have left : (s.heap.fulls childFf).leftSibling = before.getLast? :=
    (linked.list parentFf).left_eq before childFf after split
  have parent : (s.heap.fulls childFf).parent = some parentFf :=
    linked.parent parentFf childFf ((linked.child parentFf childFf).mp (by simp [split]))
  unfold computeLeftPtrsForSpawnReturn
  rw [left]
  cases before.getLast? with
  | none => simp [parent, depositPlace]
  | some a => rfl

/-- What the rightmost child leaves to a frame at a sync; the assertion holds. -/
theorem Linked.sync [DecidableEq ψ] (linked : s.Linked) (isMade : s.place ff ≠ .free) :
    computeLeftPtrsForSync s.heap.fulls ff = some (depositPlace ff (s.unfinished ff).getLast?) := by
  have rightmost : (s.heap.fulls ff).rightmostChild = (s.unfinished ff).getLast? := linked.rightmost ff isMade
  unfold computeLeftPtrsForSync
  rw [rightmost]
  cases isLast : (s.unfinished ff).getLast? with
  | none => rfl
  | some c =>
      have isChild : s.place c = .childOf ff := (linked.child ff c).mp (List.mem_of_getLast? isLast)
      simp [linked.parent ff c isChild, depositPlace]

/-- The parent that a returning child names is the one it is linked under. -/
theorem Linked.parentOf (linked : s.Linked) (names : s.parentOf childFf = some parentFf) :
    s.place childFf = .childOf parentFf := by
  unfold SiblingState.parentOf at names
  cases place : s.place childFf with
  | free => simp [place] at names
  | alone => simp [place] at names
  | childOf p =>
      simp only [place, linked.parent p childFf place] at names
      rw [Option.some.inj names]

/-- Stores that leave the links of the frames alone. -/
theorem Linked.congr (linked : s.Linked) {heap : FrameHeap ω φ ψ β}
    (same : ∀ f, s.place f ≠ .free → (heap.fulls f).parent = (s.heap.fulls f).parent ∧
      (heap.fulls f).rightmostChild = s.rightmostChild f ∧ (heap.fulls f).leftSibling = s.leftSibling f ∧
      (heap.fulls f).rightSibling = s.rightSibling f) :
    ({ s with heap := heap } : SiblingState ω φ ψ β).Linked where
  list p := by
    have isMade : ∀ a ∈ s.unfinished p, s.place a ≠ .free := by
      intro a mem
      simp [(linked.child p a).mp mem]
    exact (linked.list p).congr (fun a mem => (same a (isMade a mem)).2.2.1)
      (fun a mem => (same a (isMade a mem)).2.2.2)
  rightmost p isMade := (same p isMade).2.1.trans (linked.rightmost p isMade)
  free := linked.free
  child := linked.child
  parent p c isChild := by
    have isMade : s.place c ≠ .free := by simp [show s.place c = .childOf p from isChild]
    exact (same c isMade).1.trans (linked.parent p c isChild)
  alone c isAlone := by
    have isMade : s.place c ≠ .free := by simp [show s.place c = .alone from isAlone]
    obtain ⟨-, -, left, right⟩ := same c isMade
    obtain ⟨noLeft, noRight⟩ := linked.alone c isAlone
    exact ⟨left.trans noLeft, right.trans noRight⟩
  held := linked.held

variable [DecidableEq ψ]

/-- A frame of the allocator's memory that is in no list. -/
theorem Linked.makeAlone (linked : s.Linked) (isFree : s.place ff = .free) (sf : Option φ) :
    ({ s with heap := s.heap.setFull ff (madeFullFrame sf), place := setAt s.place ff .alone } :
      SiblingState ω φ ψ β).Linked := by
  have elsewhere : ∀ p, ff ∉ s.unfinished p := by
    intro p mem
    simp [(linked.child p ff).mp mem] at isFree
  have others : ∀ f, f ≠ ff → (s.heap.setFull ff (madeFullFrame sf)).fulls f = s.heap.fulls f :=
    fun f other => setAt_other other _ _
  have otherPlace : ∀ f, f ≠ ff → setAt s.place ff .alone f = s.place f :=
    fun f other => setAt_other other _ _
  constructor
  · intro p
    have other : ∀ a ∈ s.unfinished p, a ≠ ff := fun a mem same => elsewhere p (same ▸ mem)
    exact (linked.list p).congr (fun a mem => congrArg FrameRecord.leftSibling (others a (other a mem)))
      (fun a mem => congrArg FrameRecord.rightSibling (others a (other a mem)))
  · intro p isMade
    by_cases same : p = ff
    · subst same
      simp [rightmostChild, madeFullFrame, linked.free p isFree]
    · have wasMade : s.place p ≠ .free := otherPlace p same ▸ isMade
      exact (congrArg FrameRecord.rightmostChild (others p same)).trans (linked.rightmost p wasMade)
  · intro p wasFree
    by_cases same : p = ff
    · simp [same] at wasFree
    · exact linked.free p (otherPlace p same ▸ wasFree)
  · intro p c
    by_cases same : c = ff
    · simp [same, elsewhere p]
    · simpa only [otherPlace c same] using linked.child p c
  · intro p c isChild
    by_cases same : c = ff
    · simp [same] at isChild
    · have wasChild : s.place c = .childOf p := otherPlace c same ▸ isChild
      exact (congrArg FrameRecord.parent (others c same)).trans (linked.parent p c wasChild)
  · intro c isAlone
    by_cases same : c = ff
    · simp [same, leftSibling, rightSibling, madeFullFrame]
    · obtain ⟨noLeft, noRight⟩ := linked.alone c (otherPlace c same ▸ isAlone)
      exact ⟨(congrArg FrameRecord.leftSibling (others c same)).trans noLeft,
        (congrArg FrameRecord.rightSibling (others c same)).trans noRight⟩
  · exact linked.held

/-- A frame pushed under a parent whose lock nobody else holds. -/
theorem Linked.push (linked : s.Linked) (isFree : s.place childFf = .free)
    (isMade : s.place parentFf ≠ .free) (unheld : s.held parentFf = none)
    (pushed : ChildPushed s.heap.fulls s'.heap.fulls parentFf childFf)
    (place : s'.place = setAt s.place childFf (.childOf parentFf)) (held : s'.held = s.held)
    (unfinished : s'.unfinished = setAt s.unfinished parentFf (s.unfinished parentFf ++ [childFf])) :
    s'.Linked := by
  have elsewhere : ∀ p, childFf ∉ s.unfinished p := by
    intro p mem
    simp [(linked.child p childFf).mp mem] at isFree
  have isLast : (s.heap.fulls parentFf).rightmostChild = (s.unfinished parentFf).getLast? :=
    linked.rightmost parentFf isMade
  have other : ∀ p, ∀ a ∈ s.unfinished p, a ≠ childFf := fun p a mem same => elsewhere p (same ▸ mem)
  have sameLeft : ∀ p, ∀ a ∈ s.unfinished p, s'.leftSibling a = s.leftSibling a := by
    intro p a mem
    rw [leftSibling, pushed.left a, if_neg (other p a mem)]
  constructor
  · intro p
    rw [unfinished]
    by_cases same : p = parentFf
    · subst same
      rw [setAt_self]
      refine (linked.list p).push (elsewhere p) ?_ ?_ (sameLeft p) ?_
      · rw [leftSibling, pushed.left childFf, if_pos rfl, isLast]
      · rw [rightSibling, pushed.right childFf, if_pos rfl]
      · intro a mem
        rw [rightSibling, pushed.right a, if_neg (other p a mem), isLast]
    · rw [setAt_other same]
      refine (linked.list p).congr (sameLeft p) ?_
      intro a mem
      -- A child of another frame is not the last one here.
      have notLast : (s.heap.fulls parentFf).rightmostChild ≠ some a := by
        intro last
        exact same (linked.same_parent mem (List.mem_of_getLast? (isLast.symm.trans last)))
      rw [rightSibling, pushed.right a, if_neg (other p a mem), if_neg notLast]
  · intro p isMade'
    rw [rightmostChild, pushed.rightmost p, unfinished]
    by_cases isNew : p = childFf
    · subst isNew
      have notParent : p ≠ parentFf := fun same => isMade (same ▸ isFree)
      rw [if_pos rfl, setAt_other notParent, linked.free p isFree]
      rfl
    · rw [if_neg isNew]
      by_cases same : p = parentFf
      · subst same
        simp
      · rw [place, setAt_other isNew] at isMade'
        rw [if_neg same, setAt_other same]
        exact linked.rightmost p isMade'
  · intro p isFree'
    rw [place] at isFree'
    have notNew : p ≠ childFf := by
      rintro rfl
      simp at isFree'
    rw [setAt_other notNew] at isFree'
    have notParent : p ≠ parentFf := fun same => isMade (same ▸ isFree')
    rw [unfinished, setAt_other notParent]
    exact linked.free p isFree'
  · intro p c
    have wasChild := linked.child p c
    have notChild := elsewhere p
    simp only [place, unfinished, setAt]
    grind -linarith
  · intro p c isChild
    rw [place] at isChild
    rw [pushed.parent c]
    by_cases isNew : c = childFf
    · subst isNew
      rw [setAt_self] at isChild
      rw [if_pos rfl, FramePlace.childOf.inj isChild]
    · rw [setAt_other isNew] at isChild
      rw [if_neg isNew]
      exact linked.parent p c isChild
  · intro c isAlone
    rw [place] at isAlone
    have notNew : c ≠ childFf := by
      rintro rfl
      simp at isAlone
    rw [setAt_other notNew] at isAlone
    obtain ⟨noLeft, noRight⟩ := linked.alone c isAlone
    have notLast : (s.heap.fulls parentFf).rightmostChild ≠ some c := by
      intro last
      have mem : c ∈ s.unfinished parentFf := List.mem_of_getLast? (isLast.symm.trans last)
      rw [(linked.child parentFf c).mp mem] at isAlone
      cases isAlone
    rw [leftSibling, rightSibling, pushed.left c, pushed.right c, if_neg notNew, if_neg notNew,
      if_neg notLast]
    exact ⟨noLeft, noRight⟩
  · intro p hold isHeld
    rw [held] at isHeld
    have notParent : p ≠ parentFf := by
      rintro rfl
      cases unheld.symm.trans isHeld
    rw [unfinished, setAt_other notParent]
    exact linked.held p hold isHeld

/-- A child unlinked from its parent, with the parent's lock released. -/
theorem Linked.unlinked (linked : s.Linked) (split : s.unfinished parentFf = before ++ childFf :: after)
    (unlinked : ChildUnlinked s.heap.fulls s'.heap.fulls parentFf childFf)
    (place : s'.place = setAt s.place childFf .alone) (held : s'.held = setAt s.held parentFf none)
    (unfinished : s'.unfinished = setAt s.unfinished parentFf (before ++ after)) : s'.Linked := by
  have isChild : s.place childFf = .childOf parentFf :=
    (linked.child parentFf childFf).mp (by simp [split])
  have list := linked.list parentFf
  rw [split] at list
  have isLeft : (s.heap.fulls childFf).leftSibling = before.getLast? := list.neighbours.1
  have isRight : (s.heap.fulls childFf).rightSibling = after.head? := list.neighbours.2
  have notHere : childFf ∉ before ++ after := by
    obtain ⟨notBefore, notAfter⟩ := not_mem_of_nodup_split list.nodup
    exact fun mem => (List.mem_append.mp mem).elim notBefore notAfter
  have isHere : ∀ a ∈ before ++ after, a ∈ s.unfinished parentFf := by
    intro a mem
    rw [split]
    exact List.mem_append.mpr ((List.mem_append.mp mem).imp_right (List.mem_cons_of_mem childFf))
  have leftHere : ∀ a, before.getLast? = some a → a ∈ s.unfinished parentFf := fun a last =>
    isHere a (List.mem_append_left after (List.mem_of_getLast? last))
  have rightHere : ∀ a, after.head? = some a → a ∈ s.unfinished parentFf := fun a first =>
    isHere a (List.mem_append_right before (List.mem_of_head? first))
  constructor
  · intro p
    rw [unfinished]
    by_cases same : p = parentFf
    · subst same
      rw [setAt_self]
      refine list.unlink ?_ ?_ <;> intro a mem
      · have other : a ≠ childFf := fun same => notHere (same ▸ mem)
        rw [leftSibling, unlinked.left a, if_neg other, isLeft, isRight]
      · have other : a ≠ childFf := fun same => notHere (same ▸ mem)
        rw [rightSibling, unlinked.right a, if_neg other, isLeft, isRight]
    · rw [setAt_other same]
      refine (linked.list p).congr ?_ ?_ <;> intro a mem
      · have other : a ≠ childFf := by
          rintro rfl
          exact same (linked.same_parent mem (by simp [split]))
        have notRight : after.head? ≠ some a := fun first => same (linked.same_parent mem (rightHere a first))
        rw [leftSibling, unlinked.left a, if_neg other, isRight, if_neg notRight]
      · have other : a ≠ childFf := by
          rintro rfl
          exact same (linked.same_parent mem (by simp [split]))
        have notLeft : before.getLast? ≠ some a := fun last => same (linked.same_parent mem (leftHere a last))
        rw [rightSibling, unlinked.right a, if_neg other, isLeft, if_neg notLeft]
  · intro p isMade
    have wasMade : s.place p ≠ .free := by
      intro wasFree
      rw [place] at isMade
      have other : p ≠ childFf := by
        rintro rfl
        cases isChild.symm.trans wasFree
      exact isMade (setAt_other other s.place _ ▸ wasFree)
    have rightmost : (s.heap.fulls p).rightmostChild = (s.unfinished p).getLast? :=
      linked.rightmost p wasMade
    rw [rightmostChild, unlinked.rightmost p, unfinished, isLeft, isRight, rightmost]
    by_cases same : p = parentFf
    · subst same
      rw [setAt_self, split]
      cases after with
      | nil => simp
      | cons y after => simp
    · rw [if_neg (fun both => same both.1), setAt_other same]
  · intro p isFree
    rw [place] at isFree
    have other : p ≠ childFf := by
      rintro rfl
      simp at isFree
    rw [setAt_other other] at isFree
    have notParent : p ≠ parentFf := fun same => linked.made isChild (same ▸ isFree)
    rw [unfinished, setAt_other notParent]
    exact linked.free p isFree
  · intro p c
    rw [place, unfinished]
    by_cases isChild' : c = childFf
    · subst isChild'
      rw [setAt_self]
      refine ⟨fun mem => ?_, fun impossible => by cases impossible⟩
      by_cases same : p = parentFf
      · subst same
        rw [setAt_self] at mem
        exact absurd mem notHere
      · rw [setAt_other same] at mem
        exact absurd (linked.same_parent mem (by simp [split])) same
    · rw [setAt_other isChild', ← linked.child p c]
      by_cases same : p = parentFf
      · subst same
        rw [setAt_self, split]
        simp [isChild']
      · rw [setAt_other same]
  · intro p c isChild'
    rw [place] at isChild'
    have other : c ≠ childFf := by
      rintro rfl
      simp at isChild'
    rw [setAt_other other] at isChild'
    exact (unlinked.parent c).trans (linked.parent p c isChild')
  · intro c isAlone
    rw [leftSibling, rightSibling, unlinked.left c, unlinked.right c, isLeft, isRight]
    by_cases same : c = childFf
    · rw [if_pos same, if_pos same]
      exact ⟨rfl, rfl⟩
    · rw [place, setAt_other same] at isAlone
      have elsewhere : c ∉ s.unfinished parentFf := by
        intro mem
        cases isAlone.symm.trans ((linked.child parentFf c).mp mem)
      rw [if_neg same, if_neg same, if_neg fun first => elsewhere (rightHere c first),
        if_neg fun last => elsewhere (leftHere c last)]
      exact linked.alone c isAlone
  · intro p hold isHeld
    rw [held] at isHeld
    have notParent : p ≠ parentFf := by
      rintro rfl
      simp at isHeld
    rw [setAt_other notParent] at isHeld
    rw [unfinished, setAt_other notParent]
    exact linked.held p hold isHeld

/-- A child can be unlinked from its parent: the assertion holds. -/
theorem Linked.unlink (linked : s.Linked) (isChild : s.place childFf = .childOf parentFf) :
    ∃ s', s.unlink parentFf childFf = some s' ∧ s'.held = s.held ∧
      ({ s' with held := setAt s.held parentFf none } : SiblingState ω φ ψ β).Linked := by
  obtain ⟨before, after, split⟩ := linked.split isChild
  have list := linked.list parentFf
  rw [split] at list
  have isLeft : (s.heap.fulls childFf).leftSibling = before.getLast? := list.neighbours.1
  have isRight : (s.heap.fulls childFf).rightSibling = after.head? := list.neighbours.2
  obtain ⟨notBefore, notAfter⟩ := not_mem_of_nodup_split list.nodup
  have isLast : (s.heap.fulls parentFf).rightmostChild = (before ++ childFf :: after).getLast? :=
    split ▸ linked.rightmost parentFf (linked.made isChild)
  have rest : (s.unfinished parentFf).erase childFf = before ++ after := by
    rw [split, List.erase_append_right _ notBefore, List.erase_cons_head]
  have lastHere : (s.heap.fulls childFf).rightSibling = none →
      (s.heap.fulls parentFf).rightmostChild = some childFf := by
    intro last
    rw [isRight, List.head?_eq_none_iff] at last
    simp [isLast, last]
  obtain ⟨fulls, unlinks, unlinked⟩ := unlinkChild_links
    (fun self => notBefore (List.mem_of_getLast? (isLeft.symm.trans self)))
    (fun self => notAfter (List.mem_of_head? (isRight.symm.trans self))) lastHere
  refine ⟨_, congrArg (Option.map _) unlinks, rfl, ?_⟩
  exact linked.unlinked split unlinked rfl rfl (by rw [rest])

/-- The lock of a frame taken or released. -/
theorem Linked.setHeld (linked : s.Linked) {new : Option (FrameHold ψ)}
    (serial : ∀ hold, new = some hold → hold.Serial ff (s.unfinished ff)) :
    ({ s with held := setAt s.held ff new } : SiblingState ω φ ψ β).Linked := by
  refine { linked with held := ?_ }
  intro p hold isHeld
  by_cases same : p = ff
  · subst same
    exact serial hold ((setAt_self s.held p new).symm.trans isHeld)
  · exact linked.held p hold ((setAt_other same s.held new).symm.trans isHeld)

/-- A frame without children given back to the allocator. -/
theorem Linked.destroy (linked : s.Linked) (isAlone : s.place ff = .alone)
    (noChild : s.rightmostChild ff = none) :
    ({ s with place := setAt s.place ff .free } : SiblingState ω φ ψ β).Linked := by
  have empty : s.unfinished ff = [] := by
    have rightmost := linked.rightmost ff (by simp [isAlone])
    rwa [noChild, eq_comm, List.getLast?_eq_none_iff] at rightmost
  have other : ∀ f, setAt s.place ff .free f ≠ .free → f ≠ ff ∧ s.place f ≠ .free := by
    intro f isMade
    have notHere : f ≠ ff := by
      rintro rfl
      simp at isMade
    rw [setAt_other notHere] at isMade
    exact ⟨notHere, isMade⟩
  have same : ∀ f, setAt s.place ff .free f ≠ .free → setAt s.place ff .free f = s.place f :=
    fun f isMade => setAt_other (other f isMade).1 _ _
  constructor
  · exact linked.list
  · exact fun p isMade => linked.rightmost p (other p isMade).2
  · intro p isFree
    by_cases here : p = ff
    · exact here ▸ empty
    · exact linked.free p ((setAt_other here _ _).symm.trans isFree)
  · intro p c
    show c ∈ s.unfinished p ↔ setAt s.place ff .free c = .childOf p
    by_cases here : c = ff
    · subst here
      rw [linked.child p c, isAlone, setAt_self]
      exact iff_of_false (by rintro ⟨⟩) (by rintro ⟨⟩)
    · rw [setAt_other here]
      exact linked.child p c
  · intro p c isChild
    refine linked.parent p c ((same c ?_).symm.trans isChild)
    exact fun isFree => by cases isFree.symm.trans isChild
  · intro c wasAlone
    refine linked.alone c ((same c ?_).symm.trans wasAlone)
    exact fun isFree => by cases isFree.symm.trans wasAlone
  · exact linked.held

variable [DecidableEq φ]

/-- One step keeps the lists in order. -/
theorem Linked.step (linked : s.Linked) {a : SiblingLabel ω φ ψ β} (taken : siblingStep s a = some s') :
    s'.Linked := by
  cases a with
  | makeFullFrame ff sf =>
      simp only [siblingStep, Option.ite_none_right_eq_some, Option.some.injEq] at taken
      obtain ⟨isFree, rfl⟩ := taken
      exact linked.makeAlone isFree sf
  | makeChild parentFf childFf childSf fiber =>
      simp only [siblingStep, Option.ite_none_right_eq_some, SiblingState.makeChild,
        Option.map_eq_some_iff] at taken
      obtain ⟨⟨isFree, isMade, unheld⟩, heap, made, rfl⟩ := taken
      have fresh : childFf ≠ parentFf := fun same => isMade (same ▸ isFree)
      have links := makeChild_links fresh made
      by_cases future : isFutureParent s.heap parentFf
      · rw [if_pos future] at links ⊢
        exact links ▸ linked.makeAlone isFree childSf
      · rw [if_neg future] at links ⊢
        exact linked.push isFree isMade unheld links rfl rfl rfl
  | finalizeChild childFf =>
      simp only [siblingStep] at taken
      cases names : s.parentOf childFf with
      | none => simp [names] at taken
      | some parentFf =>
          simp only [names, Option.ite_none_right_eq_some] at taken
          obtain ⟨unheld, unlinks⟩ := taken
          obtain ⟨next, isNext, sameHeld, nextLinked⟩ := linked.unlink (linked.parentOf names)
          obtain rfl : next = s' := Option.some.inj (isNext.symm.trans unlinks)
          rwa [← unheld, setAt_same, ← sameHeld] at nextLinked
  | lockParent childFf =>
      simp only [siblingStep] at taken
      cases names : s.parentOf childFf with
      | none => simp [names] at taken
      | some parentFf =>
          obtain ⟨before, after, split⟩ := linked.split (linked.parentOf names)
          simp only [names, linked.spawnReturn split, Option.ite_none_right_eq_some,
            Option.some.injEq] at taken
          obtain ⟨-, rfl⟩ := taken
          refine linked.setHeld ?_
          rintro hold isHold
          obtain rfl := Option.some.inj isHold
          exact ⟨before, after, split, rfl⟩
  | unlock ff =>
      simp only [siblingStep] at taken
      cases isHeld : s.held ff with
      | none => simp [isHeld] at taken
      | some hold =>
          simp only [isHeld, Option.some.injEq] at taken
          obtain rfl := taken
          exact linked.setHeld fun hold isHold => nomatch isHold
  | finishSpawnReturn parentFf =>
      simp only [siblingStep] at taken
      cases isHeld : s.held parentFf with
      | none => simp [isHeld] at taken
      | some hold =>
          cases hold with
          | syncing left => simp [isHeld] at taken
          | returning childFf left =>
              simp only [isHeld, Option.map_eq_some_iff] at taken
              obtain ⟨unlinkedState, unlinks, rfl⟩ := taken
              obtain ⟨before, after, split, -⟩ := linked.held parentFf _ isHeld
              have isChild : s.place childFf = .childOf parentFf :=
                (linked.child parentFf childFf).mp (by simp [split])
              obtain ⟨next, isNext, sameHeld, nextLinked⟩ := linked.unlink isChild
              obtain rfl : next = unlinkedState := Option.some.inj (isNext.symm.trans unlinks)
              rwa [← sameHeld] at nextLinked
  | lockAtSync ff =>
      simp only [siblingStep] at taken
      cases computed : computeLeftPtrsForSync s.heap.fulls ff with
      | none => simp [computed] at taken
      | some left =>
          simp only [computed, Option.ite_none_right_eq_some, Option.some.injEq] at taken
          obtain ⟨⟨isMade, -⟩, rfl⟩ := taken
          refine linked.setHeld ?_
          rintro hold isHold
          obtain rfl := Option.some.inj isHold
          exact Option.some.inj (computed.symm.trans (linked.sync isMade))
  | destroyFullFrame ff =>
      simp only [siblingStep, Option.ite_none_right_eq_some, Option.some.injEq] at taken
      obtain ⟨⟨isAlone, noChild, -⟩, rfl⟩ := taken
      exact linked.destroy isAlone noChild
  | storeFull ff record =>
      simp only [siblingStep, Option.some.injEq] at taken
      obtain rfl := taken
      refine linked.congr fun f isMade => ?_
      by_cases here : f = ff
      · subst here
        cases place : s.place f with
        | free => exact absurd place isMade
        | alone => simp [FrameRecord.withLinks]
        | childOf p => simp [FrameRecord.withLinks]
      · simp [setAt_other here]
  | storeFrame sf frame =>
      simp only [siblingStep, Option.some.injEq] at taken
      obtain rfl := taken
      exact linked.congr fun f _ => ⟨rfl, rfl, rfl, rfl⟩

/-- The lists are in order in every reachable state. -/
theorem reachable_linked {s : SiblingState ω φ ψ β} (reachable : (siblingMachine ω φ ψ β).Reachable s) :
    s.Linked := by
  refine @Machine.Reachable.invariant _ _ _ Linked ?_ ?_ _ reachable
  · exact fun _ initial => Initial.linked initial
  · exact fun _ _ _ _ linked taken => linked.step taken

/-- What the lists of the children of one frame are for. -/
structure OrderedAt (s : SiblingState ω φ ψ β) (p : ψ) : Prop where
  /-- A walk from `rightmost_child` meets the unfinished children in reverse order and no others. -/
  reach : ∀ xs, LeftWalk s.leftSibling (s.rightmostChild p) xs ↔ xs = (s.unfinished p).reverse
  unique : (s.unfinished p).Nodup
  child : ∀ c, c ∈ s.unfinished p ↔ s.place c = .childOf p
  left_inverse : ∀ c ∈ s.unfinished p, ∀ a,
    s.leftSibling c = some a ↔ a ∈ s.unfinished p ∧ s.rightSibling a = some c
  right_inverse : ∀ c ∈ s.unfinished p, ∀ a,
    s.rightSibling c = some a ↔ a ∈ s.unfinished p ∧ s.leftSibling a = some c
  empty : s.rightmostChild p = none ↔ s.unfinished p = []
  /-- The assertion in `unlink_child` holds for every child, which has no siblings afterwards. -/
  unlink : ∀ c ∈ s.unfinished p, ∃ fulls, unlinkChild s.heap.fulls p c = some fulls ∧
    (fulls c).leftSibling = none ∧ (fulls c).rightSibling = none
  /-- A child that returns deposits with the unfinished child before it. -/
  spawnReturn : ∀ before c after, s.unfinished p = before ++ c :: after →
    computeLeftPtrsForSpawnReturn s.heap.fulls c = some (depositPlace p before.getLast?)
  /-- The frame at a sync deposits with the last unfinished child. -/
  sync : computeLeftPtrsForSync s.heap.fulls p = some (depositPlace p (s.unfinished p).getLast?)
  /-- The fields in use under the frame's lock are still the ones to the left. -/
  held : ∀ hold, s.held p = some hold → hold.Serial p (s.unfinished p)

omit [DecidableEq φ] in
/-- The invariant says all of it. -/
theorem Linked.orderedAt (linked : s.Linked) (isMade : s.place ff ≠ .free) : s.OrderedAt ff where
  reach xs := by
    rw [linked.rightmost ff isMade]
    exact (linked.list ff).leftWalk_iff
  unique := (linked.list ff).nodup
  child := linked.child ff
  left_inverse c mem a := (linked.list ff).left_eq_some_iff mem
  right_inverse c mem a := (linked.list ff).right_eq_some_iff mem
  empty := by rw [linked.rightmost ff isMade, List.getLast?_eq_none_iff]
  unlink c mem := by
    obtain ⟨next, isNext, -, nextLinked⟩ := linked.unlink ((linked.child ff c).mp mem)
    obtain ⟨fulls, unlinks, rfl⟩ := Option.map_eq_some_iff.mp isNext
    exact ⟨fulls, unlinks, nextLinked.alone c (setAt_self s.place c _)⟩
  spawnReturn before c after split := linked.spawnReturn split
  sync := linked.sync isMade
  held := linked.held ff

end SiblingState

/-! ### Every run -/

/-- After every sequence of pushes and unlinks, under any interleaving of frames and parents, the sibling
lists are in the order of the pushes, an unlinked frame has no siblings, and the fields a frame's results are
deposited in belong to the unfinished child before it. -/
theorem sibling_lists_ordered [DecidableEq ψ] [DecidableEq φ] {s : SiblingState ω φ ψ β}
    (reachable : (siblingMachine ω φ ψ β).Reachable s) :
    (∀ p, s.place p ≠ .free → s.OrderedAt p) ∧
      ∀ c, s.place c = .alone → s.leftSibling c = none ∧ s.rightSibling c = none := by
  have linked := SiblingState.reachable_linked reachable
  exact ⟨fun p isMade => linked.orderedAt isMade, linked.alone⟩

/-- No full frames, and a stack frame that never started a future. -/
def noFullFrames : SiblingState Nat Nat Nat Nat where
  heap := {
    frames := fun _ => { flags := .entered true, callParent := none, worker := none, sp := 0, fp := 0 }
    fulls := fun _ => madeFullFrame none }
  place _ := .free
  held _ := none
  unfinished _ := []

/-- Three steals from frame 0; then the second child returns while the others run. -/
def middleReturns : List (SiblingLabel Nat Nat Nat Nat) :=
  [.makeFullFrame 0 (some 0), .makeChild 0 1 none .placeholder, .makeChild 0 2 none .placeholder,
    .makeChild 0 3 none .placeholder, .lockParent 2, .finishSpawnReturn 0]

/-- The lists after this run. -/
theorem sibling_lists_ordered_middle :
    let s := (siblingMachine Nat Nat Nat Nat).after noFullFrames middleReturns
    s.unfinished 0 = [1, 3] ∧ s.OrderedAt 0 ∧ s.leftSibling 2 = none ∧ s.rightSibling 2 = none := by
  have ordered := sibling_lists_ordered
    (.after (.start fun _ => ⟨rfl, rfl, rfl⟩) middleReturns : (siblingMachine Nat Nat Nat Nat).Reachable
      ((siblingMachine Nat Nat Nat Nat).after noFullFrames middleReturns))
  exact ⟨by decide, ordered.1 0 (by decide), ordered.2 2 (by decide)⟩

end CilkL
