/-
Module: CilkL.Proofs.CallStack
Layer: Proofs
Purpose: `unroll_call_stack` promotes the call chain of a stolen frame faithfully. The reversal is an
  induction from the youngest frame to the oldest, on the links that are still to be reversed; the promotion
  is one back, on the blocks that are still to be used, whose records are final once their child is made.
  That no older frame of a chain is a future parent is an invariant of the strand: between the mark of a
  future parent and its end it calls nothing but the helper, and the helper is in the deque's chain only
  with its parent published.
Imports: CilkL.Proofs.DequeContext, CilkL.Runtime.CallStack
Trusted boundary: none
Main exports: CallChain, reverseCalls_spec, promoteCalls_spec, ChainPromoted, CallsInv,
  unroll_call_stack_promotes
Open obligations: none
-/
import CilkL.Proofs.DequeContext
import CilkL.Runtime.CallStack

namespace CilkL

variable {ω φ ψ β : Type}

/-! ### Chains -/

/-- The frames from one up to the oldest that no DETACHED, STOLEN or LAST frame separates from it, youngest
first. -/
inductive CallChain (frames : φ → CallFrame ω φ) : List φ → Prop where
  | oldest {sf : φ} (stops : (frames sf).flags.masked = true ∨ (frames sf).callParent = none) :
      CallChain frames [sf]
  | call {sf parent : φ} {older : List φ} (goesOn : (frames sf).flags.masked = false)
      (link : (frames sf).callParent = some parent) (chain : CallChain frames (parent :: older)) :
      CallChain frames (sf :: parent :: older)

/-- Only the links of the chain and its flags that stop the walk matter. -/
theorem CallChain.congr {frames frames' : φ → CallFrame ω φ} {chain : List φ}
    (isChain : CallChain frames chain)
    (same : ∀ sf ∈ chain, (frames' sf).flags.masked = (frames sf).flags.masked ∧
      (frames' sf).callParent = (frames sf).callParent) : CallChain frames' chain := by
  induction isChain with
  | oldest stops =>
    obtain ⟨mask, link⟩ := same _ List.mem_cons_self
    exact .oldest (by rwa [mask, link])
  | call goesOn link _ ih =>
    obtain ⟨mask', link'⟩ := same _ List.mem_cons_self
    refine .call ?_ ?_ (ih fun sf member => same sf (List.mem_cons_of_mem _ member))
    · rwa [mask']
    · rwa [link']

/-- A frame has one chain. -/
theorem CallChain.unique {frames : φ → CallFrame ω φ} {sf : φ} {older older' : List φ}
    (chain : CallChain frames (sf :: older)) (chain' : CallChain frames (sf :: older')) :
    older = older' := by
  induction older generalizing sf older' with
  | nil =>
    cases chain' with
    | oldest _ => rfl
    | call goesOn link _ =>
      cases chain with
      | oldest stops => simp [goesOn, link] at stops
  | cons parent older ih =>
    cases chain with
    | call goesOn link rest =>
      cases chain' with
      | oldest stops => simp [goesOn, link] at stops
      | call _ link' rest' =>
        rw [link] at link'
        cases link'
        rw [ih rest rest']

/-- What is behind a frame of a chain is its chain. -/
theorem CallChain.suffix {frames : φ → CallFrame ω φ} {before : List φ} {sf : φ} {after : List φ}
    (chain : CallChain frames (before ++ sf :: after)) : CallChain frames (sf :: after) := by
  induction before with
  | nil => exact chain
  | cons first before ih =>
    refine ih ?_
    cases before with
    | nil =>
      cases chain with
      | call _ _ rest => exact rest
    | cons second before =>
      cases chain with
      | call _ _ rest => exact rest

/-- A chain ends, so no frame occurs in it twice. -/
theorem CallChain.nodup {frames : φ → CallFrame ω φ} {chain : List φ} (isChain : CallChain frames chain) :
    chain.Nodup := by
  induction isChain with
  | oldest _ => simp
  | @call sf parent older goesOn link rest ih =>
    refine List.nodup_cons.2 ⟨fun member => ?_, ih⟩
    obtain ⟨before, after, split⟩ := List.append_of_mem member
    have again : CallChain frames (sf :: after) := by
      rw [split] at rest
      exact rest.suffix
    have same := (CallChain.call goesOn link rest).unique again
    have length := congrArg List.length (same.symm.trans rfl)
    rw [split] at length
    simp only [List.length_append, List.length_cons] at length
    omega

/-! ### The reversal -/

/-- The frames of a list, oldest first, point to their successors; the last one points to `next`. -/
def LinkedDown (frames : φ → CallFrame ω φ) : List φ → Option φ → Prop
  | [], _ => True
  | [sf], next => (frames sf).callParent = next
  | sf :: sf' :: younger, next => (frames sf).callParent = some sf' ∧ LinkedDown frames (sf' :: younger) next

theorem LinkedDown.concat {frames : φ → CallFrame ω φ} {list : List φ} {sf : φ} {next : Option φ}
    (linked : LinkedDown frames list (some sf)) (last : (frames sf).callParent = next) :
    LinkedDown frames (list ++ [sf]) next := by
  induction list with
  | nil => exact last
  | cons first list ih =>
    cases list with
    | nil => exact ⟨linked, last⟩
    | cons second list => exact ⟨linked.1, ih linked.2⟩

variable [DecidableEq φ]

/-- The loop turns the links of the chain around and changes nothing else. -/
theorem reverseCalls_spec {heap : FrameHeap ω φ ψ β} {sf : φ} {older : List φ} (revSf : Option φ)
    (chain : CallChain heap.frames (sf :: older)) {fuel : Nat} (enough : older.length < fuel) :
    ∃ frames oldest, heap.reverseCalls fuel sf revSf = some (⟨frames, heap.fulls⟩, oldest) ∧
      (sf :: older).getLast? = some oldest ∧ LinkedDown frames (sf :: older).reverse revSf ∧
      (∀ x ∈ sf :: older, frames x = { heap.frames x with callParent := (frames x).callParent }) ∧
      ∀ x ∉ sf :: older, frames x = heap.frames x := by
  induction older generalizing heap sf revSf fuel with
  | nil =>
    obtain ⟨fuel, rfl⟩ : ∃ more, fuel = more + 1 := ⟨fuel - 1, by simp at enough; omega⟩
    have last : (if (heap.frames sf).flags.masked then none else (heap.frames sf).callParent) = none := by
      cases chain with
      | oldest stops => rcases stops with masked | none <;> simp [*]
    refine ⟨setAt heap.frames sf { heap.frames sf with callParent := revSf }, sf, ?_, rfl, ?_, ?_, ?_⟩
    · simp only [FrameHeap.reverseCalls, last]
    · simp [LinkedDown]
    · simp
    · intro x other
      exact setAt_other (by simpa using other) _ _
  | cons parent older ih =>
    obtain ⟨fuel, rfl⟩ : ∃ more, fuel = more + 1 := ⟨fuel - 1, by simp at enough; omega⟩
    have distinct := List.nodup_cons.1 chain.nodup
    have apart : ∀ x ∈ parent :: older, x ≠ sf := by
      rintro x member rfl
      exact distinct.1 member
    cases chain with
    | call goesOn link rest =>
      have next : (if (heap.frames sf).flags.masked then none else (heap.frames sf).callParent) =
          some parent := by
        simp [goesOn, link]
      have rest' : CallChain (heap.setFrame sf { heap.frames sf with callParent := revSf }).frames
          (parent :: older) :=
        rest.congr fun x member => by
          rw [show (heap.setFrame sf { heap.frames sf with callParent := revSf }).frames x = heap.frames x
            from setAt_other (apart x member) _ _]
          exact ⟨rfl, rfl⟩
      obtain ⟨frames, oldest, reversed, isLast, linked, inside, outside⟩ :=
        ih (some sf) rest' (by simp at enough; omega)
      have own := outside sf distinct.1
      simp only [setAt_self] at own
      refine ⟨frames, oldest, ?_, by simpa using isLast, ?_, ?_, ?_⟩
      · simp only [FrameHeap.reverseCalls, next]
        exact reversed
      · rw [List.reverse_cons]
        exact linked.concat (by rw [own])
      · intro x member
        rcases List.mem_cons.1 member with rfl | deeper
        · rw [own]
        · have kept := inside x deeper
          rwa [show (heap.setFrame sf { heap.frames sf with callParent := revSf }).frames x = heap.frames x
            from setAt_other (apart x deeper) _ _] at kept
      · intro x other
        simp only [List.mem_cons, not_or] at other
        rw [outside x (by simpa using other.2)]
        exact setAt_other other.1 _ _

/-! ### The promotion -/

variable [DecidableEq ψ]

/-- A frame that is made unrunnable. -/
def CallFrame.unrunnable (frame : CallFrame ω φ) (isLoot : Bool) : CallFrame ω φ where
  flags := { frame.flags with stolen := true, suspended := true }
  callParent := frame.callParent
  worker := none
  sp := if isLoot then 0 else frame.sp
  fp := frame.fp

/-- A frame that the loop has passed. -/
def CallFrame.cut (frame : CallFrame ω φ) : CallFrame ω φ :=
  { frame with callParent := none }

/-- A full frame that is made unrunnable with a stack frame. -/
def FrameRecord.suspended (record : FrameRecord ω φ ψ β) (frame : CallFrame ω φ) (sf : φ) (isLoot : Bool) :
    FrameRecord ω φ ψ β :=
  { record with
    callStack := some sf
    syncSp := if isLoot ∧ frame.flags.futureParent = false then frame.sp + record.syncSp else record.syncSp
    frameSize := if isLoot ∧ record.frameSize = 0 then frame.fp - frame.sp else record.frameSize }

/-- The full frame of a called frame, before it has a child. -/
def calledRecord (sf : φ) (parent : ψ) (left : Option ψ) (fiber : Option β) : FrameRecord ω φ ψ β :=
  { (madeFullFrame (some sf) : FrameRecord ω φ ψ β) with
    parent := some parent, leftSibling := left, isCallChild := true, fiberSelf := fiber }

/-- A full frame to which a called child was linked, `none` where none was. -/
def FrameRecord.withChild (record : FrameRecord ω φ ψ β) : Option ψ → FrameRecord ω φ ψ β
  | some child => { record with
      rightmostChild := some child, fiberSelf := none, joinCounter := record.joinCounter + 1 }
  | none => record

/-- Two records of a full frame differ in the right sibling at most. -/
def FrameRecord.SameButRight (record record' : FrameRecord ω φ ψ β) : Prop :=
  record = { record' with rightSibling := record.rightSibling }

theorem makeUnrunnable_frames (heap : FrameHeap ω φ ψ β) (ff : ψ) (sf : φ) (isLoot : Bool) :
    (heap.makeUnrunnable ff sf isLoot).frames =
      setAt heap.frames sf ((heap.frames sf).unrunnable isLoot) := by
  cases isLoot <;> cases future : (heap.frames sf).flags.futureParent <;>
    simp [FrameHeap.makeUnrunnable, FrameHeap.makeUnrunnableSysdep, FrameHeap.putStack, future,
      CallFrame.unrunnable, setAt_twice]

theorem makeUnrunnable_fulls (heap : FrameHeap ω φ ψ β) (ff : ψ) (sf : φ) (isLoot : Bool) :
    (heap.makeUnrunnable ff sf isLoot).fulls =
      setAt heap.fulls ff ((heap.fulls ff).suspended (heap.frames sf) sf isLoot) := by
  cases isLoot <;> cases future : (heap.frames sf).flags.futureParent <;>
    simp [FrameHeap.makeUnrunnable, FrameHeap.makeUnrunnableSysdep, FrameHeap.putStack, future,
      FrameRecord.suspended, setAt_twice]

omit [DecidableEq φ] in
theorem doubleLink_apply (fulls : ψ → FrameRecord ω φ ψ β) (left right : Option ψ) (y : ψ) :
    FrameHeap.doubleLink fulls left right y = { fulls y with
      rightSibling := if left = some y then right else (fulls y).rightSibling
      leftSibling := if right = some y then left else (fulls y).leftSibling } := by
  have store : ∀ (g : ψ → FrameRecord ω φ ψ β) a record, setAt g a record y =
      if y = a then record else g y := fun _ _ _ => rfl
  cases left <;> cases right <;> simp only [FrameHeap.doubleLink, store, Option.some.injEq, reduceCtorEq,
    if_false] <;> apply FrameRecord.ext <;> grind -linarith

omit [DecidableEq φ] in
theorem pushChild_apply (fulls : ψ → FrameRecord ω φ ψ β) (ff childFf y : ψ) :
    FrameHeap.pushChild fulls ff childFf y = { fulls y with
      rightmostChild := if y = ff then some childFf else (fulls y).rightmostChild
      rightSibling := if y = childFf then none
        else if (fulls ff).rightmostChild = some y then some childFf else (fulls y).rightSibling
      leftSibling := if y = childFf then (fulls ff).rightmostChild else (fulls y).leftSibling } := by
  simp only [FrameHeap.pushChild, setAt, doubleLink_apply]
  apply FrameRecord.ext <;> grind -linarith

omit [DecidableEq φ] in
theorem linkChild_apply (fulls : ψ → FrameRecord ω φ ψ β) {ff childFf : ψ} (fresh : childFf ≠ ff) (y : ψ) :
    FrameHeap.linkChild fulls ff childFf .null y = { fulls y with
      parent := if y = childFf then some ff else (fulls y).parent
      rightmostChild := if y = ff then some childFf else (fulls y).rightmostChild
      rightSibling := if y = childFf then none
        else if (fulls ff).rightmostChild = some y then some childFf else (fulls y).rightSibling
      leftSibling := if y = childFf then (fulls ff).rightmostChild else (fulls y).leftSibling
      isCallChild := if y = childFf then true else (fulls y).isCallChild
      fiberSelf := if y = ff then none else if y = childFf then (fulls ff).fiberSelf else (fulls y).fiberSelf
      syncMaster := if y = childFf then none else (fulls y).syncMaster
      joinCounter := if y = ff then (fulls y).joinCounter + 1 else (fulls y).joinCounter } := by
  simp only [FrameHeap.linkChild, pushChild_apply, setAt]
  apply FrameRecord.ext <;> grind -linarith

omit [DecidableEq φ] in
/-- `make_child` for a called child, where the parent is no future parent. -/
theorem makeChild_spec {heap : FrameHeap ω φ ψ β} {ff childFf : ψ} {sf : φ} (t : φ)
    (fresh : childFf ≠ ff) (calls : (heap.fulls ff).callStack = some sf)
    (plain : (heap.frames sf).flags.futureParent = false) :
    ∃ fulls, heap.makeChild ff childFf (some t) .null = some ⟨heap.frames, fulls⟩ ∧
      fulls childFf = calledRecord t ff (heap.fulls ff).rightmostChild (heap.fulls ff).fiberSelf ∧
      (fulls ff).SameButRight ((heap.fulls ff).withChild (some childFf)) ∧
      (∀ y, y ≠ childFf → y ≠ ff → (fulls y).SameButRight (heap.fulls y)) ∧
      ∀ y, y ≠ childFf → (fulls y).rightSibling =
        if (heap.fulls ff).rightmostChild = some y then some childFf else (heap.fulls y).rightSibling := by
  have fresh' : ff ≠ childFf := fresh.symm
  refine ⟨FrameHeap.linkChild (setAt heap.fulls childFf (madeFullFrame (some t))) ff childFf .null,
    ?_, ?_, ?_, ?_, ?_⟩
  · simp only [FrameHeap.makeChild, setAt_other fresh', calls, plain, Bool.false_eq_true, if_false]
  · rw [linkChild_apply _ fresh]
    simp [setAt_other fresh', fresh, calledRecord, madeFullFrame]
  · rw [linkChild_apply _ fresh]
    simp [setAt_other fresh', fresh', FrameRecord.SameButRight, FrameRecord.withChild]
  · intro y notChild notParent
    rw [linkChild_apply _ fresh]
    simp [setAt_other notChild, notChild, notParent, FrameRecord.SameButRight]
  · intro y notChild
    rw [linkChild_apply _ fresh]
    simp [setAt_other notChild, setAt_other fresh', notChild]

omit [DecidableEq φ] [DecidableEq ψ] in
theorem FrameRecord.SameButRight.trans {first second third : FrameRecord ω φ ψ β}
    (same : first.SameButRight second) (same' : second.SameButRight third) : first.SameButRight third := by
  rw [FrameRecord.SameButRight] at same' ⊢
  rw [same, same']

omit [DecidableEq φ] in
theorem LinkedDown.congr {frames frames' : φ → CallFrame ω φ} {list : List φ} {next : Option φ}
    (linked : LinkedDown frames list next)
    (same : ∀ x ∈ list, (frames' x).callParent = (frames x).callParent) : LinkedDown frames' list next := by
  induction list with
  | nil => trivial
  | cons first list ih =>
    cases list with
    | nil => exact (same first List.mem_cons_self).trans linked
    | cons second list =>
      exact ⟨(same first List.mem_cons_self).trans linked.1,
        ih linked.2 fun x member => same x (List.mem_cons_of_mem _ member)⟩

/-- What one pass of the loop does, from the frame `sf` with the full frame `ff` to its child `t` with the
new full frame `childFf`. -/
structure Pass (heap passed : FrameHeap ω φ ψ β) (isLoot : Bool) (ff childFf : ψ) (sf t : φ) : Prop where
  parent : passed.frames sf = (heap.frames sf).cut
  child : passed.frames t = (heap.frames t).unrunnable isLoot
  others : ∀ x, x ≠ sf → x ≠ t → passed.frames x = heap.frames x
  made : passed.fulls childFf = (calledRecord t ff (heap.fulls ff).rightmostChild
    (heap.fulls ff).fiberSelf).suspended (heap.frames t) t isLoot
  head : (passed.fulls ff).SameButRight ((heap.fulls ff).withChild (some childFf))
  kept : ∀ y, y ≠ childFf → y ≠ ff → (passed.fulls y).SameButRight (heap.fulls y)
  right : ∀ y, y ≠ childFf → (passed.fulls y).rightSibling =
    if (heap.fulls ff).rightmostChild = some y then some childFf else (heap.fulls y).rightSibling

theorem promote_pass {heap : FrameHeap ω φ ψ β} {ff childFf : ψ} {sf t : φ} (isLoot : Bool)
    (fresh : childFf ≠ ff) (apart : t ≠ sf) (calls : (heap.fulls ff).callStack = some sf)
    (plain : (heap.frames sf).flags.futureParent = false) :
    ∃ made, (heap.advanceFrame sf).1.makeChild ff childFf (some t) .null = some made ∧
      Pass heap (made.makeUnrunnable childFf t isLoot) isLoot ff childFf sf t := by
  have advanced : ∀ x, x ≠ sf → (heap.advanceFrame sf).1.frames x = heap.frames x := fun x other =>
    setAt_other other _ _
  have own : (heap.advanceFrame sf).1.frames sf = (heap.frames sf).cut := setAt_self _ _ _
  have calls' : ((heap.advanceFrame sf).1.fulls ff).callStack = some sf := calls
  have plain' : ((heap.advanceFrame sf).1.frames sf).flags.futureParent = false := by
    rw [own]
    exact plain
  obtain ⟨fulls, made, childRecord, head, kept, right⟩ := makeChild_spec t fresh calls' plain'
  refine ⟨_, made, ?_, ?_, ?_, ?_, ?_, ?_, ?_⟩
  · rw [makeUnrunnable_frames, setAt_other apart.symm, own]
  · rw [makeUnrunnable_frames, setAt_self, advanced t apart]
  · intro x notSf notChild
    rw [makeUnrunnable_frames, setAt_other notChild, advanced x notSf]
  · rw [makeUnrunnable_fulls, setAt_self, advanced t apart]
    exact congrArg (FrameRecord.suspended · _ _ _) childRecord
  · rw [makeUnrunnable_fulls, setAt_other fresh.symm]
    exact head
  · intro y notChild notParent
    rw [makeUnrunnable_fulls, setAt_other notChild]
    exact kept y notChild notParent
  · intro y notChild
    rw [makeUnrunnable_fulls, setAt_other notChild]
    exact right y notChild

/-- What the loop that promotes the frames after `sf` does, where `ff` is the full frame of `sf`. -/
structure Promotion (heap heap' : FrameHeap ω φ ψ β) (lootSf : φ) (ff : ψ) (sf : φ) (rest : List φ)
    (fresh : List ψ) (youngest : ψ) : Prop where
  last : (ff :: fresh).getLast? = some youngest
  own : heap'.frames sf = (heap.frames sf).cut
  called : ∀ x ∈ rest, heap'.frames x = ((heap.frames x).unrunnable (x = lootSf)).cut
  others : ∀ x ∉ sf :: rest, heap'.frames x = heap.frames x
  head : (heap'.fulls ff).SameButRight ((heap.fulls ff).withChild fresh.head?)
  made : ∀ (i : Nat) (t : φ) (x parent : ψ), rest[i]? = some t → fresh[i]? = some x →
    (ff :: fresh)[i]? = some parent → heap'.fulls x =
      ((calledRecord t parent (if i = 0 then (heap.fulls ff).rightmostChild else none)
        (heap.fulls ff).fiberSelf).suspended (heap.frames t) t (t = lootSf)).withChild fresh[i + 1]?
  kept : ∀ y ∉ ff :: fresh, (heap'.fulls y).SameButRight (heap.fulls y)
  right : ∀ y ∉ fresh, (heap'.fulls y).rightSibling =
    if (heap.fulls ff).rightmostChild = some y ∧ fresh ≠ [] then fresh.head?
    else (heap.fulls y).rightSibling

/-- One pass before the promotion of the rest. -/
theorem Pass.cons {heap passed heap' : FrameHeap ω φ ψ β} {lootSf : φ} {ff childFf : ψ} {sf t : φ}
    {rest : List φ} {fresh : List ψ} {youngest : ψ}
    (pass : Pass heap passed (t = lootSf) ff childFf sf t)
    (promotion : Promotion passed heap' lootSf childFf t rest fresh youngest)
    (nodup : (sf :: t :: rest).Nodup) (blocks : (ff :: childFf :: fresh).Nodup) :
    Promotion heap heap' lootSf ff sf (t :: rest) (childFf :: fresh) youngest := by
  obtain ⟨sfApart, restNodup⟩ := List.nodup_cons.1 nodup
  obtain ⟨ffApart, freshNodup⟩ := List.nodup_cons.1 blocks
  have notSf : ∀ x ∈ t :: rest, x ≠ sf := by
    rintro x member rfl
    exact sfApart member
  have notT : ∀ x ∈ rest, x ≠ t := by
    rintro x member rfl
    exact (List.nodup_cons.1 restNodup).1 member
  have untouched : ∀ x ∈ rest, passed.frames x = heap.frames x := fun x member =>
    pass.others x (notSf x (List.mem_cons_of_mem _ member)) (notT x member)
  have notChild : ff ≠ childFf := by
    rintro rfl
    exact ffApart List.mem_cons_self
  have noChild : (passed.fulls childFf).rightmostChild = none := by
    rw [pass.made]
    rfl
  refine ⟨?_, ?_, ?_, ?_, ?_, ?_, ?_, ?_⟩
  · rw [List.getLast?_cons_cons]
    exact promotion.last
  · rw [promotion.others sf sfApart, pass.parent]
  · intro x member
    rcases List.mem_cons.1 member with rfl | deeper
    · rw [promotion.own, pass.child]
    · rw [promotion.called x deeper, untouched x deeper]
  · intro x other
    simp only [List.mem_cons, not_or] at other
    rw [promotion.others x (by simpa using other.2), pass.others x other.1 other.2.1]
  · exact (promotion.kept ff (by simpa using ffApart)).trans pass.head
  · intro i t' x parent at_i block above
    cases i with
    | zero =>
      obtain rfl := Option.some.inj at_i
      obtain rfl := Option.some.inj block
      obtain rfl := Option.some.inj above
      have head := promotion.head
      have right := promotion.right childFf (List.nodup_cons.1 freshNodup).1
      rw [noChild] at right
      simp only [reduceCtorEq, false_and, if_false] at right
      rw [FrameRecord.SameButRight, right, pass.made] at head
      rw [head]
      cases fresh <;> rfl
    | succ i =>
      have member := List.mem_of_getElem? (by simpa using at_i : rest[i]? = some t')
      have made := promotion.made i t' x parent (by simpa using at_i) (by simpa using block)
        (by simpa using above)
      rw [made, untouched t' member, noChild, pass.made]
      simp [FrameRecord.suspended, calledRecord]
  · intro y other
    simp only [List.mem_cons, not_or] at other
    exact (promotion.kept y (by simpa using other.2)).trans (pass.kept y other.2.1 other.1)
  · intro y other
    simp only [List.mem_cons, not_or] at other
    rw [promotion.right y other.2, noChild, pass.right y other.1]
    simp

/-- The loop promotes the frames after `sf` with the blocks in their order. -/
theorem promoteCalls_spec {lootSf : φ} {heap : FrameHeap ω φ ψ β} {ff : ψ} {sf : φ} {rest : List φ}
    {fresh : List ψ} (down : LinkedDown heap.frames (sf :: rest) none) (nodup : (sf :: rest).Nodup)
    (blocks : (ff :: fresh).Nodup) (count : fresh.length = rest.length)
    (calls : (heap.fulls ff).callStack = some sf)
    (plain : ∀ x ∈ (sf :: rest).dropLast, (heap.frames x).flags.futureParent = false) :
    ∃ heap' youngest, FrameHeap.promoteCalls lootSf fresh heap ff sf = some (heap', youngest) ∧
      Promotion heap heap' lootSf ff sf rest fresh youngest := by
  induction fresh generalizing heap ff sf rest with
  | nil =>
    obtain rfl := List.length_eq_zero_iff.1 count.symm
    have noChild : (heap.frames sf).callParent = none := down
    refine ⟨(heap.advanceFrame sf).1, ff, ?_, rfl, ?_, ?_, ?_, ?_, ?_, ?_, ?_⟩
    · simp only [FrameHeap.promoteCalls, FrameHeap.advanceFrame, noChild]
    · simp [FrameHeap.advanceFrame, CallFrame.cut]
    · simp
    · intro x other
      exact setAt_other (by simpa using other) _ _
    · rfl
    · simp
    · intro y _
      rfl
    · simp [FrameHeap.advanceFrame]
  | cons childFf fresh ih =>
    cases rest with
    | nil => simp at count
    | cons t rest =>
      have child : (heap.advanceFrame sf).2 = some t := down.1
      have apart : ∀ x ∈ t :: rest, x ≠ sf := by
        rintro x member rfl
        exact (List.nodup_cons.1 nodup).1 member
      have childApart : childFf ≠ ff := by
        rintro rfl
        exact (List.nodup_cons.1 blocks).1 List.mem_cons_self
      obtain ⟨made, isMade, pass⟩ := promote_pass (t = lootSf) childApart (apart t List.mem_cons_self)
        calls (plain sf (by simp))
      have same : ∀ x ∈ t :: rest,
          ((made.makeUnrunnable childFf t (t = lootSf)).frames x).callParent = (heap.frames x).callParent ∧
            ((made.makeUnrunnable childFf t (t = lootSf)).frames x).flags.futureParent =
              (heap.frames x).flags.futureParent := by
        intro x member
        by_cases isChild : x = t
        · rw [isChild, pass.child]
          exact ⟨rfl, rfl⟩
        · rw [pass.others x (apart x member) isChild]
          exact ⟨rfl, rfl⟩
      have calls' : ((made.makeUnrunnable childFf t (t = lootSf)).fulls childFf).callStack = some t := by
        rw [pass.made]
        rfl
      have plain' : ∀ x ∈ (t :: rest).dropLast,
          ((made.makeUnrunnable childFf t (t = lootSf)).frames x).flags.futureParent = false := by
        intro x member
        rw [(same x (List.dropLast_subset _ member)).2]
        exact plain x (by simp [member])
      obtain ⟨heap', youngest, promoted, promotion⟩ := ih
        (down.2.congr fun x member => (same x member).1) (List.nodup_cons.1 nodup).2
        (List.nodup_cons.1 blocks).2 (by simpa using count) calls' plain'
      refine ⟨heap', youngest, ?_, pass.cons promotion nodup blocks⟩
      rw [FrameHeap.promoteCalls, show heap.advanceFrame sf = ((heap.advanceFrame sf).1, some t) from
        Prod.ext rfl child]
      simp only [isMade]
      exact promoted

/-- The promotion of a chain with the youngest frame `loot` and the older ones behind it, youngest first,
where `ff` is the given full frame and `fresh` are the new ones, oldest first. -/
structure ChainPromoted (heap heap' : FrameHeap ω φ ψ β) (ff : ψ) (loot : φ) (older : List φ)
    (fresh : List ψ) (youngest : ψ) : Prop where
  returned : (ff :: fresh).getLast? = some youngest
  calls : ∀ (i : Nat) (sf : φ) (x : ψ), (loot :: older).reverse[i]? = some sf →
    (ff :: fresh)[i]? = some x → (heap'.fulls x).callStack = some sf
  linked : ∀ (i : Nat) (x y : ψ), (ff :: fresh)[i]? = some x → (ff :: fresh)[i + 1]? = some y →
    (heap'.fulls y).parent = some x ∧ (heap'.fulls x).rightmostChild = some y ∧
      (heap'.fulls y).isCallChild = true
  /-- The new full frames are only children; the first of them is right of the children there were. -/
  siblings : ∀ (i : Nat) (y : ψ), fresh[i]? = some y → (heap'.fulls y).rightSibling = none ∧
    (heap'.fulls y).leftSibling = if i = 0 then (heap.fulls ff).rightmostChild else none
  right : ∀ y ∉ fresh, (heap'.fulls y).rightSibling =
    if (heap.fulls ff).rightmostChild = some y ∧ fresh ≠ [] then fresh.head?
    else (heap.fulls y).rightSibling
  frames : ∀ sf ∈ loot :: older, (heap'.frames sf).callParent = none ∧
    (heap'.frames sf).flags.stolen = true ∧ (heap'.frames sf).flags.suspended = true ∧
      (heap'.frames sf).worker = none
  others : ∀ sf ∉ loot :: older, heap'.frames sf = heap.frames sf
  position : ∀ x ∈ ff :: fresh, (heap'.fulls x).syncSp = (if x = ff then (heap.fulls ff).syncSp else 0) +
    if x = youngest ∧ (heap.frames loot).flags.futureParent = false then (heap.frames loot).sp else 0
  fiber : ∀ x ∈ ff :: fresh, (heap'.fulls x).fiberSelf =
    if x = youngest then (heap.fulls ff).fiberSelf else none
  joins : ∀ x ∈ ff :: fresh, (heap'.fulls x).joinCounter =
    (if x = ff then (heap.fulls ff).joinCounter else 0) + if x = youngest then 0 else 1
  kept : ∀ y ∉ ff :: fresh, (heap'.fulls y).SameButRight (heap.fulls y)

/-- The last element of a list without repetitions is the one without a successor. -/
theorem eq_getLast?_iff {α : Type} {l : List α} (nodup : l.Nodup) {i : Nat} {x last : α}
    (at_i : l[i]? = some x) (isLast : l.getLast? = some last) : x = last ↔ l[i + 1]? = none := by
  rw [List.getLast?_eq_getElem?] at isLast
  have inside := (List.getElem?_eq_some_iff.1 at_i).1
  rw [List.getElem?_eq_none_iff]
  constructor
  · rintro rfl
    have := (List.getElem?_inj inside nodup).1 (at_i.trans isLast.symm)
    omega
  · intro beyond
    rw [show l.length - 1 = i by omega, at_i] at isLast
    exact Option.some.inj isLast

/-- Two frames agree in what a promotion reads of them. -/
def CallFrame.Alike (frame frame' : CallFrame ω φ) : Prop :=
  frame.flags.futureParent = frame'.flags.futureParent ∧ frame.sp = frame'.sp ∧ frame.fp = frame'.fp

/-- The records after the promotion, in one formula: what was there before, the stack frame, and the child
if there is one. -/
theorem Promotion.record {heap given heap' : FrameHeap ω φ ψ β} {loot oldest : φ} {ff youngest : ψ}
    {rest : List φ} {fresh : List ψ} (promotion : Promotion given heap' loot ff oldest rest fresh youngest)
    (alike : ∀ x ∈ rest, (given.frames x).Alike (heap.frames x))
    (first : given.fulls ff = (heap.fulls ff).suspended (heap.frames oldest) oldest (oldest = loot))
    {i : Nat} {sf : φ} {x : ψ} (at_i : (oldest :: rest)[i]? = some sf) (block : (ff :: fresh)[i]? = some x) :
    ∃ before : FrameRecord ω φ ψ β,
      (heap'.fulls x).SameButRight
        ((before.suspended (heap.frames sf) sf (sf = loot)).withChild (ff :: fresh)[i + 1]?) ∧
      (i = 0 → before = heap.fulls ff) ∧
      ∀ j, i = j + 1 → ∃ parent, (ff :: fresh)[j]? = some parent ∧
        before = calledRecord sf parent (if j = 0 then (heap.fulls ff).rightmostChild else none)
          (heap.fulls ff).fiberSelf ∧ (heap'.fulls x).rightSibling = none := by
  cases i with
  | zero =>
    obtain rfl := Option.some.inj at_i
    obtain rfl := Option.some.inj block
    refine ⟨heap.fulls ff, ?_, fun _ => rfl, by simp⟩
    have head := promotion.head
    rw [first] at head
    rw [List.getElem?_cons_succ, ← List.head?_eq_getElem?]
    exact head
  | succ i =>
    obtain ⟨parent, above⟩ : ∃ parent, (ff :: fresh)[i]? = some parent := by
      have inside := (List.getElem?_eq_some_iff.1 block).1
      exact ⟨_, List.getElem?_eq_getElem (by omega)⟩
    have at_i : rest[i]? = some sf := by simpa using at_i
    have block : fresh[i]? = some x := by simpa using block
    have made := promotion.made i sf x parent at_i block above
    obtain ⟨future, sp, fp⟩ := alike sf (List.mem_of_getElem? at_i)
    have same : ∀ record : FrameRecord ω φ ψ β, record.suspended (given.frames sf) sf (sf = loot) =
        record.suspended (heap.frames sf) sf (sf = loot) := by
      intro record
      simp only [FrameRecord.suspended, future, sp, fp]
    rw [same, first] at made
    refine ⟨calledRecord sf parent (if i = 0 then (heap.fulls ff).rightmostChild else none)
      (heap.fulls ff).fiberSelf, ?_, by simp, ?_⟩
    · rw [List.getElem?_cons_succ, made]
      rfl
    · intro j isNext
      obtain rfl : i = j := by omega
      refine ⟨parent, above, rfl, ?_⟩
      rw [made]
      cases fresh[i + 1]? <;> rfl

/-- The frames of the chain after the promotion. -/
theorem Promotion.frame_cut {given heap' : FrameHeap ω φ ψ β} {loot oldest : φ} {ff youngest : ψ}
    {rest : List φ} {fresh : List ψ} (promotion : Promotion given heap' loot ff oldest rest fresh youngest)
    (first : ∃ frame : CallFrame ω φ, ∃ isLoot, given.frames oldest = frame.unrunnable isLoot) {sf : φ}
    (member : sf ∈ oldest :: rest) :
    (heap'.frames sf).callParent = none ∧ (heap'.frames sf).flags.stolen = true ∧
      (heap'.frames sf).flags.suspended = true ∧ (heap'.frames sf).worker = none := by
  rcases List.mem_cons.1 member with rfl | deeper
  · obtain ⟨frame, isLoot, suspended⟩ := first
    rw [promotion.own, suspended]
    exact ⟨rfl, rfl, rfl, rfl⟩
  · rw [promotion.called sf deeper]
    exact ⟨rfl, rfl, rfl, rfl⟩

/-- The whole chain after the promotion. -/
theorem Promotion.chain {heap given heap' : FrameHeap ω φ ψ β} {loot oldest : φ} {ff youngest : ψ}
    {older rest : List φ} {fresh : List ψ}
    (promotion : Promotion given heap' loot ff oldest rest fresh youngest)
    (reversed : (loot :: older).reverse = oldest :: rest) (nodup : (loot :: older).Nodup)
    (blocks : (ff :: fresh).Nodup) (count : fresh.length = rest.length)
    (alike : ∀ x ∈ rest, (given.frames x).Alike (heap.frames x))
    (first : given.fulls ff = (heap.fulls ff).suspended (heap.frames oldest) oldest (oldest = loot))
    (firstFrame : ∃ frame : CallFrame ω φ, ∃ isLoot, given.frames oldest = frame.unrunnable isLoot)
    (otherFrames : ∀ x ∉ loot :: older, given.frames x = heap.frames x)
    (otherFulls : ∀ y, y ≠ ff → given.fulls y = heap.fulls y) :
    ChainPromoted heap heap' ff loot older fresh youngest := by
  have members : ∀ x, x ∈ oldest :: rest ↔ x ∈ loot :: older := fun x => by
    rw [← reversed, List.mem_reverse]
  have isLast : (oldest :: rest).getLast? = some loot := by
    rw [← reversed]
    simp
  have distinct : (oldest :: rest).Nodup := by
    rw [← reversed]
    exact List.nodup_reverse.2 nodup
  -- the frame of a block, and whether it is the youngest
  have frameOf : ∀ {i : Nat} {x : ψ}, (ff :: fresh)[i]? = some x → ∃ sf, (oldest :: rest)[i]? = some sf ∧
      (sf = loot ↔ x = youngest) ∧ (x = youngest ↔ (ff :: fresh)[i + 1]? = none) := by
    intro i x block
    have inside := (List.getElem?_eq_some_iff.1 block).1
    have at_i := List.getElem?_eq_getElem (show i < (oldest :: rest).length by simp at inside ⊢; omega)
    refine ⟨_, at_i, ?_, eq_getLast?_iff blocks block promotion.last⟩
    rw [eq_getLast?_iff distinct at_i isLast, eq_getLast?_iff blocks block promotion.last,
      List.getElem?_eq_none_iff, List.getElem?_eq_none_iff]
    simp [count]
  have given_right : (given.fulls ff).rightmostChild = (heap.fulls ff).rightmostChild := by
    rw [first]
    rfl
  -- the counters of a block
  have counters : ∀ x ∈ ff :: fresh,
      (heap'.fulls x).syncSp = (if x = ff then (heap.fulls ff).syncSp else 0) +
        (if x = youngest ∧ (heap.frames loot).flags.futureParent = false then (heap.frames loot).sp else 0) ∧
      (heap'.fulls x).fiberSelf = (if x = youngest then (heap.fulls ff).fiberSelf else none) ∧
      (heap'.fulls x).joinCounter =
        (if x = ff then (heap.fulls ff).joinCounter else 0) + (if x = youngest then 0 else 1) := by
    intro x member
    obtain ⟨i, block⟩ := List.getElem?_of_mem member
    obtain ⟨sf, at_i, isLoot, isYoungest⟩ := frameOf block
    obtain ⟨before, record, zero, succ⟩ := promotion.record alike first at_i block
    -- what was there before
    have base : before.syncSp = (if x = ff then (heap.fulls ff).syncSp else 0) ∧
        before.fiberSelf = (heap.fulls ff).fiberSelf ∧
        before.joinCounter = if x = ff then (heap.fulls ff).joinCounter else 0 := by
      cases i with
      | zero =>
        obtain rfl := Option.some.inj block
        simp [zero rfl]
      | succ i =>
        obtain ⟨parent, -, called, -⟩ := succ i rfl
        have other : x ≠ ff := by
          rintro rfl
          exact (List.nodup_cons.1 blocks).1 (List.mem_of_getElem? (by simpa using block : fresh[i]? = some x))
        rw [called]
        simp [other, calledRecord, madeFullFrame]
    obtain ⟨syncSp, fiberSelf, joinCounter⟩ := base
    rw [FrameRecord.SameButRight] at record
    rw [record]
    by_cases youngestBlock : x = youngest
    · rw [isYoungest.1 youngestBlock]
      have loots := isLoot.2 youngestBlock
      refine ⟨?_, ?_, ?_⟩
      · simp only [FrameRecord.withChild, FrameRecord.suspended, loots, youngestBlock, decide_true, true_and,
          syncSp]
        split <;> omega
      · simp [FrameRecord.withChild, FrameRecord.suspended, youngestBlock, fiberSelf]
      · simp [FrameRecord.withChild, FrameRecord.suspended, youngestBlock, joinCounter]
    · obtain ⟨child, next⟩ : ∃ child, (ff :: fresh)[i + 1]? = some child :=
        Option.ne_none_iff_exists'.1 fun none => youngestBlock (isYoungest.2 none)
      have notLoot : ¬ sf = loot := fun loots => youngestBlock (isLoot.1 loots)
      rw [next]
      simp [FrameRecord.withChild, FrameRecord.suspended, notLoot, youngestBlock, syncSp, joinCounter]
  refine ⟨promotion.last, ?_, ?_, ?_, ?_, ?_, ?_, fun x member => (counters x member).1,
    fun x member => (counters x member).2.1, fun x member => (counters x member).2.2, ?_⟩
  · intro i sf x at_i block
    rw [reversed] at at_i
    obtain ⟨before, record, -, -⟩ := promotion.record alike first at_i block
    rw [FrameRecord.SameButRight] at record
    rw [record]
    cases (ff :: fresh)[i + 1]? <;> rfl
  · intro i x y block next
    obtain ⟨sf, at_i, -, -⟩ := frameOf block
    obtain ⟨sf', at_next, -, -⟩ := frameOf next
    obtain ⟨before, record, -, -⟩ := promotion.record alike first at_i block
    obtain ⟨before', record', -, succ⟩ := promotion.record alike first at_next next
    obtain ⟨parent, above, called, -⟩ := succ i rfl
    rw [block] at above
    obtain rfl := Option.some.inj above
    rw [FrameRecord.SameButRight] at record record'
    rw [record, record', next, called]
    refine ⟨?_, rfl, ?_⟩ <;> cases (ff :: fresh)[i + 1 + 1]? <;> rfl
  · intro i y block
    have next : (ff :: fresh)[i + 1]? = some y := by simpa using block
    obtain ⟨sf, at_next, -, -⟩ := frameOf next
    obtain ⟨before, record, -, succ⟩ := promotion.record alike first at_next next
    obtain ⟨parent, -, called, right⟩ := succ i rfl
    refine ⟨right, ?_⟩
    rw [FrameRecord.SameButRight] at record
    rw [record, called]
    cases (ff :: fresh)[i + 1 + 1]? <;> rfl
  · intro y other
    rw [promotion.right y other, given_right]
    by_cases isFf : y = ff
    · rw [isFf, first]
      rfl
    · rw [otherFulls y isFf]
  · intro sf member
    exact promotion.frame_cut firstFrame ((members sf).2 member)
  · intro sf other
    rw [promotion.others sf fun member => other ((members sf).1 member), otherFrames sf other]
  · intro y other
    have kept := promotion.kept y other
    rwa [otherFulls y fun isFf => other (isFf ▸ List.mem_cons_self)] at kept

/-- `unroll_call_stack` promotes a chain in which no older frame is a future parent. -/
theorem unrollCallStack_spec [DecidableEq ω] {heap : FrameHeap ω φ ψ β} {loot : φ} {older : List φ}
    {ff : ψ} {fresh : List ψ} (w : ω) (frameFf : Option ψ) (chain : CallChain heap.frames (loot :: older))
    {fuel : Nat} (enough : older.length < fuel) (blocks : (ff :: fresh).Nodup)
    (count : fresh.length = older.length)
    (plain : ∀ x ∈ older, (heap.frames x).flags.futureParent = false) :
    ∃ heap' youngest, heap.unrollCallStack fuel w frameFf ff loot fresh = some (heap', youngest) ∧
      ChainPromoted heap heap' ff loot older fresh youngest := by
  -- the frame is marked as unsynched, or not
  obtain ⟨marked, isMarked⟩ : ∃ marked, marked =
      if ((heap.frames loot).worker ≠ some w ∨ frameFf ≠ some ff) ∧
          (heap.frames loot).flags.futureParent = false then
        heap.setFrame loot
          { heap.frames loot with flags := { (heap.frames loot).flags with unsynched := true } }
      else heap := ⟨_, rfl⟩
  have fulls : marked.fulls = heap.fulls := by
    rw [isMarked]
    split <;> rfl
  have markedFrame : ∀ x, (marked.frames x).flags.masked = (heap.frames x).flags.masked ∧
      (marked.frames x).callParent = (heap.frames x).callParent ∧
        (marked.frames x).Alike (heap.frames x) := by
    intro x
    rw [isMarked]
    split
    · by_cases isLoot : x = loot
      · subst isLoot
        rw [show (heap.setFrame x _).frames x = _ from setAt_self _ _ _]
        exact ⟨rfl, rfl, rfl, rfl, rfl⟩
      · rw [show (heap.setFrame loot _).frames x = _ from setAt_other isLoot _ _]
        exact ⟨rfl, rfl, rfl, rfl, rfl⟩
    · exact ⟨rfl, rfl, rfl, rfl, rfl⟩
  have markedOther : ∀ x, x ≠ loot → marked.frames x = heap.frames x := by
    intro x other
    rw [isMarked]
    split
    · exact setAt_other other _ _
    · rfl
  have chain' : CallChain marked.frames (loot :: older) := chain.congr fun sf _ =>
    ⟨(markedFrame sf).1, (markedFrame sf).2.1⟩
  have nodup := chain.nodup
  obtain ⟨frames, oldest, reversed, isOldest, down, inside, outside⟩ :=
    reverseCalls_spec none chain' enough
  obtain ⟨rest, reverse⟩ : ∃ rest, (loot :: older).reverse = oldest :: rest := by
    have head : (loot :: older).reverse.head? = some oldest := by
      rw [List.head?_reverse]
      exact isOldest
    exact List.head?_eq_some_iff.1 head
  have members : ∀ x, x ∈ oldest :: rest ↔ x ∈ loot :: older := fun x => by
    rw [← reverse, List.mem_reverse]
  have distinct : (oldest :: rest).Nodup := by
    rw [← reverse]
    exact List.nodup_reverse.2 nodup
  have length : rest.length = older.length := by
    have same := congrArg List.length reverse
    simpa using same.symm
  have insideAlike : ∀ x ∈ loot :: older, (frames x).Alike (heap.frames x) := by
    intro x member
    obtain ⟨-, -, future, sp, fp⟩ := markedFrame x
    rw [inside x member]
    exact ⟨future, sp, fp⟩
  -- the oldest frame is made unrunnable with the given full frame
  have givenFrames := makeUnrunnable_frames ⟨frames, heap.fulls⟩ ff oldest (oldest = loot)
  have givenFulls := makeUnrunnable_fulls ⟨frames, heap.fulls⟩ ff oldest (oldest = loot)
  generalize isGiven : FrameHeap.makeUnrunnable ⟨frames, heap.fulls⟩ ff oldest (oldest = loot) = given
    at givenFrames givenFulls
  have givenOther : ∀ x, x ≠ oldest → given.frames x = frames x := by
    intro x other
    rw [givenFrames, setAt_other other]
  have givenOldest : given.frames oldest = (frames oldest).unrunnable (oldest = loot) := by
    rw [givenFrames, setAt_self]
  have belowOldest : ∀ x ∈ rest, x ≠ oldest := by
    rintro x member rfl
    exact (List.nodup_cons.1 distinct).1 member
  have down' : LinkedDown given.frames (oldest :: rest) none := by
    rw [← reverse]
    refine down.congr fun x _ => ?_
    by_cases isOldest : x = oldest
    · rw [isOldest, givenOldest]
      rfl
    · rw [givenOther x isOldest]
  have first : given.fulls ff =
      (heap.fulls ff).suspended (heap.frames oldest) oldest (oldest = loot) := by
    obtain ⟨future, sp, fp⟩ := insideAlike oldest ((members oldest).1 List.mem_cons_self)
    rw [givenFulls, setAt_self]
    simp only [FrameRecord.suspended, future, sp, fp]
  have plain' : ∀ x ∈ (oldest :: rest).dropLast, (given.frames x).flags.futureParent = false := by
    intro x member
    have isOlder : x ∈ older := by
      rw [← reverse, List.reverse_cons, List.dropLast_concat] at member
      exact List.mem_reverse.1 member
    have future := (insideAlike x (List.mem_cons_of_mem _ isOlder)).1
    rw [plain x isOlder] at future
    by_cases isOldest : x = oldest
    · rw [isOldest, givenOldest]
      rw [isOldest] at future
      exact future
    · rw [givenOther x isOldest]
      exact future
  obtain ⟨heap', youngest, promoted, promotion⟩ :
      ∃ heap' youngest, FrameHeap.promoteCalls loot fresh given ff oldest = some (heap', youngest) ∧
        Promotion given heap' loot ff oldest rest fresh youngest :=
    promoteCalls_spec down' distinct blocks (by rw [count, length]) (by rw [first]; rfl) plain'
  refine ⟨heap', youngest, ?_, ?_⟩
  · rw [FrameHeap.unrollCallStack]
    simp only [← isMarked, reversed, fulls, isGiven, promoted]
  · refine promotion.chain reverse nodup blocks (by rw [count, length]) ?_ first ⟨_, _, givenOldest⟩ ?_ ?_
    · intro x member
      rw [givenOther x (belowOldest x member)]
      exact insideAlike x ((members x).1 (List.mem_cons_of_mem _ member))
    · intro x other
      have notOldest : x ≠ oldest := by
        rintro rfl
        exact other ((members x).1 List.mem_cons_self)
      have notLoot : x ≠ loot := by
        rintro rfl
        exact other List.mem_cons_self
      rw [givenOther x notOldest, outside x other, markedOther x notLoot]
    · intro y other
      rw [givenFulls, setAt_other other]

/-! ### The strand -/

/-- The frames of a strand point to their parents; the helper of a parent in the deque has its flag; the
oldest frame stops a walk. -/
def SettledCalls (frames : φ → CallFrame ω φ) : List (StackCall φ) → Prop
  | [] => True
  | [call] => (frames call.frame).flags.masked = true ∨ (frames call.frame).callParent = none
  | call :: parent :: older => (frames call.frame).callParent = some parent.frame ∧
      (parent.detached = true → (frames call.frame).flags.detached = true) ∧
      SettledCalls frames (parent :: older)

omit [DecidableEq φ] [DecidableEq ψ] in
theorem SettledCalls.congr {frames frames' : φ → CallFrame ω φ} {calls : List (StackCall φ)}
    (settled : SettledCalls frames calls)
    (same : ∀ call ∈ calls, (frames' call.frame).callParent = (frames call.frame).callParent ∧
      (frames' call.frame).flags.masked = (frames call.frame).flags.masked ∧
      (frames' call.frame).flags.detached = (frames call.frame).flags.detached) :
    SettledCalls frames' calls := by
  induction calls with
  | nil => trivial
  | cons call calls ih =>
    obtain ⟨link, masked, detached⟩ := same call List.mem_cons_self
    cases calls with
    | nil =>
      rw [SettledCalls, masked, link]
      exact settled
    | cons parent older =>
      obtain ⟨points, flag, rest⟩ := settled
      exact ⟨link.trans points, fun published => detached.trans (flag published),
        ih rest fun call member => same call (List.mem_cons_of_mem _ member)⟩

omit [DecidableEq φ] [DecidableEq ψ] in
theorem SettledCalls.tail {frames : φ → CallFrame ω φ} {call : StackCall φ} {calls : List (StackCall φ)}
    (settled : SettledCalls frames (call :: calls)) : SettledCalls frames calls := by
  cases calls with
  | nil => trivial
  | cons parent older => exact settled.2.2

omit [DecidableEq φ] [DecidableEq ψ] in
/-- Whether the current frame is in the deque does not matter. -/
theorem SettledCalls.head {frames : φ → CallFrame ω φ} {call call' : StackCall φ}
    {calls : List (StackCall φ)} (settled : SettledCalls frames (call :: calls))
    (same : call'.frame = call.frame) : SettledCalls frames (call' :: calls) := by
  cases calls with
  | nil =>
    rw [SettledCalls, same]
    exact settled
  | cons parent older =>
    rw [SettledCalls, same]
    exact settled

omit [DecidableEq φ] [DecidableEq ψ] in
/-- The frames above a frame in the deque: the oldest of them has the flag DETACHED. -/
theorem SettledCalls.younger {frames : φ → CallFrame ω φ} {younger older : List (StackCall φ)}
    {loot : StackCall φ} (settled : SettledCalls frames (younger ++ loot :: older))
    (published : loot.detached = true) : SettledCalls frames younger := by
  induction younger with
  | nil => trivial
  | cons call younger ih =>
    cases younger with
    | nil => exact .inl (by simp [FrameFlags.masked, settled.2.1 published])
    | cons parent younger => exact ⟨settled.1, settled.2.1, ih settled.2.2⟩

omit [DecidableEq φ] [DecidableEq ψ] in
theorem SettledCalls.older {frames : φ → CallFrame ω φ} {younger older : List (StackCall φ)}
    (settled : SettledCalls frames (younger ++ older)) : SettledCalls frames older := by
  induction younger with
  | nil => exact settled
  | cons call younger ih => exact ih settled.tail

omit [DecidableEq φ] [DecidableEq ψ] in
theorem SettledCalls.links {frames : φ → CallFrame ω φ} {calls : List (StackCall φ)}
    (settled : SettledCalls frames calls) :
    (calls.map (·.frame)).IsChain fun sf parent => (frames sf).callParent = some parent := by
  induction calls with
  | nil => exact .nil
  | cons call calls ih =>
    cases calls with
    | nil => exact .singleton _
    | cons parent older => exact List.isChain_cons_cons.2 ⟨settled.1, ih settled.2.2⟩

omit [DecidableEq φ] [DecidableEq ψ] in
theorem SettledCalls.bottom {frames : φ → CallFrame ω φ} {calls : List (StackCall φ)}
    (settled : SettledCalls frames calls) {oldest : φ} (isLast : (calls.map (·.frame)).getLast? = some oldest) :
    (frames oldest).flags.masked = true ∨ (frames oldest).callParent = none := by
  induction calls with
  | nil => cases isLast
  | cons call calls ih =>
    cases calls with
    | nil =>
      obtain rfl := Option.some.inj isLast
      exact settled
    | cons parent older => exact ih settled.2.2 (by simpa using isLast)

/-- The future parents of a strand: one that is not current is in the deque, or about to be put there. -/
structure FutureParents (frames : φ → CallFrame ω φ) (calls : List (StackCall φ)) (phase : StackPhase) :
    Prop where
  older : ∀ call ∈ calls.tail.tail, (frames call.frame).flags.futureParent = true → call.detached = true
  second : ∀ call, calls.tail.head? = some call → (frames call.frame).flags.futureParent = true →
    call.detached = true ∨ phase = .helperEntered
  current : ∀ call, calls.head? = some call → (frames call.frame).flags.futureParent = true →
    phase = .futureStarted ∨ phase = .futureJoined

omit [DecidableEq φ] [DecidableEq ψ] in
theorem FutureParents.congr {frames frames' : φ → CallFrame ω φ} {calls : List (StackCall φ)}
    {phase : StackPhase} (parents : FutureParents frames calls phase)
    (same : ∀ call ∈ calls, (frames' call.frame).flags.futureParent = (frames call.frame).flags.futureParent) :
    FutureParents frames' calls phase where
  older call member := by
    rw [same call (List.mem_of_mem_tail (List.mem_of_mem_tail member))]
    exact parents.older call member
  second call isSecond := by
    rw [same call (List.mem_of_mem_tail (List.mem_of_head? isSecond))]
    exact parents.second call isSecond
  current call isCurrent := by
    rw [same call (List.mem_of_head? isCurrent)]
    exact parents.current call isCurrent

omit [DecidableEq φ] [DecidableEq ψ] in
/-- The older frames leave the strand. -/
theorem FutureParents.younger {frames : φ → CallFrame ω φ} {younger older : List (StackCall φ)}
    {phase : StackPhase} (parents : FutureParents frames (younger ++ older) phase) :
    FutureParents frames younger phase where
  older call member := by
    refine parents.older call ?_
    match younger, member with
    | _ :: _ :: rest, member => exact List.mem_append_left _ member
  second call isSecond := by
    refine parents.second call ?_
    match younger, isSecond with
    | _ :: _ :: rest, isSecond => exact isSecond
  current call isCurrent := by
    refine parents.current call ?_
    match younger, isCurrent with
    | _ :: rest, isCurrent => exact isCurrent

variable [DecidableEq ω] {s s' : StackState ω φ ψ β}

/-- The memory when the helper has set its flag. -/
def StackState.settledFrames (s : StackState ω φ ψ β) : φ → CallFrame ω φ :=
  match s.calls, s.phase with
  | helper :: _, .helperPublished => (s.setFlags helper.frame ({ · with detached := true }) .running).heap.frames
  | _, _ => s.heap.frames

/-- What holds of the frames of a strand. -/
structure CallsInv (s : StackState ω φ ψ β) : Prop where
  nodup : s.frames.Nodup
  settled : SettledCalls s.settledFrames s.calls
  top : ∀ call, s.calls.head? = some call → call.detached = false
  parents : FutureParents s.heap.frames s.calls s.phase

omit [DecidableEq ψ] [DecidableEq ω] in
/-- Of all frames but the current one, what is in memory is settled. -/
theorem settledFrames_other {call : StackCall φ} {calls : List (StackCall φ)} (isStack : s.calls = call :: calls)
    {sf : φ} (other : sf ≠ call.frame) : s.settledFrames sf = s.heap.frames sf := by
  rw [StackState.settledFrames, isStack]
  cases s.phase
  case helperPublished => exact setAt_other other _ _
  all_goals rfl

omit [DecidableEq ψ] [DecidableEq ω] in
/-- Between the two stores of a detach it is not. -/
theorem settledFrames_of_ne (settled : s.phase ≠ .helperPublished) : s.settledFrames = s.heap.frames := by
  rw [StackState.settledFrames]
  split
  · contradiction
  · rfl

omit [DecidableEq φ] [DecidableEq ψ] [DecidableEq ω] in
/-- The frames below the head of the deque are not in it. -/
theorem attached_of_headOf {calls younger older : List (StackCall φ)} {head : φ}
    (found : headOf calls = some (younger, head, older)) : ∀ call ∈ older, call.detached = false := by
  induction calls generalizing younger with
  | nil => cases found
  | cons call calls ih =>
    simp only [headOf] at found
    split at found
    · rename_i younger' head' older' deeper
      cases found
      exact ih deeper
    · rename_i none
      split at found <;> cases found
      intro below member
      by_contra detached
      have empty := ltqOf_eq_nil none
      simp only [ltqOf, List.reverse_eq_nil_iff, List.map_eq_nil_iff, List.filter_eq_nil_iff] at empty
      exact empty below member (by simpa using detached)

omit [DecidableEq φ] [DecidableEq ψ] [DecidableEq ω] in
/-- What the walk goes over is the chain of the first frame. -/
theorem chainOf_spec {frames : φ → CallFrame ω φ} {sf : φ} {older : List φ}
    (links : (sf :: older).IsChain fun call parent => (frames call).callParent = some parent)
    (bottom : ∀ oldest, (sf :: older).getLast? = some oldest →
      (frames oldest).flags.masked = true ∨ (frames oldest).callParent = none) :
    ∃ chain rest, chainOf frames (sf :: older) = sf :: chain ∧ older = chain ++ rest ∧
      CallChain frames (sf :: chain) := by
  induction older generalizing sf with
  | nil =>
    refine ⟨[], [], ?_, rfl, .oldest (bottom sf rfl)⟩
    simp [chainOf]
  | cons parent older ih =>
    obtain ⟨link, links⟩ := List.isChain_cons_cons.1 links
    obtain ⟨chain, rest, walked, split, isChain⟩ := ih links fun oldest isLast =>
      bottom oldest (by simpa using isLast)
    by_cases masked : (frames sf).flags.masked = true
    · exact ⟨[], parent :: older, by simp [chainOf, masked], rfl, .oldest (.inl masked)⟩
    · refine ⟨parent :: chain, rest, ?_, by rw [split]; rfl, ?_⟩
      · rw [chainOf, if_neg masked, walked]
      · exact .call (by simpa using masked) link isChain

omit [DecidableEq ψ] [DecidableEq ω] in
/-- What is in memory and what is current decide it. -/
theorem settledFrames_congr {t : StackState ω φ ψ β} (phase : t.phase = s.phase)
    (head : t.calls.head? = s.calls.head?)
    (same : ∀ call ∈ t.calls, t.heap.frames call.frame = s.heap.frames call.frame) {call : StackCall φ}
    (member : call ∈ t.calls) : t.settledFrames call.frame = s.settledFrames call.frame := by
  obtain ⟨current, below, isStack⟩ := List.exists_cons_of_ne_nil (List.ne_nil_of_mem member)
  obtain ⟨below', isStack'⟩ : ∃ below', s.calls = current :: below' := by
    rw [isStack] at head
    exact List.head?_eq_some_iff.1 head.symm
  simp only [StackState.settledFrames, isStack, isStack', phase]
  cases s.phase
  case helperPublished =>
    by_cases isCurrent : call.frame = current.frame
    · simp only [StackState.setFlags, isCurrent, setAt_self, same current (by simp [isStack])]
    · simp only [StackState.setFlags, setAt_other isCurrent, same call member]
  all_goals exact same call member

/-! ### The steps of a strand -/

omit [DecidableEq φ] [DecidableEq ψ] [DecidableEq ω] in
theorem StackState.Initial.inv [DecidableEq φ] (initial : s.Initial) : CallsInv s := by
  obtain ⟨sf, calls, flags, phase⟩ := initial
  have settled : s.settledFrames = s.heap.frames := settledFrames_of_ne (by rw [phase]; decide)
  refine ⟨?_, ?_, ?_, ?_, ?_, ?_⟩
  · simp [StackState.frames, calls]
  · rw [settled, calls]
    exact .inl (by simp [flags, FrameFlags.entered, FrameFlags.masked])
  · simp [calls]
  · simp [calls]
  · simp [calls]
  · simp [calls, flags, FrameFlags.entered]

omit [DecidableEq ψ] [DecidableEq ω] in
/-- A frame is entered by a current frame that is no future parent, or starts a helper. -/
theorem CallsInv.enter (inv : CallsInv s) {sf : φ} {sp fp : Int} {phase : StackPhase}
    (settled : s.phase = .running ∨ s.phase = .futureStarted ∧ phase = .helperEntered)
    (next : phase = .running ∨ phase = .helperEntered) (nonempty : s.calls ≠ []) (fresh : sf ∉ s.frames) :
    CallsInv (s.enter sf sp fp phase) := by
  obtain ⟨current, older, isStack⟩ := List.exists_cons_of_ne_nil nonempty
  have before : s.settledFrames = s.heap.frames := settledFrames_of_ne (by rcases settled with h | ⟨h, -⟩ <;> simp [h])
  have after : (s.enter sf sp fp phase).settledFrames = (s.enter sf sp fp phase).heap.frames :=
    settledFrames_of_ne (by rcases next with h | h <;> simp [StackState.enter, h])
  have other : ∀ call ∈ s.calls, (s.enter sf sp fp phase).heap.frames call.frame = s.heap.frames call.frame := by
    intro call member
    refine setAt_other ?_ _ _
    rintro rfl
    exact fresh (List.mem_map_of_mem member)
  have own : (s.enter sf sp fp phase).heap.frames sf =
      ⟨.entered false, s.frames.head?, some s.owner, sp, fp⟩ := setAt_self _ _ _
  have kept : SettledCalls (s.enter sf sp fp phase).heap.frames s.calls := by
    have settledBefore := inv.settled
    rw [before] at settledBefore
    refine settledBefore.congr fun call member => ?_
    rw [other call member]
    exact ⟨rfl, rfl, rfl⟩
  have parents := inv.parents.congr fun call member => congrArg (·.flags.futureParent) (other call member)
  refine ⟨List.nodup_cons.2 ⟨fresh, inv.nodup⟩, ?_, ?_, ?_, ?_, ?_⟩
  · rw [after]
    show SettledCalls _ (⟨sf, false⟩ :: s.calls)
    have attached := inv.top current (by rw [isStack]; rfl)
    rw [isStack] at kept ⊢
    refine ⟨?_, by simp [attached], kept⟩
    rw [own]
    simp [StackState.frames, isStack]
  · rintro call isCurrent
    obtain rfl := Option.some.inj isCurrent
    rfl
  · intro call member future
    have isOlder : call ∈ s.calls.tail := member
    rw [isStack] at isOlder
    cases older with
    | nil => cases isOlder
    | cons second older =>
      rcases List.mem_cons.1 isOlder with rfl | deeper
      · rcases parents.second call (by rw [isStack]; rfl) future with published | entered
        · exact published
        · rcases settled with h | ⟨h, -⟩ <;> rw [h] at entered <;> cases entered
      · exact parents.older call (by rw [isStack]; exact deeper) future
  · intro call isSecond future
    have isCurrent : s.calls.head? = some call := isSecond
    rcases settled with running | ⟨-, helper⟩
    · rcases parents.current call isCurrent future with h | h <;> rw [running] at h <;> cases h
    · exact .inr helper
  · intro call isCurrent
    obtain rfl := Option.some.inj isCurrent
    rw [own]
    simp [FrameFlags.entered]

omit [DecidableEq ψ] [DecidableEq ω] in
/-- The current frame is marked as a future parent, or the mark is taken away. -/
theorem CallsInv.mark (inv : CallsInv s) {call : StackCall φ} {older : List (StackCall φ)}
    (isStack : s.calls = call :: older) {mark : Bool} {phase : StackPhase}
    (before : s.phase = .running ∨ s.phase = .futureJoined)
    (after : mark = true ∧ phase = .futureStarted ∨ mark = false ∧ phase = .running) :
    CallsInv (s.setFlags call.frame ({ · with futureParent := mark }) phase) := by
  have settled : s.settledFrames = s.heap.frames :=
    settledFrames_of_ne (by rcases before with h | h <;> simp [h])
  have settled' : (s.setFlags call.frame ({ · with futureParent := mark }) phase).settledFrames =
      (s.setFlags call.frame ({ · with futureParent := mark }) phase).heap.frames :=
    settledFrames_of_ne (by rcases after with ⟨-, h⟩ | ⟨-, h⟩ <;> simp [StackState.setFlags, h])
  have own : (s.setFlags call.frame ({ · with futureParent := mark }) phase).heap.frames call.frame =
      { s.heap.frames call.frame with
        flags := { (s.heap.frames call.frame).flags with futureParent := mark } } := setAt_self _ _ _
  have other : ∀ sf, sf ≠ call.frame →
      (s.setFlags call.frame ({ · with futureParent := mark }) phase).heap.frames sf = s.heap.frames sf :=
    fun sf other => setAt_other other _ _
  have apart : ∀ below ∈ older, below.frame ≠ call.frame := by
    intro below member same
    have nodup := inv.nodup
    rw [StackState.frames, isStack, List.map_cons, List.nodup_cons] at nodup
    exact nodup.1 (same ▸ List.mem_map_of_mem member)
  have notEntered : s.phase ≠ .helperEntered := by rcases before with h | h <;> simp [h]
  refine ⟨inv.nodup, ?_, inv.top, ?_, ?_, ?_⟩
  · rw [settled']
    have before := inv.settled
    rw [settled] at before
    refine before.congr fun below _ => ?_
    by_cases same : below.frame = call.frame
    · rw [same, own]
      exact ⟨rfl, rfl, rfl⟩
    · rw [other _ same]
      exact ⟨rfl, rfl, rfl⟩
  · intro below member
    have isOlder : below ∈ older := by
      rw [show (s.setFlags call.frame _ phase).calls = call :: older from isStack] at member
      exact List.mem_of_mem_tail member
    rw [other _ (apart below isOlder)]
    exact inv.parents.older below member
  · intro below isSecond
    have isOlder : below ∈ older := by
      rw [show (s.setFlags call.frame _ phase).calls = call :: older from isStack] at isSecond
      exact List.mem_of_head? isSecond
    rw [other _ (apart below isOlder)]
    exact fun future => .inl ((inv.parents.second below isSecond future).resolve_right notEntered)
  · intro current isCurrent
    rw [show (s.setFlags call.frame _ phase).calls = call :: older from isStack] at isCurrent
    obtain rfl := Option.some.inj isCurrent
    rw [own]
    rcases after with ⟨-, started⟩ | ⟨rfl, -⟩
    · exact fun _ => .inl started
    · simp

omit [DecidableEq ψ] [DecidableEq ω] in
/-- The first store of a detach: the parent is in the deque, its helper has no flag yet. -/
theorem CallsInv.publish (inv : CallsInv s) {helper parent : StackCall φ} {older : List (StackCall φ)}
    (isStack : s.calls = helper :: parent :: older) (entered : s.phase = .helperEntered) :
    CallsInv { s with
      calls := helper :: { parent with detached := true } :: older, phase := .helperPublished } := by
  have nodup := inv.nodup
  rw [StackState.frames, isStack, List.map_cons, List.nodup_cons] at nodup
  have settled := inv.settled
  rw [settledFrames_of_ne (by simp [entered]), isStack] at settled
  refine ⟨?_, ?_, ?_, ?_, ?_, ?_⟩
  · rw [StackState.frames, List.map_cons, List.nodup_cons]
    exact nodup
  · show SettledCalls (setAt s.heap.frames helper.frame _)
      (helper :: { parent with detached := true } :: older)
    refine ⟨?_, fun _ => ?_, ?_⟩
    · rw [setAt_self]
      exact settled.1
    · rw [setAt_self]
    · have apart : ∀ call ∈ parent :: older, call.frame ≠ helper.frame := fun call member same =>
        nodup.1 (same ▸ List.mem_map_of_mem member)
      exact SettledCalls.head (settled.2.2.congr fun call member => by
        rw [setAt_other (apart call member)]
        exact ⟨rfl, rfl, rfl⟩) rfl
  · intro call isCurrent
    exact inv.top call (by rw [isStack]; exact isCurrent)
  · intro call member
    exact inv.parents.older call (by rw [isStack]; exact member)
  · rintro call isSecond -
    obtain rfl := Option.some.inj isSecond
    exact .inl rfl
  · intro call isCurrent future
    rcases inv.parents.current call (by rw [isStack]; exact isCurrent) future with h | h <;>
      rw [entered] at h <;> cases h

omit [DecidableEq ψ] [DecidableEq ω] in
/-- The second store of a detach. -/
theorem CallsInv.setDetached (inv : CallsInv s) {helper : StackCall φ} {older : List (StackCall φ)}
    (isStack : s.calls = helper :: older) (published : s.phase = .helperPublished) :
    CallsInv (s.setFlags helper.frame ({ · with detached := true }) .running) := by
  have settled := inv.settled
  rw [StackState.settledFrames, isStack, published] at settled
  have future : ∀ sf, ((s.setFlags helper.frame ({ · with detached := true }) .running).heap.frames
      sf).flags.futureParent = (s.heap.frames sf).flags.futureParent := by
    intro sf
    simp only [StackState.setFlags, setAt]
    split
    · rename_i same
      rw [same]
    · rfl
  have parents := inv.parents.congr fun call _ => future call.frame
  refine ⟨inv.nodup, ?_, inv.top, parents.older, ?_, ?_⟩
  · rw [settledFrames_of_ne (by simp [StackState.setFlags])]
    rw [show (s.setFlags helper.frame _ .running).calls = helper :: older from isStack]
    exact settled
  · intro call isSecond future
    rcases parents.second call isSecond future with detached | entered
    · exact .inl detached
    · rw [published] at entered
      cases entered
  · intro call isCurrent future
    rcases parents.current call isCurrent future with h | h <;> rw [published] at h <;> cases h

omit [DecidableEq ψ] [DecidableEq ω] in
/-- The current frame returns to its parent. -/
theorem CallsInv.pop (inv : CallsInv s) {current parent : StackCall φ} {older : List (StackCall φ)}
    (isStack : s.calls = current :: parent :: older) (running : s.phase = .running) {phase : StackPhase}
    (unpublished : phase ≠ .helperPublished)
    (next : (s.heap.frames parent.frame).flags.futureParent = true → parent.detached = true →
      phase = .futureJoined) :
    CallsInv { s with calls := { parent with detached := false } :: older, phase := phase } := by
  have nodup := inv.nodup
  rw [StackState.frames, isStack] at nodup
  have settled := inv.settled
  rw [settledFrames_of_ne (by simp [running]), isStack] at settled
  refine ⟨(List.nodup_cons.1 nodup).2, ?_, ?_, ?_, ?_, ?_⟩
  · rw [settledFrames_of_ne unpublished]
    exact settled.tail.head rfl
  · intro call isCurrent
    obtain rfl := Option.some.inj isCurrent
    rfl
  · intro call member
    exact inv.parents.older call (by rw [isStack]; exact List.mem_of_mem_tail member)
  · intro call isSecond future
    exact .inl (inv.parents.older call (by rw [isStack]; exact List.mem_of_head? isSecond) future)
  · intro call isCurrent future
    obtain rfl := Option.some.inj isCurrent
    rcases inv.parents.second parent (by rw [isStack]; rfl) future with detached | entered
    · exact .inr (next future detached)
    · rw [running] at entered
      cases entered

omit [DecidableEq ψ] [DecidableEq ω] in
/-- The strand ends, or goes on in a frame that was stolen. -/
theorem CallsInv.single {heap : FrameHeap ω φ ψ β} {owner : ω} {sf : φ}
    (stolen : (heap.frames sf).flags.stolen = true) :
    CallsInv (ψ := ψ) ⟨heap, owner, [⟨sf, false⟩],
      if (heap.frames sf).flags.futureParent then .futureJoined else .running⟩ := by
  refine ⟨by simp [StackState.frames], ?_, by simp, by simp, by simp, ?_⟩
  · rw [settledFrames_of_ne (by dsimp only; split <;> decide)]
    exact .inl (by simp [FrameFlags.masked, stolen])
  · intro call isCurrent future
    obtain rfl := Option.some.inj isCurrent
    exact .inr (if_pos future)

omit [DecidableEq ψ] [DecidableEq ω] in
/-- The frame at the head of the deque is not the current one. -/
theorem CallsInv.younger_ne_nil (inv : CallsInv s) {younger older : List (StackCall φ)} {loot : φ}
    (found : headOf s.calls = some (younger, loot, older)) : younger ≠ [] := by
  rintro rfl
  obtain ⟨call, -, published, isStack⟩ := calls_of_headOf found
  exact nomatch published.symm.trans (inv.top call (by rw [isStack]; rfl))

omit [DecidableEq ψ] [DecidableEq ω] in
/-- The chain of the frame at the head: what the walk goes over, where no older frame is a future parent. -/
theorem CallsInv.loot_chain (inv : CallsInv s) {younger older : List (StackCall φ)} {loot : φ}
    (found : headOf s.calls = some (younger, loot, older)) :
    ∃ chain rest, chainOf s.heap.frames (loot :: older.map (·.frame)) = loot :: chain ∧
      older.map (·.frame) = chain ++ rest ∧ CallChain s.heap.frames (loot :: chain) ∧
      ∀ sf ∈ chain, (s.heap.frames sf).flags.futureParent = false := by
  obtain ⟨call, rfl, published, isStack⟩ := calls_of_headOf found
  obtain ⟨current, younger', rfl⟩ := List.exists_cons_of_ne_nil (inv.younger_ne_nil found)
  have nodup := inv.nodup
  rw [StackState.frames, isStack, List.cons_append, List.map_cons, List.nodup_cons] at nodup
  have settled : SettledCalls s.heap.frames (call :: older) := by
    have all := inv.settled
    rw [isStack] at all
    refine all.older.congr fun below member => ?_
    rw [settledFrames_other isStack]
    · exact ⟨rfl, rfl, rfl⟩
    · intro same
      exact nodup.1 (same ▸ List.mem_map_of_mem (List.mem_append_right _ member))
  obtain ⟨chain, rest, walked, split, isChain⟩ :=
    chainOf_spec (by simpa using settled.links) fun oldest isLast => settled.bottom (by simpa using isLast)
  refine ⟨chain, rest, walked, split, isChain, fun sf member => ?_⟩
  obtain ⟨below, isOlder, rfl⟩ := List.mem_map.1 (split ▸ List.mem_append_left rest member)
  have attached := attached_of_headOf found below isOlder
  have deep : below ∈ s.calls.tail.tail := by
    rw [isStack]
    cases younger' with
    | nil => exact isOlder
    | cons second younger' => exact List.mem_append_right _ (List.mem_cons_of_mem _ isOlder)
  have plain := inv.parents.older below deep
  rw [attached] at plain
  simpa using plain

omit [DecidableEq ψ] [DecidableEq ω] in
/-- A thief's store into the worker of the frame that it takes does not matter to the chain. -/
theorem lootHeap_chain {loot : φ} {chain : List φ} (isChain : CallChain s.heap.frames chain) :
    CallChain (s.lootHeap loot).frames chain := by
  refine isChain.congr fun sf _ => ?_
  by_cases isLoot : sf = loot
  · rw [isLoot, show (s.lootHeap loot).frames loot = _ from setAt_self _ _ _]
    exact ⟨rfl, rfl⟩
  · rw [show (s.lootHeap loot).frames sf = _ from setAt_other isLoot _ _]
    exact ⟨rfl, rfl⟩

/-- What `unroll_call_stack` makes of the frame at the head of the deque of a strand. -/
theorem CallsInv.unroll (inv : CallsInv s) {younger older : List (StackCall φ)} {loot : φ}
    (found : headOf s.calls = some (younger, loot, older)) (w : ω) (frameFf : Option ψ) (ff : ψ) :
    ∃ chain rest, chainOf s.heap.frames (loot :: older.map (·.frame)) = loot :: chain ∧
      older.map (·.frame) = chain ++ rest ∧ CallChain s.heap.frames (loot :: chain) ∧
      ∀ fresh : List ψ, (ff :: fresh).Nodup → fresh.length = chain.length → ∀ fuel, chain.length < fuel →
        ∃ heap' youngest,
          (s.lootHeap loot).unrollCallStack fuel w frameFf ff loot fresh = some (heap', youngest) ∧
            ChainPromoted (s.lootHeap loot) heap' ff loot chain fresh youngest := by
  obtain ⟨chain, rest, walked, split, isChain, plain⟩ := inv.loot_chain found
  refine ⟨chain, rest, walked, split, isChain, fun fresh blocks count fuel enough => ?_⟩
  refine unrollCallStack_spec w frameFf (lootHeap_chain isChain) enough blocks count fun sf member => ?_
  have notLoot : sf ≠ loot := by
    rintro rfl
    exact (List.nodup_cons.1 isChain.nodup).1 member
  rw [show (s.lootHeap loot).frames sf = s.heap.frames sf from setAt_other notLoot _ _]
  exact plain sf member

/-- The frame at the head is stolen, with the frames below it. -/
theorem CallsInv.steal (inv : CallsInv s) {younger older : List (StackCall φ)} {loot : φ}
    (found : headOf s.calls = some (younger, loot, older)) {w : ω} {frameFf : Option ψ} {ff : ψ}
    {fresh : List ψ} (blocks : (ff :: fresh).Nodup)
    (count : fresh.length + 1 = (chainOf s.heap.frames (loot :: older.map (·.frame))).length)
    {promoted : FrameHeap ω φ ψ β × ψ}
    (unrolled : (s.lootHeap loot).unrollCallStack (older.length + 1) w frameFf ff loot fresh =
      some promoted) : CallsInv { s with heap := promoted.1, calls := younger } := by
  obtain ⟨chain, rest, walked, split, isChain, spec⟩ := inv.unroll found w frameFf ff
  have length : older.length = chain.length + rest.length := by
    simpa using congrArg List.length split
  rw [walked, List.length_cons] at count
  obtain ⟨heap', youngest, unrolled', result⟩ :=
    spec fresh blocks (by omega) (older.length + 1) (by omega)
  obtain rfl := Option.some.inj (unrolled.symm.trans unrolled')
  have nonempty := inv.younger_ne_nil found
  obtain ⟨call, rfl, published, isStack⟩ := calls_of_headOf found
  have nodup := inv.nodup
  rw [StackState.frames, isStack, List.map_append, List.nodup_append] at nodup
  -- the frames that stay are no frames of the chain
  have untouched : ∀ left ∈ younger, heap'.frames left.frame = s.heap.frames left.frame := by
    intro left member
    have apart : left.frame ∉ call.frame :: chain := by
      intro inChain
      refine nodup.2.2 left.frame (List.mem_map_of_mem member) left.frame ?_ rfl
      rw [List.map_cons, split]
      rcases List.mem_cons.1 inChain with same | deeper
      · rw [same]
        exact List.mem_cons_self
      · exact List.mem_cons_of_mem _ (List.mem_append_left _ deeper)
    have notLoot : left.frame ≠ call.frame := fun same => apart (by rw [same]; exact List.mem_cons_self)
    rw [result.others left.frame apart]
    exact setAt_other notLoot _ _
  have settled := inv.settled
  rw [isStack] at settled
  have parents := inv.parents
  rw [isStack] at parents
  refine ⟨nodup.1, ?_, ?_, ?_⟩
  · refine (settled.younger published).congr fun left member => ?_
    have head : younger.head? = s.calls.head? := by
      rw [isStack, List.head?_append_of_ne_nil _ nonempty]
    have same := settledFrames_congr (s := s) (t := { s with heap := heap', calls := younger }) rfl head
      untouched member
    rw [same]
    exact ⟨rfl, rfl, rfl⟩
  · intro current isCurrent
    refine inv.top current ?_
    rw [isStack]
    match younger, isCurrent with
    | _ :: _, isCurrent => exact isCurrent
  · exact parents.younger.congr fun left member =>
      congrArg (fun frame : CallFrame ω φ => frame.flags.futureParent) (untouched left member)

/-- Every step keeps the frames of the strand in order. -/
theorem CallsInv.step (inv : CallsInv s) {label : StackLabel ω φ ψ β} (taken : stackStep s label = some s') :
    CallsInv s' := by
  cases label with
  | enterFrame sf sp fp =>
    simp only [stackStep, Option.ite_none_right_eq_some, Option.some.injEq] at taken
    obtain ⟨⟨running, nonempty, fresh⟩, rfl⟩ := taken
    exact inv.enter (.inl running) (.inl rfl) nonempty fresh
  | startFuture =>
    simp only [stackStep] at taken
    split at taken <;> cases taken
    rename_i isStack running
    exact inv.mark isStack (.inl running) (.inl ⟨rfl, rfl⟩)
  | enterHelper sf sp fp =>
    simp only [stackStep, Option.ite_none_right_eq_some, Option.some.injEq] at taken
    obtain ⟨⟨phase, nonempty, fresh⟩, rfl⟩ := taken
    exact inv.enter (phase.imp_right fun started => ⟨started, rfl⟩) (.inr rfl) nonempty fresh
  | publish =>
    simp only [stackStep] at taken
    split at taken <;> cases taken
    rename_i isStack entered
    exact inv.publish isStack entered
  | setDetached =>
    simp only [stackStep] at taken
    split at taken <;> cases taken
    rename_i isStack published
    exact inv.setDetached isStack published
  | leaveFrame =>
    simp only [stackStep] at taken
    split at taken
    · rename_i current parent older isStack running
      split at taken <;> cases taken
      rename_i attached
      have same : parent = { parent with detached := false } := by
        simp only [Bool.not_eq_true] at attached
        rw [← attached]
      have popped := inv.pop isStack running (show s.phase ≠ .helperPublished by simp [running]) (by simp [attached])
      rwa [← same] at popped
    · cases taken
  | undoDetach =>
    simp only [stackStep] at taken
    split at taken
    · rename_i current parent older isStack running
      split at taken <;> cases taken
      refine inv.pop isStack running ?_ fun future _ => if_pos future
      rw [StackState.phaseOf]
      split <;> decide
    · cases taken
  | endFuture =>
    simp only [stackStep] at taken
    split at taken <;> cases taken
    rename_i isStack joined
    exact inv.mark isStack (.inr joined) (.inr ⟨rfl, rfl⟩)
  | finish =>
    simp only [stackStep] at taken
    split at taken <;> cases taken
    rename_i isStack running
    refine ⟨by simp [StackState.frames], trivial, by simp, by simp, by simp, by simp⟩
  | resume w sf frame =>
    simp only [stackStep, Option.ite_none_right_eq_some, Option.some.injEq] at taken
    obtain ⟨⟨-, stolen⟩, rfl⟩ := taken
    refine CallsInv.single ?_
    rw [show (s.heap.setFrame sf frame).frames sf = frame from setAt_self _ _ _]
    exact stolen
  | steal w frameFf ff fresh =>
    simp only [stackStep] at taken
    split at taken
    · rename_i younger loot older found
      simp only [Option.ite_none_right_eq_some, Option.map_eq_some_iff] at taken
      obtain ⟨⟨blocks, count⟩, promoted, unrolled, rfl⟩ := taken
      exact inv.steal found blocks count unrolled
    · cases taken
  | other heap =>
    simp only [stackStep, Option.ite_none_right_eq_some, Option.some.injEq] at taken
    obtain ⟨untouched, rfl⟩ := taken
    have same : ∀ call ∈ s.calls, heap.frames call.frame = s.heap.frames call.frame := fun call member =>
      untouched call.frame (List.mem_map_of_mem member)
    refine ⟨inv.nodup, inv.settled.congr fun call member => ?_, inv.top,
      inv.parents.congr fun call member =>
        congrArg (fun frame : CallFrame ω φ => frame.flags.futureParent) (same call member)⟩
    rw [settledFrames_congr (s := s) (t := { s with heap := heap }) rfl rfl same member]
    exact ⟨rfl, rfl, rfl⟩

theorem callsInv_of_reachable (reachable : (stackMachine ω φ ψ β).Reachable s) : CallsInv s := by
  refine @Machine.Reachable.invariant _ _ _ CallsInv ?_ ?_ _ reachable
  · intro s initial
    exact StackState.Initial.inv initial
  · intro s label s' _ inv taken
    exact inv.step taken

/-- `unroll_call_stack` promotes the call chain of the frame that a thief takes off the deque of a strand,
whatever the strand did before: the chain is the frames that the strand has from there on, up to the first
that stops the walk; whatever new blocks the allocator returns, one for each frame but the oldest, the walk
and the promotion end, and the chain is promoted with the given full frame for the oldest. -/
theorem unroll_call_stack_promotes (reachable : (stackMachine ω φ ψ β).Reachable s)
    {younger older : List (StackCall φ)} {loot : φ} (found : headOf s.calls = some (younger, loot, older))
    (w : ω) (frameFf : Option ψ) (ff : ψ) :
    ∃ chain rest, older.map (·.frame) = chain ++ rest ∧ CallChain s.heap.frames (loot :: chain) ∧
      ∀ fresh : List ψ, (ff :: fresh).Nodup → fresh.length = chain.length → ∀ fuel, chain.length < fuel →
        ∃ heap' youngest,
          (s.lootHeap loot).unrollCallStack fuel w frameFf ff loot fresh = some (heap', youngest) ∧
            ChainPromoted (s.lootHeap loot) heap' ff loot chain fresh youngest := by
  obtain ⟨chain, rest, -, split, isChain, spec⟩ := (callsInv_of_reachable reachable).unroll found w frameFf ff
  exact ⟨chain, rest, split, isChain, spec⟩

/-! ### A run -/

/-- Frame 0 is the first one; every full frame is new. -/
def firstStrand : StackState (Fin 2) (Fin 4) (Fin 3) (Fin 2) where
  heap.frames _ := ⟨.entered true, none, some 0, 8, 16⟩
  heap.fulls _ := { (madeFullFrame none : FrameRecord (Fin 2) (Fin 4) (Fin 3) (Fin 2)) with fiberSelf := some 1 }
  owner := 0
  calls := [⟨0, false⟩]
  phase := .running

theorem firstStrand_start : (stackMachine (Fin 2) (Fin 4) (Fin 3) (Fin 2)).start firstStrand :=
  ⟨0, rfl, rfl, rfl⟩

/-- Frame 0 calls 1, which calls 2, which spawns the helper 3. -/
def spawnedStrand : StackState (Fin 2) (Fin 4) (Fin 3) (Fin 2) :=
  (stackMachine _ _ _ _).after firstStrand
    [.enterFrame 1 16 24, .enterFrame 2 32 40, .enterHelper 3 48 56, .publish, .setDetached]

/-- A thief takes frame 2; its chain is that of 2, 1 and 0. -/
theorem unroll_call_stack_promotes_three :
    headOf spawnedStrand.calls = some ([⟨3, false⟩], 2, [⟨1, false⟩, ⟨0, false⟩]) ∧
    ∃ chain rest, [1, 0] = chain ++ rest ∧ CallChain spawnedStrand.heap.frames (2 :: chain) ∧
      ∀ fresh : List (Fin 3), ((0 : Fin 3) :: fresh).Nodup → fresh.length = chain.length →
        ∀ fuel, chain.length < fuel → ∃ heap' youngest,
          (spawnedStrand.lootHeap 2).unrollCallStack fuel 1 none 0 2 fresh = some (heap', youngest) ∧
            ChainPromoted (spawnedStrand.lootHeap 2) heap' 0 2 chain fresh youngest := by
  have found : headOf spawnedStrand.calls = some ([⟨3, false⟩], 2, [⟨1, false⟩, ⟨0, false⟩]) := by decide
  exact ⟨found, unroll_call_stack_promotes (.after (.start firstStrand_start) _) found 1 none 0⟩

end CilkL
