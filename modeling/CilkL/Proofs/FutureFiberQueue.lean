/-
Module: CilkL.Proofs.FutureFiberQueue
Layer: Proofs
Purpose: The fibers from `fiber_head` are those of the frames from `head` that spawned futures, in order.
  No step of the THE protocol changes the list of fibers that are due: a push moves the enqueued fiber
  from the owner's window into the deque, a pop moves it back, a steal moves it into the thief's. The
  functions of the queue add and take fibers at the ends of that list, so every assertion holds and every
  pop takes the fiber of the frame it is for.
Imports: CilkL.Proofs.TheProtocol, CilkL.Runtime.FutureFiberQueue
Trusted boundary: none (fully proved)
Main exports: FiberInv, FiberInv.of_step, fiberInv_reachable, future_fiber_correspondence
Open obligations: none
-/
import CilkL.Proofs.TheProtocol
import CilkL.Runtime.FutureFiberQueue

namespace CilkL

/-! ### Frames that were neither popped nor read by a thief -/

section Unread

variable {α : Type}

/-- The frames of the deque, with the one a thief took and did not read yet. -/
def TheState.unread (s : TheState α) : List (Pushed α) := s.fetching ++ s.frames

theorem TheInv.unread_pushSlot {s s' : TheState α} {frame : α} (inv : TheInv s)
    (taken : theStep s (.pushSlot frame) = some s') :
    s'.unread = s.unread ∧ s'.owner = .pushTail ∧ s'.ltq s'.tail = some ⟨s.pushed.length, frame⟩ := by
  cases pc : s.owner <;> simp [theStep, pc] at taken
  obtain ⟨-, rfl⟩ := taken
  refine ⟨?_, rfl, by simp⟩
  exact congrArg (· ++ s.frames) (inv.fetching_pushSlot pc ⟨s.pushed.length, frame⟩)

theorem unread_pushTail {s s' : TheState α} (taken : theStep s .pushTail = some s') :
    s.owner = .pushTail ∧ s'.owner = .running ∧ s'.unread = s.unread ++ (s.ltq s.tail).toList := by
  cases pc : s.owner <;> simp [theStep, pc] at taken
  subst taken
  refine ⟨rfl, rfl, ?_⟩
  exact (List.append_assoc s.fetching s.frames _).symm

/-- A successful pop takes the last unread frame. -/
theorem FrameInv.unread_popSucceed {s : TheState α} (inv : FrameInv s) (nonempty : s.frames ≠ []) :
    s.unread = (popSucceed s).unread ++ s.spawned.getLast?.toList := by
  obtain ⟨gone, split, -⟩ := inv.spawned_eq
  have last : s.spawned.getLast? = some (s.frames.getLast nonempty) := by
    rw [split, List.getLast?_append_of_ne_nil _ nonempty, List.getLast?_eq_some_getLast nonempty]
  change s.fetching ++ s.frames = s.fetching ++ s.frames.dropLast ++ s.spawned.getLast?.toList
  rw [last, Option.toList_some, List.append_assoc, List.dropLast_append_getLast nonempty]

theorem TheInv.unread_popCompare {s s' : TheState α} (inv : TheInv s)
    (taken : theStep s .popCompare = some s') :
    s'.owner = .popLock ∧ s'.unread = s.unread ∧ s'.popped = s.popped ∨
      s'.owner = .running ∧ s.unread = s'.unread ++ s.spawned.getLast?.toList ∧
        s'.popped = s.popped ++ s.spawned.getLast?.toList := by
  cases pc : s.owner <;> simp [theStep, pc] at taken
  split at taken
  · cases taken
    exact .inl ⟨rfl, rfl, rfl⟩
  · rename_i safe
    cases taken
    exact .inr ⟨rfl, inv.unread_popSucceed (inv.nonempty_of_compare pc safe), rfl⟩

theorem TheInv.unread_popTest {s s' : TheState α} (inv : TheInv s)
    (taken : theStep s .popTest = some s') :
    s.owner = .popTest ∧
      (s'.owner = .popUndo ∧ s'.unread = s.unread ∧ s'.popped = s.popped ∧ s'.spawned = [] ∨
        s'.owner = .unlock ∧ s.unread = s'.unread ++ s.spawned.getLast?.toList ∧
          s'.popped = s.popped ++ s.spawned.getLast?.toList) := by
  cases pc : s.owner <;> simp [theStep, pc] at taken
  refine ⟨rfl, ?_⟩
  split at taken
  · cases taken
    exact .inl ⟨rfl, rfl, rfl, rfl⟩
  · rename_i within
    cases taken
    exact .inr ⟨rfl, inv.unread_popSucceed (inv.nonempty_of_test pc (by omega)), rfl⟩

/-- Advancing `head` leaves the frame unread. -/
theorem TheInv.unread_advanceHead {s s' : TheState α} (inv : TheInv s)
    (taken : theStep s .advanceHead = some s') :
    s.frames ≠ [] ∧ s'.unread = s.unread := by
  cases pc : s.thief <;> simp [theStep, pc] at taken
  subst taken
  obtain ⟨nonempty, -⟩ : s.frames ≠ [] ∧ s.head < s.protectedTail := by
    simpa [TheState.ThiefLocals, pc] using inv.thiefLocals
  obtain ⟨x, rest, framesEq⟩ := List.exists_cons_of_ne_nil nonempty
  have segment := inv.segment
  rw [framesEq] at segment
  refine ⟨nonempty, ?_⟩
  simp [TheState.unread, TheState.fetching, pc, framesEq, segment.first]

/-- The thief reads the first unread frame. -/
theorem TheInv.unread_fetchFrame {s s' : TheState α} (inv : TheInv s)
    (taken : theStep s .fetchFrame = some s') :
    ∃ x, s.fetching = [x] ∧ s'.thief = .detached (some x) ∧ s.unread = x :: s'.unread ∧
      s'.stolenFrames = s.stolenFrames ++ [x] := by
  cases pc : s.thief <;> simp [theStep, pc] at taken
  rename_i h
  subst taken
  obtain ⟨-, -, x, slot⟩ : h + 1 = s.head ∧ h < s.protectedTail ∧ ∃ x, s.ltq h = some x := by
    simpa [TheState.ThiefLocals, pc] using inv.thiefLocals
  exact ⟨x, by simp [TheState.fetching, pc, slot], by rw [slot],
    by simp [TheState.unread, TheState.fetching, pc, slot], by simp [TheState.stolenFrames, slot]⟩

/-- The steps that neither push nor consume a frame. -/
def TheLabel.Quiet : TheLabel α → Prop
  | .pushSlot _ | .pushTail | .popCompare | .popTest | .advanceHead | .fetchFrame => False
  | _ => True

theorem TheInv.unread_quiet {s s' : TheState α} {label : TheLabel α} (inv : TheInv s)
    (quiet : label.Quiet) (taken : theStep s label = some s') :
    s'.fetching = s.fetching ∧ s'.frames = s.frames := by
  have free : s.lock = .free → s.thief = .none := fun free => inv.lock_thief.2 (.inl free)
  cases label <;> simp only [TheLabel.Quiet] at quiet <;> simp only [theStep] at taken <;>
    (repeat' split at taken) <;> simp_all [TheState.fetching] <;> subst taken <;> simp_all

/-- Only the owner's two tests decide a pop. -/
theorem theStep_popped {s s' : TheState α} {label : TheLabel α} (notCompare : label ≠ .popCompare)
    (notTest : label ≠ .popTest) (taken : theStep s label = some s') : s'.popped = s.popped := by
  cases label <;> simp only [theStep] at taken <;> (repeat' split at taken) <;> simp_all <;>
    subst taken <;> rfl

/-- Only a thief's read of its frame completes a steal. -/
theorem theStep_stolenFrames {s s' : TheState α} {label : TheLabel α}
    (notFetch : label ≠ .fetchFrame) (taken : theStep s label = some s') :
    s'.stolenFrames = s.stolenFrames := by
  cases label <;> simp only [theStep] at taken <;> (repeat' split at taken) <;> simp_all <;>
    subst taken <;> rfl

/-- The steps of the others leave the owner's data alone. -/
theorem theStep_foreign {s s' : TheState α} {label : TheLabel α} (foreign : label.Foreign)
    (taken : theStep s label = some s') :
    (s'.owner = s.owner ∨ s.owner = .suspended ∧ s'.owner = .running) ∧ s'.ltq = s.ltq ∧
      s'.tail = s.tail ∧ s'.spawned = s.spawned := by
  cases label <;> simp only [TheLabel.Foreign] at foreign <;> simp only [theStep] at taken <;>
    (repeat' split at taken) <;> simp_all <;> subst taken <;> simp_all

/-- Only a push leads to the store of `tail` that ends it. -/
theorem theStep_pushTail {s s' : TheState α} {label : TheLabel α}
    (taken : theStep s label = some s') (pc : s'.owner = .pushTail) :
    label.Foreign ∨ ∃ frame, label = .pushSlot frame := by
  cases label <;> simp only [TheLabel.Foreign, true_or, false_or, theStep] at taken ⊢ <;>
    (repeat' split at taken) <;> simp_all <;> subst taken <;> simp [popSucceed] at pc

/-- A thief that has read its frame stays where it is until it unlocks. -/
theorem TheInv.detached_of_step {s s' : TheState α} {label : TheLabel α} {sf : Option (Pushed α)}
    (inv : TheInv s) (detached : s.thief = .detached sf) (held : label ≠ .thiefUnlock)
    (taken : theStep s label = some s') : s'.thief = .detached sf := by
  have notFree := (inv.lock_held (by simp [detached])).1
  cases label <;> simp only [theStep] at taken <;> (repeat' split at taken) <;> simp_all <;>
    subst taken <;> simp_all [popSucceed]

end Unread

/-! ### The fibers that are due -/

section Fibers

variable {φ : Type}

/-- The fibers of the futures that frames of the list spawned. -/
def futures (frames : List (Pushed (Option φ))) : List φ := frames.filterMap Pushed.frame

@[simp] theorem futures_append (xs ys : List (Pushed (Option φ))) :
    futures (xs ++ ys) = futures xs ++ futures ys := List.filterMap_append

/-- The fiber that is in the queue while its future's parent is not in the deque. -/
def FiberOwnerPc.extra : FiberOwnerPc φ → List φ
  | .enqueued fiber | .popTail fiber | .popTailAssert fiber _ | .popTailStore fiber _ => [fiber]
  | _ => []

@[simp] theorem FiberOwnerPc.extra_idle : (idle : FiberOwnerPc φ).extra = [] := rfl

/-- The fiber that is in the queue while its future's parent is in the thief's hands. -/
def FiberThiefPc.awaited : FiberThiefPc φ → List φ
  | .popHead fiber => [fiber]
  | _ => []

/-- The fiber whose future returned and that is not dropped yet. -/
def FiberOwnerPc.pending : FiberOwnerPc φ → List φ
  | .popTail fiber | .popTailAssert fiber _ | .popTailStore fiber _ | .popTailReturn fiber _ =>
      [fiber]
  | _ => []

@[simp] theorem FiberOwnerPc.pending_idle : (idle : FiberOwnerPc φ).pending = [] := rfl

@[simp] theorem FiberOwnerPc.pending_resetHead : (resetHead : FiberOwnerPc φ).pending = [] := rfl

/-- The fiber whose future's parent was stolen and that is not popped yet. -/
def FiberThiefPc.pending : FiberThiefPc φ → List φ
  | .popHead fiber | .popHeadAssert fiber _ | .popHeadReturn fiber _ => [fiber]
  | _ => []

/-- The fibers the queue should hold, first to last. -/
def FiberState.due (s : FiberState φ) : List φ :=
  s.thief.awaited ++ futures s.the.unread ++ s.owner.extra

/-- Where in the THE protocol the owner is while it is in the queue's functions. -/
def FiberOwnerPc.At : FiberOwnerPc φ → OwnerPc → Prop
  | .idle, _ => True
  | .enqueued _, owner => owner = .running ∨ owner = .pushTail
  | .popTail _, owner => owner = .running ∨ owner = .unlock
  | .resetHead, owner => owner = .running ∨ owner = .unlock ∨ owner = .popUndo
  | .failed, _ => False
  | _, owner => owner = .running

/-- What the owner knows of the queue's slots. -/
def FiberOwnerPc.Slots : FiberOwnerPc φ → Int → (Int → Option φ) → Prop
  | .enqueueAssert fiber, fiberTail, fiberLtq | .enqueueTail fiber, fiberTail, fiberLtq =>
      fiberLtq fiberTail = some fiber
  | .popTailAssert _ t, fiberTail, _ | .popTailStore _ t, fiberTail, _ => t = fiberTail - 1
  | .popTailReturn fiber t, fiberTail, fiberLtq => t = fiberTail ∧ fiberLtq t = some fiber
  | _, _, _ => True

/-- What the thief knows while it pops a fiber. -/
def FiberThiefPc.Locals : FiberThiefPc φ → ThiefPc (Option φ) → Int → (Int → Option φ) → Prop
  | .idle, _, _, _ => True
  | .popHead _, the, _, _ => ∃ sf, the = .detached sf
  | .popHeadAssert fiber h, the, fiberHead, fiberLtq
  | .popHeadReturn fiber h, the, fiberHead, fiberLtq =>
      (∃ sf, the = .detached sf) ∧ h < fiberHead ∧ fiberLtq h = some fiber
  | .failed, _, _, _ => False

/-- The queue holds the fibers that are due. -/
structure FiberInv (s : FiberState φ) : Prop where
  the : TheInv s.the
  position : s.owner.At s.the.owner
  pushing : s.the.owner = .pushTail → (s.owner = .idle ∨ s.owner.payload ≠ none) ∧
    ∃ ticket, s.the.ltq s.the.tail = some ⟨ticket, s.owner.payload⟩
  resetting : s.owner = .resetHead ∨ s.owner = .resetTail →
    s.the.spawned = [] ∧ s.the.fetching = [] ∧ s.thief = .idle
  slots : s.owner.Slots s.fiberTail s.fiberLtq
  stealing : s.thief.Locals s.the.thief s.fiberHead s.fiberLtq
  segment : s.owner ≠ .resetTail → Segment s.fiberLtq s.fiberHead s.due
  count : s.owner ≠ .resetTail → s.fiberHead + s.due.length = s.fiberTail
  headPops_right : ∀ pop ∈ s.headPops, pop.popped = some pop.running
  tailPops_right : ∀ pop ∈ s.tailPops, pop.popped = some pop.running
  headPops_frames :
    s.headPops.map FiberPop.running ++ s.thief.pending = futures s.the.stolenFrames
  tailPops_frames : s.tailPops.map FiberPop.running ++ s.owner.pending = futures s.the.popped

theorem FiberInv.of_initial (ltqLimit protectedTail fiberLtqLimit : Int) :
    FiberInv (.initial φ ltqLimit protectedTail fiberLtqLimit) where
  the := .of_initial ltqLimit protectedTail
  position := trivial
  pushing := by simp [FiberState.initial, TheState.initial]
  resetting := by simp [FiberState.initial]
  slots := trivial
  stealing := trivial
  segment := fun _ => .nil
  count := fun _ => rfl
  headPops_right := by simp [FiberState.initial]
  tailPops_right := by simp [FiberState.initial]
  headPops_frames := rfl
  tailPops_frames := rfl

/-! ### Steps of the THE protocol -/

/-- The fiber a pop makes due again is that of the popped frame. -/
theorem FiberOwnerPc.extra_afterPop (frame : Option (Pushed (Option φ))) :
    (afterPop frame).extra = futures frame.toList := by
  rcases frame with _ | ⟨ticket, _ | fiber⟩ <;> rfl

theorem FiberOwnerPc.pending_afterPop (frame : Option (Pushed (Option φ))) :
    (afterPop frame).pending = futures frame.toList := by
  rcases frame with _ | ⟨ticket, _ | fiber⟩ <;> rfl

theorem FiberOwnerPc.next_quiet {label : TheLabel (Option φ)} (pc : FiberOwnerPc φ)
    (s s' : TheState (Option φ)) (quiet : label.Quiet) : pc.next label s s' = pc := by
  cases label <;> simp [TheLabel.Quiet] at quiet <;> rfl

theorem FiberOwnerPc.next_foreign {label : TheLabel (Option φ)} (pc : FiberOwnerPc φ)
    (s s' : TheState (Option φ)) (foreign : label.Foreign) : pc.next label s s' = pc := by
  cases label <;> simp [TheLabel.Foreign] at foreign <;> rfl

theorem FiberThiefPc.next_of_ne {label : TheLabel (Option φ)} (pc : FiberThiefPc φ)
    (s' : TheState (Option φ)) (ne : label ≠ .fetchFrame) : pc.next label s' = pc := by
  unfold FiberThiefPc.next
  split
  · simp at ne
  · rfl

/-- A thief that pops a fiber has read its frame. -/
theorem FiberInv.thief_idle {s : FiberState φ} (inv : FiberInv s)
    (undetached : ∀ sf, s.the.thief ≠ .detached sf) : s.thief = .idle := by
  have locals := inv.stealing
  cases pc : s.thief <;> simp [pc, FiberThiefPc.Locals, undetached] at locals ⊢

/-- A step of the THE protocol changes neither the fibers that are due nor their order. -/
theorem FiberInv.due_the {s : FiberState φ} {label : TheLabel (Option φ)}
    {the : TheState (Option φ)} (inv : FiberInv s) (allowed : s.owner.Allows label)
    (taken : theStep s.the label = some the) :
    (s.thief.next label the).awaited ++ futures the.unread ++
      (s.owner.next label s.the the).extra = s.due := by
  by_cases quiet : label.Quiet
  · obtain ⟨fetching, frames⟩ := inv.the.unread_quiet quiet taken
    rw [FiberOwnerPc.next_quiet _ _ _ quiet, FiberThiefPc.next_of_ne]
    · simp only [FiberState.due, TheState.unread, fetching, frames]
    · rintro rfl
      exact quiet
  cases label <;> simp only [TheLabel.Quiet, not_true_eq_false] at quiet
  case pushSlot frame =>
    rw [FiberThiefPc.next_of_ne _ _ (by simp), (inv.the.unread_pushSlot taken).1]
    rfl
  case pushTail =>
    obtain ⟨pc, -, unread⟩ := unread_pushTail taken
    obtain ⟨window, ticket, stored⟩ := inv.pushing pc
    have extra : s.owner.extra = s.owner.payload.toList := by
      cases owner : s.owner <;> simp [owner, FiberOwnerPc.payload] at window <;> rfl
    rw [FiberThiefPc.next_of_ne _ _ (by simp), unread, stored, FiberState.due, extra]
    cases s.owner.payload <;> simp [futures, FiberOwnerPc.next, FiberOwnerPc.extra]
  case popCompare =>
    have idle : s.owner = .idle := by
      simpa [FiberOwnerPc.Allows, TheLabel.Foreign] using allowed
    rw [FiberThiefPc.next_of_ne _ _ (by simp), FiberState.due]
    rcases inv.the.unread_popCompare taken with ⟨pc, unread, -⟩ | ⟨pc, unread, -⟩
    · simp [FiberOwnerPc.next, pc, unread]
    · simp [FiberOwnerPc.next, pc, unread, idle, FiberOwnerPc.extra_afterPop]
  case popTest =>
    have idle : s.owner = .idle := by
      simpa [FiberOwnerPc.Allows, TheLabel.Foreign] using allowed
    rw [FiberThiefPc.next_of_ne _ _ (by simp), FiberState.due]
    rcases (inv.the.unread_popTest taken).2 with ⟨pc, unread, -⟩ | ⟨pc, unread, -⟩
    · simp [FiberOwnerPc.next, pc, unread, idle, FiberOwnerPc.extra]
    · simp [FiberOwnerPc.next, pc, unread, idle, FiberOwnerPc.extra_afterPop]
  case advanceHead =>
    rw [FiberThiefPc.next_of_ne _ _ (by simp), (inv.the.unread_advanceHead taken).2]
    rfl
  case fetchFrame =>
    obtain ⟨⟨ticket, frame⟩, fetching, detached, unread, -⟩ := inv.the.unread_fetchFrame taken
    have idle : s.thief = .idle := by
      apply inv.thief_idle
      intro sf pc
      simp [TheState.fetching, pc] at fetching
    cases frame <;>
      simp [FiberState.due, idle, FiberThiefPc.next, FiberOwnerPc.next, detached, unread, futures,
        FiberThiefPc.awaited]

/-- The queue's functions are called from user code and after the locked check. -/
theorem FiberInv.position_the {s : FiberState φ} {label : TheLabel (Option φ)}
    {the : TheState (Option φ)} (inv : FiberInv s) (allowed : s.owner.Allows label)
    (taken : theStep s.the label = some the) :
    (s.owner.next label s.the the).At the.owner := by
  have position := inv.position
  by_cases foreign : label.Foreign
  · rw [FiberOwnerPc.next_foreign _ _ _ foreign]
    rcases (theStep_foreign foreign taken).1 with owner | ⟨suspended, -⟩
    · rwa [owner]
    · cases pc : s.owner <;> simp_all [FiberOwnerPc.At]
  have afterPop : ∀ frame, the.owner = .running ∨ the.owner = .unlock →
      (FiberOwnerPc.afterPop frame : FiberOwnerPc φ).At the.owner := by
    rintro (_ | ⟨ticket, _ | fiber⟩) owner
    · trivial
    · trivial
    · exact owner
  cases label <;> simp only [TheLabel.Foreign, not_true_eq_false, not_false_eq_true] at foreign
  case pushSlot frame =>
    have pushed := (inv.the.unread_pushSlot taken).2.1
    obtain ⟨-, idle | payload⟩ := allowed
    · simp [FiberOwnerPc.next, idle, FiberOwnerPc.At]
    · cases pc : s.owner <;> simp [pc, FiberOwnerPc.payload] at payload
      exact .inr pushed
  case pushTail => trivial
  case popCompare =>
    rcases inv.the.unread_popCompare taken with ⟨pc, -⟩ | ⟨pc, -⟩
    · have idle : s.owner = .idle := by simpa [FiberOwnerPc.Allows, TheLabel.Foreign] using allowed
      simp [FiberOwnerPc.next, pc, idle, FiberOwnerPc.At]
    · simpa [FiberOwnerPc.next, pc] using afterPop s.the.spawned.getLast? (.inl pc)
  case popTest =>
    rcases (inv.the.unread_popTest taken).2 with ⟨pc, -⟩ | ⟨pc, -⟩
    · simp [FiberOwnerPc.next, pc, FiberOwnerPc.At]
    · simpa [FiberOwnerPc.next, pc] using afterPop s.the.spawned.getLast? (.inr pc)
  case popUndo =>
    cases pc : s.the.owner <;> simp [theStep, pc] at taken
    subst taken
    cases owner : s.owner <;> simp_all [FiberOwnerPc.At, FiberOwnerPc.next]
  case ownerUnlock =>
    cases pc : s.the.owner <;> simp [theStep, pc] at taken
    subst taken
    cases owner : s.owner <;> simp_all [FiberOwnerPc.At, FiberOwnerPc.next]
  all_goals
    have idle : s.owner = .idle := by simpa [FiberOwnerPc.Allows, TheLabel.Foreign] using allowed
    simp [FiberOwnerPc.next, idle, FiberOwnerPc.At]

/-- A push stores the frame of the future whose fiber was enqueued. -/
theorem FiberInv.pushing_the {s : FiberState φ} {label : TheLabel (Option φ)}
    {the : TheState (Option φ)} (inv : FiberInv s) (allowed : s.owner.Allows label)
    (taken : theStep s.the label = some the) (pc : the.owner = .pushTail) :
    (s.owner.next label s.the the = .idle ∨ (s.owner.next label s.the the).payload ≠ none) ∧
      ∃ ticket, the.ltq the.tail = some ⟨ticket, (s.owner.next label s.the the).payload⟩ := by
  rcases theStep_pushTail taken pc with foreign | ⟨frame, rfl⟩
  · obtain ⟨owner | ⟨-, running⟩, ltq, tail, -⟩ := theStep_foreign foreign taken
    · rw [FiberOwnerPc.next_foreign _ _ _ foreign, ltq, tail]
      exact inv.pushing (owner ▸ pc)
    · simp [running] at pc
  · obtain ⟨rfl, window⟩ := allowed
    exact ⟨window, _, (inv.the.unread_pushSlot taken).2.2⟩

/-- The owner leaves the queue's functions only through a pop or a failed one. -/
theorem FiberOwnerPc.next_cases (pc : FiberOwnerPc φ) (label : TheLabel (Option φ))
    (s s' : TheState (Option φ)) :
    pc.next label s s' = pc ∨ pc.next label s s' = .idle ∨
      (∃ fiber, pc.next label s s' = .popTail fiber) ∨
      pc.next label s s' = .resetHead ∧ label = .popTest ∧ s'.owner = .popUndo := by
  have afterPop : ∀ frame : Option (Pushed (Option φ)),
      afterPop frame = .idle ∨ ∃ fiber, afterPop frame = .popTail fiber := by
    rintro (_ | ⟨ticket, _ | fiber⟩)
    · exact .inl rfl
    · exact .inl rfl
    · exact .inr ⟨fiber, rfl⟩
  unfold FiberOwnerPc.next
  split
  · exact .inr (.inl rfl)
  · split
    · exact .inr ((afterPop _).imp_right .inl)
    · exact .inl rfl
  · split
    · rename_i undo
      exact .inr (.inr (.inr ⟨rfl, rfl, undo⟩))
    · exact .inr ((afterPop _).imp_right .inl)
  · exact .inl rfl

theorem FiberOwnerPc.next_resetTail {label : TheLabel (Option φ)} (s s' : TheState (Option φ))
    (allowed : (resetTail : FiberOwnerPc φ).Allows label) :
    (resetTail : FiberOwnerPc φ).next label s s' = .resetTail := by
  cases label <;> simp [Allows, TheLabel.Foreign, payload] at allowed <;> rfl

/-- While the queue is reset no thief has a frame to take. -/
theorem FiberInv.resetting_the {s : FiberState φ} {label : TheLabel (Option φ)}
    {the : TheState (Option φ)} (inv : FiberInv s) (allowed : s.owner.Allows label)
    (taken : theStep s.the label = some the)
    (pc : s.owner.next label s.the the = .resetHead ∨ s.owner.next label s.the the = .resetTail) :
    the.spawned = [] ∧ the.fetching = [] ∧ s.thief.next label the = .idle := by
  have stay (resetting : s.owner = .resetHead ∨ s.owner = .resetTail) :
      the.spawned = [] ∧ the.fetching = [] ∧ s.thief.next label the = .idle := by
    obtain ⟨spawned, fetching, idle⟩ := inv.resetting resetting
    have notFetch : label ≠ .fetchFrame := by
      rintro rfl
      obtain ⟨x, full, -⟩ := inv.the.unread_fetchFrame taken
      simp [fetching] at full
    have spawnedEq : the.spawned = [] := by
      by_cases foreign : label.Foreign
      · rw [(theStep_foreign foreign taken).2.2.2, spawned]
      · rcases resetting with owner | owner <;> rw [owner] at allowed <;> cases label <;>
          simp [FiberOwnerPc.Allows, TheLabel.Foreign, FiberOwnerPc.payload] at allowed foreign <;>
          simp only [theStep] at taken <;> split at taken <;> simp_all <;> subst taken <;> simp_all
    refine ⟨spawnedEq, ?_, ?_⟩
    · by_cases quiet : label.Quiet
      · rw [(inv.the.unread_quiet quiet taken).1, fetching]
      · have empty := inv.the.frames_nil spawned
        cases label <;> simp only [TheLabel.Quiet, not_true_eq_false] at quiet
        case advanceHead => exact absurd empty (inv.the.unread_advanceHead taken).1
        case fetchFrame => exact absurd rfl notFetch
        all_goals
          rcases resetting with owner | owner <;>
            simp [owner, FiberOwnerPc.Allows, TheLabel.Foreign, FiberOwnerPc.payload] at allowed
    · rw [FiberThiefPc.next_of_ne _ _ notFetch, idle]
  rcases s.owner.next_cases label s.the the with same | idle | ⟨fiber, popping⟩ | ⟨-, rfl, undo⟩
  · exact stay (same ▸ pc)
  · simp [idle] at pc
  · simp [popping] at pc
  · obtain ⟨testing, ⟨-, -, -, spawned⟩ | ⟨other, -⟩⟩ := inv.the.unread_popTest taken
    · have none := inv.the.thief_none (by simp [testing, OwnerPc.Locked])
      have sameThief : the.thief = s.the.thief := by
        simp only [theStep, testing] at taken
        split at taken <;> cases taken <;> rfl
      refine ⟨spawned, by simp [TheState.fetching, sameThief, none], ?_⟩
      rw [FiberThiefPc.next_of_ne _ _ (by simp)]
      exact inv.thief_idle (by simp [none])
    · simp [undo] at other

theorem FiberInv.stealing_the {s : FiberState φ} {label : TheLabel (Option φ)}
    {the : TheState (Option φ)} (inv : FiberInv s) (held : label = .thiefUnlock → s.thief = .idle)
    (taken : theStep s.the label = some the) :
    (s.thief.next label the).Locals the.thief s.fiberHead s.fiberLtq := by
  by_cases fetch : label = .fetchFrame
  · subst fetch
    obtain ⟨⟨ticket, frame⟩, fetching, detached, -, -⟩ := inv.the.unread_fetchFrame taken
    have idle : s.thief = .idle := by
      apply inv.thief_idle
      intro sf pc
      simp [TheState.fetching, pc] at fetching
    cases frame with
    | none => simp [FiberThiefPc.next, detached, idle, FiberThiefPc.Locals]
    | some fiber => simp [FiberThiefPc.next, detached, FiberThiefPc.Locals]
  · rw [FiberThiefPc.next_of_ne _ _ fetch]
    have locals := inv.stealing
    have stays : s.thief ≠ .idle → ∀ sf, s.the.thief = .detached sf → the.thief = .detached sf :=
      fun working sf detached =>
        inv.the.detached_of_step detached (fun unlock => working (held unlock)) taken
    cases pc : s.thief with
    | idle => trivial
    | popHead fiber =>
        rw [pc] at locals
        obtain ⟨sf, detached⟩ := locals
        exact ⟨sf, stays (by simp [pc]) sf detached⟩
    | popHeadAssert fiber h =>
        rw [pc] at locals
        obtain ⟨⟨sf, detached⟩, slot⟩ := locals
        exact ⟨⟨sf, stays (by simp [pc]) sf detached⟩, slot⟩
    | popHeadReturn fiber h =>
        rw [pc] at locals
        obtain ⟨⟨sf, detached⟩, slot⟩ := locals
        exact ⟨⟨sf, stays (by simp [pc]) sf detached⟩, slot⟩
    | failed =>
        rw [pc] at locals
        exact locals.elim

/-- A steal of a future's parent leaves its fiber to the thief. -/
theorem FiberInv.headPops_the {s : FiberState φ} {label : TheLabel (Option φ)}
    {the : TheState (Option φ)} (inv : FiberInv s) (taken : theStep s.the label = some the) :
    s.headPops.map FiberPop.running ++ (s.thief.next label the).pending =
      futures the.stolenFrames := by
  have before := inv.headPops_frames
  by_cases fetch : label = .fetchFrame
  · subst fetch
    obtain ⟨⟨ticket, frame⟩, fetching, detached, -, stolen⟩ := inv.the.unread_fetchFrame taken
    have idle : s.thief = .idle := by
      apply inv.thief_idle
      intro sf pc
      simp [TheState.fetching, pc] at fetching
    rw [stolen, futures_append, ← before]
    cases frame <;> simp [FiberThiefPc.next, detached, idle, FiberThiefPc.pending, futures]
  · rw [FiberThiefPc.next_of_ne _ _ fetch, theStep_stolenFrames fetch taken, before]

/-- A pop of a future's parent leaves the future's fiber to the owner. -/
theorem FiberInv.tailPops_the {s : FiberState φ} {label : TheLabel (Option φ)}
    {the : TheState (Option φ)} (inv : FiberInv s) (allowed : s.owner.Allows label)
    (taken : theStep s.the label = some the) :
    s.tailPops.map FiberPop.running ++ (s.owner.next label s.the the).pending =
      futures the.popped := by
  have before := inv.tailPops_frames
  by_cases compare : label = .popCompare
  · subst compare
    have idle : s.owner = .idle := by simpa [FiberOwnerPc.Allows, TheLabel.Foreign] using allowed
    rw [idle] at before ⊢
    rcases inv.the.unread_popCompare taken with ⟨pc, -, popped⟩ | ⟨pc, -, popped⟩
    · simpa [FiberOwnerPc.next, pc, popped] using before
    · rw [popped, futures_append, ← before]
      simp [FiberOwnerPc.next, pc, FiberOwnerPc.pending_afterPop]
  by_cases test : label = .popTest
  · subst test
    have idle : s.owner = .idle := by simpa [FiberOwnerPc.Allows, TheLabel.Foreign] using allowed
    rw [idle] at before ⊢
    rcases (inv.the.unread_popTest taken).2 with ⟨pc, -, popped, -⟩ | ⟨pc, -, popped⟩
    · simpa [FiberOwnerPc.next, pc, popped] using before
    · rw [popped, futures_append, ← before]
      simp [FiberOwnerPc.next, pc, FiberOwnerPc.pending_afterPop]
  rw [theStep_popped compare test taken, ← before]
  congr 1
  cases label <;> try rfl
  · -- A push ends in the owner's code outside the queue's functions.
    have window : s.owner = .idle ∨ s.owner.payload ≠ none := allowed
    cases pc : s.owner <;> simp_all [FiberOwnerPc.payload, FiberOwnerPc.pending, FiberOwnerPc.next]
  all_goals contradiction

/-- Every step of the THE protocol keeps the queue's invariant. -/
theorem FiberInv.of_the [DecidableEq φ] {s s' : FiberState φ} {label : TheLabel (Option φ)}
    (inv : FiberInv s) (taken : fiberStep s (.the label) = some s') : FiberInv s' := by
  simp only [fiberStep] at taken
  split at taken
  · rename_i due
    obtain ⟨allowed, held⟩ := due
    cases stepped : theStep s.the label with
    | none => simp [stepped] at taken
    | some the =>
        rw [stepped, Option.some.injEq] at taken
        subst taken
        have dueEq := inv.due_the allowed stepped
        have leaves := s.owner.next_cases label s.the the
        have notReset : s.owner.next label s.the the ≠ .resetTail → s.owner ≠ .resetTail := by
          intro next resetTail
          rw [resetTail] at allowed next
          exact next (FiberOwnerPc.next_resetTail _ _ allowed)
        refine
          { inv with
            the := inv.the.of_step stepped, position := inv.position_the allowed stepped
            pushing := inv.pushing_the allowed stepped
            resetting := inv.resetting_the allowed stepped, slots := ?_
            stealing := inv.stealing_the held stepped, segment := ?_, count := ?_
            headPops_frames := inv.headPops_the stepped
            tailPops_frames := inv.tailPops_the allowed stepped }
        · rcases leaves with same | idle | ⟨fiber, popping⟩ | ⟨resetHead, -⟩
          · change (s.owner.next label s.the the).Slots _ _
            rw [same]
            exact inv.slots
          · simp [idle, FiberOwnerPc.Slots]
          · simp [popping, FiberOwnerPc.Slots]
          · simp [resetHead, FiberOwnerPc.Slots]
        · intro next
          change Segment _ _ (_ ++ futures the.unread ++ _)
          rw [dueEq]
          exact inv.segment (notReset next)
        · intro next
          change _ + ((_ ++ futures the.unread ++ _ : List φ).length : Int) = _
          rw [dueEq]
          exact inv.count (notReset next)
  · simp at taken

/-- The queue is empty when it is reset. -/
theorem FiberInv.due_nil {s : FiberState φ} (inv : FiberInv s)
    (resetting : s.owner = .resetHead ∨ s.owner = .resetTail) : s.due = [] := by
  obtain ⟨spawned, fetching, idle⟩ := inv.resetting resetting
  have extra : s.owner.extra = [] := by rcases resetting with pc | pc <;> rw [pc] <;> rfl
  simp [FiberState.due, TheState.unread, fetching, inv.the.frames_nil spawned, idle, extra, futures,
    FiberThiefPc.awaited]

/-! ### Steps of the queue's functions -/

/-- A step of the owner in the queue's functions that takes the fibers that are due with it. -/
theorem FiberInv.of_ownerStep {s : FiberState φ} {owner : FiberOwnerPc φ} {fiberTail : Int}
    {fiberLtq : Int → Option φ} {tailPops : List (FiberPop φ)} (inv : FiberInv s) (running : s.the.owner = .running)
    (position : owner.At .running) (notHead : owner ≠ .resetHead) (notTail : s.owner ≠ .resetTail)
    (notTail' : owner ≠ .resetTail) (slots : owner.Slots fiberTail fiberLtq)
    (below : ∀ i, i < s.fiberTail → fiberLtq i = s.fiberLtq i)
    (segment : Segment fiberLtq s.fiberHead
      (s.thief.awaited ++ futures s.the.unread ++ owner.extra))
    (count : s.fiberHead + (s.thief.awaited ++ futures s.the.unread ++ owner.extra).length =
      fiberTail)
    (right : ∀ pop ∈ tailPops, pop.popped = some pop.running)
    (pending : tailPops.map FiberPop.running ++ owner.pending =
      s.tailPops.map FiberPop.running ++ s.owner.pending) :
    FiberInv
      { s with
        owner := owner
        fiberTail := fiberTail
        fiberLtq := fiberLtq
        tailPops := tailPops } := by
  refine
    { inv with
      position := running ▸ position, pushing := ?_, resetting := ?_, slots := slots
      stealing := ?_, segment := fun _ => segment, count := fun _ => count
      tailPops_right := right, tailPops_frames := pending.trans inv.tailPops_frames }
  · intro pushing
    simp [running] at pushing
  · rintro (head | tail)
    · exact absurd head notHead
    · exact absurd tail notTail'
  · have locals := inv.stealing
    have bound : s.fiberHead ≤ s.fiberTail := by
      have := inv.count notTail
      omega
    cases pc : s.thief with
    | idle => trivial
    | popHead fiber => simpa [FiberThiefPc.Locals, pc] using locals
    | popHeadAssert fiber h =>
        simp only [FiberThiefPc.Locals, pc] at locals ⊢
        exact ⟨locals.1, locals.2.1, (below h (by omega)).trans locals.2.2⟩
    | popHeadReturn fiber h =>
        simp only [FiberThiefPc.Locals, pc] at locals ⊢
        exact ⟨locals.1, locals.2.1, (below h (by omega)).trans locals.2.2⟩
    | failed => simp [FiberThiefPc.Locals, pc] at locals

variable [DecidableEq φ]

theorem FiberInv.of_switchFibers {s s' : FiberState φ} {fiber : φ} (inv : FiberInv s)
    (taken : fiberStep s (.switchFibers fiber) = some s') : FiberInv s' := by
  simp only [fiberStep] at taken
  split at taken
  · rename_i due
    obtain ⟨idle, running⟩ := due
    cases taken
    have segment := inv.segment (by simp [idle])
    have count := inv.count (by simp [idle])
    simp only [FiberState.due, idle] at segment count
    exact inv.of_ownerStep running rfl (by simp) (by simp [idle]) (by simp) trivial
      (fun _ _ => rfl) segment count inv.tailPops_right (by rw [idle]; rfl)
  · simp at taken

theorem FiberInv.of_enqueueStore {s s' : FiberState φ} (inv : FiberInv s)
    (taken : fiberStep s .enqueueStore = some s') : FiberInv s' := by
  cases pc : s.owner <;> simp [fiberStep, pc] at taken
  subst taken
  have running : s.the.owner = .running := by simpa [pc, FiberOwnerPc.At] using inv.position
  have segment := inv.segment (by simp [pc])
  have count := inv.count (by simp [pc])
  simp only [FiberState.due, pc] at segment count
  apply inv.of_ownerStep running (by simp [FiberOwnerPc.At]) (by simp) (by simp [pc]) (by simp)
  · simp [FiberOwnerPc.Slots]
  · intro i below
    simp [Int.ne_of_lt below]
  · apply segment.congr
    intro i lower upper
    have below : i < s.fiberTail := by omega
    simp [Int.ne_of_lt below]
  · exact count
  · exact inv.tailPops_right
  · rw [pc]
    rfl

theorem FiberInv.of_enqueueAssert {s s' : FiberState φ} (inv : FiberInv s)
    (taken : fiberStep s .enqueueAssert = some s') : FiberInv s' := by
  cases pc : s.owner <;> simp [fiberStep, pc] at taken
  subst taken
  have running : s.the.owner = .running := by simpa [pc, FiberOwnerPc.At] using inv.position
  have slots := inv.slots
  have segment := inv.segment (by simp [pc])
  have count := inv.count (by simp [pc])
  simp only [FiberState.due, pc] at segment count slots
  split
  · exact inv.of_ownerStep running rfl (by simp) (by simp [pc]) (by simp) slots
      (fun _ _ => rfl) segment count inv.tailPops_right (by rw [pc]; rfl)
  · exact inv.of_ownerStep running rfl (by simp) (by simp [pc]) (by simp) trivial
      (fun _ _ => rfl) segment count inv.tailPops_right (by rw [pc]; rfl)

theorem FiberInv.of_enqueueTail {s s' : FiberState φ} (inv : FiberInv s)
    (taken : fiberStep s .enqueueTail = some s') : FiberInv s' := by
  cases pc : s.owner <;> simp [fiberStep, pc] at taken
  rename_i fiber
  subst taken
  have running : s.the.owner = .running := by simpa [pc, FiberOwnerPc.At] using inv.position
  have stored : s.fiberLtq s.fiberTail = some fiber := by
    simpa [pc, FiberOwnerPc.Slots] using inv.slots
  have segment := inv.segment (by simp [pc])
  have count := inv.count (by simp [pc])
  simp only [FiberState.due, pc, FiberOwnerPc.extra, List.append_nil] at segment count
  apply inv.of_ownerStep running (by simp [FiberOwnerPc.At]) (by simp) (by simp [pc]) (by simp)
  · trivial
  · exact fun _ _ => rfl
  · exact segment.push (by rw [count, stored])
  · rw [← count]
    simp only [FiberOwnerPc.extra, List.length_append, List.length_singleton]
    push_cast
    omega
  · exact inv.tailPops_right
  · rw [pc]
    rfl

theorem FiberInv.of_popTailRead {s s' : FiberState φ} (inv : FiberInv s)
    (taken : fiberStep s .popTailRead = some s') : FiberInv s' := by
  cases pc : s.owner <;> cases running : s.the.owner <;> simp [fiberStep, pc, running] at taken
  subst taken
  have segment := inv.segment (by simp [pc])
  have count := inv.count (by simp [pc])
  simp only [FiberState.due, pc] at segment count
  exact inv.of_ownerStep running rfl (by simp) (by simp [pc]) (by simp) rfl
    (fun _ _ => rfl) segment count inv.tailPops_right (by rw [pc]; rfl)

/-- The assertion of `__cilkrts_pop_tail_future_fiber` holds: the future's own fiber is in the queue. -/
theorem FiberInv.of_popTailAssert {s s' : FiberState φ} (inv : FiberInv s)
    (taken : fiberStep s .popTailAssert = some s') : FiberInv s' := by
  cases pc : s.owner <;> simp [fiberStep, pc] at taken
  rename_i fiber t
  subst taken
  have running : s.the.owner = .running := by simpa [pc, FiberOwnerPc.At] using inv.position
  have tEq : t = s.fiberTail - 1 := by simpa [pc, FiberOwnerPc.Slots] using inv.slots
  have segment := inv.segment (by simp [pc])
  have count := inv.count (by simp [pc])
  simp only [FiberState.due, pc] at segment count
  have holds : s.fiberHead ≤ t := by
    simp only [FiberOwnerPc.extra, List.length_append, List.length_singleton] at count
    push_cast at count
    omega
  rw [if_pos holds]
  exact inv.of_ownerStep running rfl (by simp) (by simp [pc]) (by simp) tEq
    (fun _ _ => rfl) segment count inv.tailPops_right (by rw [pc]; rfl)

theorem FiberInv.of_popTailStore {s s' : FiberState φ} (inv : FiberInv s)
    (taken : fiberStep s .popTailStore = some s') : FiberInv s' := by
  cases pc : s.owner <;> simp [fiberStep, pc] at taken
  rename_i fiber t
  subst taken
  have running : s.the.owner = .running := by simpa [pc, FiberOwnerPc.At] using inv.position
  have tEq : t = s.fiberTail - 1 := by simpa [pc, FiberOwnerPc.Slots] using inv.slots
  have segment := inv.segment (by simp [pc])
  have count := inv.count (by simp [pc])
  simp only [FiberState.due, pc, FiberOwnerPc.extra] at segment count
  have lengthEq : s.fiberHead + (s.thief.awaited ++ futures s.the.unread).length = t := by
    simp only [List.length_append, List.length_singleton] at count ⊢
    push_cast at count ⊢
    omega
  apply inv.of_ownerStep running (by simp [FiberOwnerPc.At]) (by simp) (by simp [pc]) (by simp)
  · refine ⟨rfl, ?_⟩
    rw [← lengthEq]
    exact segment.last
  · exact fun _ _ => rfl
  · simpa [FiberOwnerPc.extra] using segment.dropLast
  · simpa [FiberOwnerPc.extra] using lengthEq
  · exact inv.tailPops_right
  · rw [pc]
    rfl

theorem FiberInv.of_popTailReturn {s s' : FiberState φ} (inv : FiberInv s)
    (taken : fiberStep s .popTailReturn = some s') : FiberInv s' := by
  cases pc : s.owner <;> simp [fiberStep, pc] at taken
  rename_i fiber t
  subst taken
  have running : s.the.owner = .running := by simpa [pc, FiberOwnerPc.At] using inv.position
  obtain ⟨-, stored⟩ : t = s.fiberTail ∧ s.fiberLtq t = some fiber := by
    simpa [pc, FiberOwnerPc.Slots] using inv.slots
  have segment := inv.segment (by simp [pc])
  have count := inv.count (by simp [pc])
  simp only [FiberState.due, pc] at segment count
  refine inv.of_ownerStep running trivial (by simp) (by simp [pc]) (by simp) trivial
    (fun _ _ => rfl) segment count ?_ ?_
  · intro pop mem
    rcases List.mem_append.1 mem with old | new
    · exact inv.tailPops_right pop old
    · rw [List.mem_singleton.1 new]
      exact stored
  · simp [pc, FiberOwnerPc.pending]

theorem FiberInv.of_resetHead {s s' : FiberState φ} (inv : FiberInv s)
    (taken : fiberStep s .resetHead = some s') : FiberInv s' := by
  cases pc : s.owner <;> cases running : s.the.owner <;> simp [fiberStep, pc, running] at taken
  subst taken
  obtain ⟨spawned, fetching, idle⟩ := inv.resetting (.inl pc)
  exact
    { inv with
      position := running, pushing := by simp [running]
      resetting := fun _ => ⟨spawned, fetching, idle⟩, slots := trivial
      stealing := by simp [idle, FiberThiefPc.Locals], segment := by simp, count := by simp
      tailPops_frames := by simpa [pc, FiberOwnerPc.pending] using inv.tailPops_frames }

theorem FiberInv.of_resetTail {s s' : FiberState φ} (inv : FiberInv s)
    (taken : fiberStep s .resetTail = some s') : FiberInv s' := by
  cases pc : s.owner <;> simp [fiberStep, pc] at taken
  subst taken
  have running : s.the.owner = .running := by simpa [pc, FiberOwnerPc.At] using inv.position
  have empty := inv.due_nil (.inr pc)
  simp only [FiberState.due, pc] at empty
  refine
    { inv with
      position := trivial, pushing := by simp [running], resetting := by simp, slots := trivial
      segment := fun _ => ?_, count := fun _ => ?_
      tailPops_frames := by simpa [pc, FiberOwnerPc.pending] using inv.tailPops_frames }
  · change Segment _ _ (s.thief.awaited ++ futures s.the.unread ++ [])
    rw [show s.thief.awaited ++ futures s.the.unread ++ [] = [] from empty]
    exact .nil
  · change s.fiberHead + ((s.thief.awaited ++ futures s.the.unread ++ []).length : Int) = s.fiberHead
    rw [show s.thief.awaited ++ futures s.the.unread ++ [] = [] from empty]
    exact Int.add_zero _

/-- The thief pops the fiber of the frame it stole. -/
theorem FiberInv.of_popHeadAdvance {s s' : FiberState φ} (inv : FiberInv s)
    (taken : fiberStep s .popHeadAdvance = some s') : FiberInv s' := by
  cases pc : s.thief <;> simp [fiberStep, pc] at taken
  rename_i fiber
  subst taken
  have notReset : ¬ (s.owner = .resetHead ∨ s.owner = .resetTail) := by
    intro resetting
    simpa [pc] using (inv.resetting resetting).2.2
  have notTail : s.owner ≠ .resetTail := fun owner => notReset (.inr owner)
  have detached : ∃ sf, s.the.thief = .detached sf := by
    simpa [pc, FiberThiefPc.Locals] using inv.stealing
  have segment := inv.segment notTail
  have count := inv.count notTail
  simp only [FiberState.due, pc, FiberThiefPc.awaited] at segment count
  refine
    { inv with
      resetting := fun resetting => absurd resetting notReset
      stealing := ⟨detached, Int.lt_succ _, segment.first⟩
      segment := fun _ => ?_, count := fun _ => ?_
      headPops_frames := by simpa [pc, FiberThiefPc.pending] using inv.headPops_frames }
  · simpa [FiberState.due, FiberThiefPc.awaited] using segment.tail
  · change s.fiberHead + 1 + (([] ++ futures s.the.unread ++ s.owner.extra).length : Int) = s.fiberTail
    simp only [List.length_append, List.length_singleton, List.length_nil] at count ⊢
    push_cast at count ⊢
    omega

/-- The assertion of `__cilkrts_pop_head_future_fiber` holds. -/
theorem FiberInv.of_popHeadAssert {s s' : FiberState φ} (inv : FiberInv s)
    (taken : fiberStep s .popHeadAssert = some s') : FiberInv s' := by
  cases pc : s.thief <;> simp [fiberStep, pc] at taken
  rename_i fiber h
  subst taken
  have notReset : ¬ (s.owner = .resetHead ∨ s.owner = .resetTail) := by
    intro resetting
    simpa [pc] using (inv.resetting resetting).2.2
  have notTail : s.owner ≠ .resetTail := fun owner => notReset (.inr owner)
  have locals := inv.stealing
  have segment := inv.segment notTail
  have count := inv.count notTail
  have holds : s.fiberHead ≤ s.fiberTail := by omega
  simp only [FiberState.due, pc] at segment count
  rw [pc] at locals
  rw [if_pos holds]
  exact
    { inv with
      resetting := fun resetting => absurd resetting notReset
      stealing := locals, segment := fun _ => segment, count := fun _ => count
      headPops_frames := by simpa [pc, FiberThiefPc.pending] using inv.headPops_frames }

theorem FiberInv.of_popHeadReturn {s s' : FiberState φ} (inv : FiberInv s)
    (taken : fiberStep s .popHeadReturn = some s') : FiberInv s' := by
  cases pc : s.thief <;> simp [fiberStep, pc] at taken
  rename_i fiber h
  subst taken
  have notReset : ¬ (s.owner = .resetHead ∨ s.owner = .resetTail) := by
    intro resetting
    simpa [pc] using (inv.resetting resetting).2.2
  have notTail : s.owner ≠ .resetTail := fun owner => notReset (.inr owner)
  obtain ⟨-, -, stored⟩ :
      (∃ sf, s.the.thief = .detached sf) ∧ h < s.fiberHead ∧ s.fiberLtq h = some fiber := by
    simpa [pc, FiberThiefPc.Locals] using inv.stealing
  have segment := inv.segment notTail
  have count := inv.count notTail
  simp only [FiberState.due, pc] at segment count
  refine
    { inv with
      resetting := fun resetting => absurd resetting notReset
      stealing := trivial, segment := fun _ => segment, count := fun _ => count
      headPops_right := ?_
      headPops_frames := by simpa [pc, FiberThiefPc.pending] using inv.headPops_frames }
  intro pop mem
  rcases List.mem_append.1 mem with old | new
  · exact inv.headPops_right pop old
  · rw [List.mem_singleton.1 new]
    exact stored

/-! ### Runs -/

/-- Every step keeps the queue's invariant. -/
theorem FiberInv.of_step {s s' : FiberState φ} {label : FiberLabel φ} (inv : FiberInv s)
    (taken : fiberStep s label = some s') : FiberInv s' := by
  cases label with
  | the label => exact inv.of_the taken
  | switchFibers fiber => exact inv.of_switchFibers taken
  | enqueueStore => exact inv.of_enqueueStore taken
  | enqueueAssert => exact inv.of_enqueueAssert taken
  | enqueueTail => exact inv.of_enqueueTail taken
  | popTailRead => exact inv.of_popTailRead taken
  | popTailAssert => exact inv.of_popTailAssert taken
  | popTailStore => exact inv.of_popTailStore taken
  | popTailReturn => exact inv.of_popTailReturn taken
  | resetHead => exact inv.of_resetHead taken
  | resetTail => exact inv.of_resetTail taken
  | popHeadAdvance => exact inv.of_popHeadAdvance taken
  | popHeadAssert => exact inv.of_popHeadAssert taken
  | popHeadReturn => exact inv.of_popHeadReturn taken

/-- The queue's invariant holds after every interleaving. -/
theorem fiberInv_reachable {s : FiberState φ} (reachable : (fiberQueueMachine φ).Reachable s) :
    FiberInv s :=
  reachable.invariant (fun _ ⟨ltqLimit, protectedTail, fiberLtqLimit, initial⟩ =>
    initial ▸ .of_initial ltqLimit protectedTail fiberLtqLimit)
    (fun _ _ _ _ inv taken => inv.of_step taken)

/-- Under every interleaving: outside the windows of pushes, pops and steals the `k`-th frame from `head`
    that spawned a future corresponds to the `k`-th fiber from `fiber_head`, and the queue holds no other;
    every steal of a future's parent pops the fiber its future runs on, every return to an unstolen
    parent drops the future's own fiber; the two assertions hold; and the queue is empty at its reset. -/
theorem future_fiber_correspondence {s : FiberState φ}
    (reachable : (fiberQueueMachine φ).Reachable s) :
    Segment s.the.ltq s.the.head s.the.frames ∧
    (s.owner = .idle → s.thief = .idle → s.the.fetching = [] →
      Segment s.fiberLtq s.fiberHead (futures s.the.frames) ∧
        s.fiberTail = s.fiberHead + (futures s.the.frames).length) ∧
    (s.headPops.map FiberPop.running ++ s.thief.pending = futures s.the.stolenFrames ∧
      ∀ pop ∈ s.headPops, pop.popped = some pop.running) ∧
    (s.tailPops.map FiberPop.running ++ s.owner.pending = futures s.the.popped ∧
      ∀ pop ∈ s.tailPops, pop.popped = some pop.running) ∧
    (s.owner ≠ .failed ∧ s.thief ≠ .failed) ∧
    (s.owner = .resetHead → s.fiberHead = s.fiberTail ∧ futures s.the.unread = []) := by
  have inv := fiberInv_reachable reachable
  refine ⟨inv.the.segment, ?_, ⟨inv.headPops_frames, inv.headPops_right⟩,
    ⟨inv.tailPops_frames, inv.tailPops_right⟩, ⟨?_, ?_⟩, ?_⟩
  · intro ownerIdle thiefIdle unfetched
    have dueEq : s.due = futures s.the.frames := by
      simp [FiberState.due, TheState.unread, unfetched, ownerIdle, thiefIdle, FiberThiefPc.awaited]
    have segment := inv.segment (by simp [ownerIdle])
    have count := inv.count (by simp [ownerIdle])
    rw [dueEq] at segment count
    exact ⟨segment, count.symm⟩
  · intro failed
    simpa [failed, FiberOwnerPc.At] using inv.position
  · intro failed
    simpa [failed, FiberThiefPc.Locals] using inv.stealing
  · intro resetting
    have empty := inv.due_nil (.inl resetting)
    have count := inv.count (by simp [resetting])
    rw [empty] at count
    refine ⟨by simpa using count, ?_⟩
    simp only [FiberState.due, List.append_eq_nil_iff] at empty
    exact empty.1.2

/-- A future is spawned on fiber 3 and one inside it on fiber 4; a thief steals the parent of the first,
    the second returns to its parent, and the first finds its parent stolen. -/
def nestedFuturesTrace : List (FiberLabel (Fin 5)) :=
  [.switchFibers 3, .enqueueStore, .enqueueAssert, .enqueueTail, .the (.pushSlot (some 3)),
    .the .pushTail, .switchFibers 4, .enqueueStore, .enqueueAssert, .enqueueTail,
    .the (.pushSlot (some 4)), .the (.thiefLock 0), .the .incrementE, .the .testTail, .the .pushTail,
    .the .testProtected, .the .advanceHead, .the .popDecrement, .the .fetchFrame, .popHeadAdvance,
    .the .popCompare, .popHeadAssert, .popTailRead, .popHeadReturn, .the .thiefUnlock, .popTailAssert,
    .popTailStore, .popTailReturn, .the .popDecrement, .the .popCompare, .the .popLock, .the .popReset,
    .the .popTest, .the .popUndo, .the .ownerUnlock]

theorem future_fiber_correspondence_nested :
    ((fiberQueueMachine (Fin 5)).after (.initial _ 8 8 8) nestedFuturesTrace).headPops =
        [⟨3, some 3⟩] ∧
      ((fiberQueueMachine (Fin 5)).after (.initial _ 8 8 8) nestedFuturesTrace).fiberTail = 1 :=
  have start : (fiberQueueMachine (Fin 5)).Reachable (.initial _ 8 8 8) := .start ⟨8, 8, 8, rfl⟩
  ⟨by decide, ((future_fiber_correspondence (start.after nestedFuturesTrace)).2.2.2.2.2
    (by decide)).1.symm.trans (by decide)⟩

end Fibers

end CilkL
