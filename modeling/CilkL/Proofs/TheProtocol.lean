/-
Module: CilkL.Proofs.TheProtocol
Layer: Proofs
Purpose: The THE protocol loses no frame and gives none to two. The frames pushed and not consumed lie in
  the slots from `head` to `tail`, with the one the owner is popping still counted; `exc` runs one ahead
  of `head` exactly while a thief is in `dekker_protocol`, so an owner that decremented `tail` past it
  sees it and waits for the lock, and a thief that saw `head < tail` after raising it keeps a frame to
  take.
Imports: CilkL.Library.Segment, CilkL.Runtime.TheProtocol, Mathlib
Trusted boundary: none (fully proved)
Main exports: TheInv, TheInv.of_step, theInv_reachable, the_protocol
Open obligations: none
-/
import CilkL.Library.Segment
import CilkL.Runtime.TheProtocol
import Mathlib

namespace CilkL

variable {α : Type}

/-- 1 while `tail` is decremented for a frame whose pop is not decided or not undone. -/
def OwnerPc.owed : OwnerPc → Int
  | .popCompare _ | .popLock | .popReset | .popTest | .popUndo => 1
  | _ => 0

/-- The owner holds the lock. -/
def OwnerPc.Locked : OwnerPc → Prop
  | .popReset | .popTest | .popUndo | .unlock | .setupTail | .setupHead | .setupExc => True
  | _ => False

/-- 1 while a thief has raised `exc` and not advanced `head`. -/
def ThiefPc.raised : ThiefPc α → Int
  | .testTail | .testProtected | .decided | .decrement => 1
  | _ => 0

/-- The frame a thief took by advancing `head` and has not read yet. -/
def TheState.fetching (s : TheState α) : List (Pushed α) :=
  match s.thief with
  | .fetch h => (s.ltq h).toList
  | _ => []

/-- The frames thieves took. -/
def TheState.stolenFrames (s : TheState α) : List (Pushed α) := s.stolen.filterMap Steal.taken

/-- What the owner knows at its program point. -/
def TheState.OwnerLocals (s : TheState α) : Prop :=
  match s.owner with
  | .pushTail => ∃ frame, s.ltq s.tail = some ⟨s.pushed.length, frame⟩
  | .popCompare t => t = s.tail ∧ s.spawned ≠ []
  | .popLock | .popReset | .popTest => s.spawned ≠ []
  | .popUndo | .setupTail | .setupHead | .setupExc => s.spawned = []
  | _ => True

/-- What the holder of the lock knows at its program point. -/
def TheState.ThiefLocals (s : TheState α) : Prop :=
  match s.thief with
  | .testTail => s.lock = .self → s.head < s.tail ∧ s.head < s.protectedTail
  | .testProtected => s.frames ≠ [] ∧ (s.lock = .self → s.head < s.protectedTail)
  | .decided => s.frames ≠ [] ∧ s.head < s.protectedTail
  | .fetch h => h + 1 = s.head ∧ h < s.protectedTail ∧ ∃ x, s.ltq h = some x
  | .detached sf => ∃ x, sf = some x ∧ x ∈ s.stolenFrames
  | .decrement => s.lock ≠ .self
  | _ => True

/-- Where the frames are. -/
structure FrameInv (s : TheState α) : Prop where
  segment : Segment s.ltq s.head s.frames
  spawned_eq : ∃ gone, s.spawned = gone ++ s.frames ∧
    ∀ x ∈ gone, x ∈ s.stolenFrames ∨ x ∈ s.fetching
  /-- Every pushed frame is popped, stolen, in a thief's hands or in the deque, once. -/
  pushed_perm : (s.popped ++ s.stolenFrames ++ s.fetching ++ s.frames).Perm s.pushed
  tickets : s.pushed.map Pushed.ticket = List.range s.pushed.length
  stolen_slots : ∀ steal ∈ s.stolen, steal.slot < s.protectedTail ∧ ∃ x, steal.taken = some x
  checks_right : ∀ check ∈ s.checks, ∃ x, check.popping = some x ∧
    (check.stolen = true ∧ x ∈ s.stolenFrames ∨ check.stolen = false ∧ x ∈ s.popped)

/-- How the pointers and the lock fit together. -/
structure PointerInv (s : TheState α) : Prop where
  lock_owner : s.lock = .owner ↔ s.owner.Locked
  lock_thief : s.thief = .none ↔ s.lock = .free ∨ s.lock = .owner
  lock_self : s.lock = .self → s.owner = .suspended
  exc_eq : s.owner ≠ .setupExc → s.exc = s.head + s.thief.raised
  tail_eq : s.owner ≠ .setupHead → s.head + s.frames.length = s.tail + s.owner.owed
  ownerLocals : s.OwnerLocals
  thiefLocals : s.ThiefLocals

/-- The invariant of the THE protocol. -/
structure TheInv (s : TheState α) : Prop extends FrameInv s, PointerInv s

theorem TheInv.of_initial (ltqLimit protectedTail : Int) :
    TheInv (.initial α ltqLimit protectedTail) where
  segment := .nil
  spawned_eq := ⟨[], by simp [TheState.initial]⟩
  pushed_perm := by simp [TheState.initial, TheState.stolenFrames, TheState.fetching]
  tickets := by simp [TheState.initial]
  stolen_slots := by simp [TheState.initial]
  checks_right := by simp [TheState.initial]
  lock_owner := by simp [TheState.initial, OwnerPc.Locked]
  lock_thief := by simp [TheState.initial]
  lock_self := by simp [TheState.initial]
  exc_eq := by simp [TheState.initial, ThiefPc.raised]
  tail_eq := by simp [TheState.initial, OwnerPc.owed]
  ownerLocals := by simp [TheState.initial, TheState.OwnerLocals]
  thiefLocals := by simp [TheState.initial, TheState.ThiefLocals]

/-! ### Consequences of the invariant -/

/-- While the owner holds the lock no thief is at work. -/
theorem PointerInv.thief_none {s : TheState α} (inv : PointerInv s) (locked : s.owner.Locked) :
    s.thief = .none :=
  inv.lock_thief.2 (.inr (inv.lock_owner.2 locked))

/-- With no outstanding frame the deque is empty. -/
theorem FrameInv.frames_nil {s : TheState α} (inv : FrameInv s) (spawned : s.spawned = []) :
    s.frames = [] := by
  obtain ⟨gone, split, -⟩ := inv.spawned_eq
  rw [spawned] at split
  exact (List.append_eq_nil_iff.1 split.symm).2

/-- Every frame has its own ticket. -/
theorem FrameInv.pushed_nodup {s : TheState α} (inv : FrameInv s) : s.pushed.Nodup := by
  apply List.Nodup.of_map Pushed.ticket
  rw [inv.tickets]
  exact List.nodup_range

/-- Every frame is consumed at most once. -/
theorem FrameInv.nodup {s : TheState α} (inv : FrameInv s) :
    (s.popped ++ s.stolenFrames ++ s.fetching ++ s.frames).Nodup :=
  inv.pushed_perm.nodup_iff.2 inv.pushed_nodup

/-- A step that moves no frame keeps the frames' invariant. -/
theorem FrameInv.congr {s s' : TheState α} (inv : FrameInv s) (ltq : s'.ltq = s.ltq)
    (head : s'.head = s.head) (frames : s'.frames = s.frames) (spawned : s'.spawned = s.spawned)
    (pushed : s'.pushed = s.pushed) (popped : s'.popped = s.popped) (stolen : s'.stolen = s.stolen)
    (fetching : s'.fetching = s.fetching) (checks : s'.checks = s.checks)
    (limit : s'.protectedTail = s.protectedTail) : FrameInv s' := by
  have stolenFrames : s'.stolenFrames = s.stolenFrames := by rw [TheState.stolenFrames, stolen]; rfl
  exact
    { segment := by rw [ltq, head, frames]; exact inv.segment
      spawned_eq := by rw [spawned, frames, stolenFrames, fetching]; exact inv.spawned_eq
      pushed_perm := by rw [popped, stolenFrames, fetching, frames, pushed]; exact inv.pushed_perm
      tickets := by rw [pushed]; exact inv.tickets
      stolen_slots := by rw [stolen, limit]; exact inv.stolen_slots
      checks_right := by rw [checks, stolenFrames, popped]; exact inv.checks_right }

/-! ### The owner pushes and pops -/

/-- A thief that is about to read a slot reads one below `tail` when the owner is not popping. -/
theorem TheInv.fetch_ne_tail {s : TheState α} {h : Int} (inv : TheInv s) (pc : s.owner = .running)
    (fetch : s.thief = .fetch h) : h ≠ s.tail := by
  have tailEq : s.head + s.frames.length = s.tail := by
    simpa [pc, OwnerPc.owed] using inv.tail_eq (by simp [pc])
  have locals := inv.thiefLocals
  simp only [TheState.ThiefLocals, fetch] at locals
  omega

/-- A push does not change what a thief is about to read. -/
theorem TheInv.fetching_pushSlot {s : TheState α} (inv : TheInv s) (pc : s.owner = .running)
    (new : Pushed α) :
    TheState.fetching
      { s with
        ltq := fun i => if i = s.tail then some new else s.ltq i
        owner := .pushTail } = s.fetching := by
  simp only [TheState.fetching]
  split
  · rename_i h fetch
    rw [if_neg (inv.fetch_ne_tail pc fetch)]
  · rfl

theorem TheInv.of_pushSlot {s s' : TheState α} {frame : α} (inv : TheInv s)
    (taken : theStep s (.pushSlot frame) = some s') : TheInv s' := by
  cases pc : s.owner <;> simp [theStep, pc] at taken
  obtain ⟨-, rfl⟩ := taken
  have tailEq : s.head + s.frames.length = s.tail := by
    simpa [pc, OwnerPc.owed] using inv.tail_eq (by simp [pc])
  have fetched : ∀ h, s.thief = .fetch h → h ≠ s.tail := fun _ fetch => inv.fetch_ne_tail pc fetch
  have fetchingEq := inv.fetching_pushSlot pc ⟨s.pushed.length, frame⟩
  refine
    { inv with
      segment := ?_, spawned_eq := ?_, pushed_perm := ?_
      lock_owner := ?_, lock_self := ?_, exc_eq := ?_, tail_eq := ?_, ownerLocals := ?_
      thiefLocals := ?_ }
  · apply inv.segment.congr
    intro i lower upper
    have other : i ≠ s.tail := by omega
    simp [other]
  · rw [fetchingEq]
    exact inv.spawned_eq
  · rw [fetchingEq]
    exact inv.pushed_perm
  · simpa [pc, OwnerPc.Locked] using inv.lock_owner
  · intro self
    simpa [pc] using inv.lock_self self
  · intro _
    exact inv.exc_eq (by simp [pc])
  · intro _
    simpa [OwnerPc.owed] using tailEq
  · exact ⟨frame, by simp⟩
  · have locals := inv.thiefLocals
    simp only [TheState.ThiefLocals] at locals ⊢
    split at locals <;> simp_all [TheState.stolenFrames]

theorem TheInv.of_pushTail {s s' : TheState α} (inv : TheInv s)
    (taken : theStep s .pushTail = some s') : TheInv s' := by
  cases pc : s.owner <;> simp [theStep, pc] at taken
  subst taken
  obtain ⟨frame, stored⟩ : ∃ frame, s.ltq s.tail = some ⟨s.pushed.length, frame⟩ := by
    simpa [TheState.OwnerLocals, pc] using inv.ownerLocals
  have tailEq : s.head + s.frames.length = s.tail := by
    simpa [pc, OwnerPc.owed] using inv.tail_eq (by simp [pc])
  obtain ⟨gone, split, consumed⟩ := inv.spawned_eq
  refine
    { inv with
      segment := ?_, spawned_eq := ⟨gone, ?_, consumed⟩, pushed_perm := ?_, tickets := ?_
      lock_owner := ?_, lock_self := ?_, exc_eq := ?_, tail_eq := ?_, ownerLocals := trivial
      thiefLocals := ?_ }
  · simp only [stored, Option.toList_some]
    apply inv.segment.push
    rw [tailEq, stored]
  · simp [split, stored]
  · have perm := inv.pushed_perm.append_right (s.ltq s.tail).toList
    rwa [List.append_assoc] at perm
  · simp [stored, inv.tickets, List.range_succ]
  · simpa [pc, OwnerPc.Locked] using inv.lock_owner
  · intro self
    simpa [pc] using inv.lock_self self
  · intro _
    exact inv.exc_eq (by simp [pc])
  · intro _
    simp only [stored, Option.toList_some, List.length_append, List.length_singleton, OwnerPc.owed]
    push_cast
    omega
  · have locals := inv.thiefLocals
    have notSelf : s.lock ≠ .self := fun self => by simpa [pc] using inv.lock_self self
    simp only [TheState.ThiefLocals] at locals ⊢
    split at locals <;> simp_all [TheState.stolenFrames]

theorem TheInv.of_popDecrement {s s' : TheState α} (inv : TheInv s)
    (taken : theStep s .popDecrement = some s') : TheInv s' := by
  cases pc : s.owner <;> simp [theStep, pc] at taken
  obtain ⟨outstanding, rfl⟩ := taken
  have tailEq : s.head + s.frames.length = s.tail := by
    simpa [pc, OwnerPc.owed] using inv.tail_eq (by simp [pc])
  refine
    { inv with
      lock_owner := ?_, lock_self := ?_, exc_eq := ?_, tail_eq := ?_
      ownerLocals := ⟨rfl, outstanding⟩, thiefLocals := ?_ }
  · simpa [pc, OwnerPc.Locked] using inv.lock_owner
  · intro self
    simpa [pc] using inv.lock_self self
  · intro _
    exact inv.exc_eq (by simp [pc])
  · intro _
    simp only [OwnerPc.owed]
    omega
  · have locals := inv.thiefLocals
    have notSelf : s.lock ≠ .self := fun self => by simpa [pc] using inv.lock_self self
    simp only [TheState.ThiefLocals] at locals ⊢
    split at locals <;> simp_all [TheState.stolenFrames]

/-- A successful pop takes the last frame of the deque, which is the last outstanding one. -/
theorem FrameInv.of_popSucceed {s : TheState α} (inv : FrameInv s) (nonempty : s.frames ≠ []) :
    FrameInv (popSucceed s) ∧
      ∃ x, s.spawned.getLast? = some x ∧ x ∈ (popSucceed s).popped := by
  obtain ⟨init, x, framesEq⟩ : ∃ init x, s.frames = init ++ [x] :=
    ⟨s.frames.dropLast, s.frames.getLast nonempty, (List.dropLast_append_getLast nonempty).symm⟩
  obtain ⟨gone, split, consumed⟩ := inv.spawned_eq
  have last : s.spawned.getLast? = some x := by simp [split, framesEq]
  refine ⟨?_, x, last, by simp [popSucceed, last]⟩
  refine
    { segment := inv.segment.dropLast, spawned_eq := ⟨gone, ?_, consumed⟩, pushed_perm := ?_
      tickets := inv.tickets, stolen_slots := inv.stolen_slots, checks_right := ?_ }
  · simp only [popSucceed, split, framesEq, ← List.append_assoc, List.dropLast_concat]
  · have perm := inv.pushed_perm
    rw [framesEq] at perm
    refine List.Perm.trans ?_ perm
    simp only [popSucceed, last, framesEq, Option.toList_some, List.dropLast_concat]
    change (s.popped ++ [x] ++ s.stolenFrames ++ s.fetching ++ init).Perm _
    have swap : ([x] ++ (s.stolenFrames ++ s.fetching ++ init)).Perm
        (s.stolenFrames ++ s.fetching ++ init ++ [x]) := List.perm_append_comm
    simpa only [List.append_assoc] using swap.append_left s.popped
  · intro check mem
    obtain ⟨y, popping, right⟩ := inv.checks_right check mem
    refine ⟨y, popping, right.imp_right fun unstolen => ⟨unstolen.1, ?_⟩⟩
    simp [popSucceed, unstolen.2]

/-- The comparison with `exc` lets the owner pop without the lock only a frame of the deque. -/
theorem PointerInv.nonempty_of_compare {s : TheState α} {t : Int} (inv : PointerInv s)
    (pc : s.owner = .popCompare t) (safe : ¬ t < s.exc) : s.frames ≠ [] := by
  intro empty
  have locals := inv.ownerLocals
  simp only [TheState.OwnerLocals, pc] at locals
  have tailEq := inv.tail_eq (by simp [pc])
  have excEq := inv.exc_eq (by simp [pc])
  have raised : 0 ≤ s.thief.raised := by
    unfold ThiefPc.raised
    split <;> simp
  simp only [empty, List.length_nil, pc, OwnerPc.owed] at tailEq
  omega

/-- The locked check finds the deque nonempty unless the frame was stolen. -/
theorem PointerInv.nonempty_of_test {s : TheState α} (inv : PointerInv s)
    (pc : s.owner = .popTest) (within : s.head < s.tail + 1) : s.frames ≠ [] := by
  intro empty
  have tailEq := inv.tail_eq (by simp [pc])
  simp only [empty, List.length_nil, pc, OwnerPc.owed] at tailEq
  omega

theorem TheInv.of_popCompare {s s' : TheState α} (inv : TheInv s)
    (taken : theStep s .popCompare = some s') : TheInv s' := by
  cases pc : s.owner <;> simp [theStep, pc] at taken
  rename_i t
  obtain ⟨rfl, outstanding⟩ : t = s.tail ∧ s.spawned ≠ [] := by
    simpa [TheState.OwnerLocals, pc] using inv.ownerLocals
  have tailEq : s.head + s.frames.length = s.tail + 1 := by
    simpa [pc, OwnerPc.owed] using inv.tail_eq (by simp [pc])
  have excEq := inv.exc_eq (by simp [pc])
  have notSelf : s.lock ≠ .self := fun self => by simpa [pc] using inv.lock_self self
  split at taken
  · cases taken
    refine
      { inv with
        lock_owner := ?_, lock_self := fun self => absurd self notSelf, exc_eq := fun _ => excEq
        tail_eq := fun _ => by simpa [OwnerPc.owed] using tailEq, ownerLocals := outstanding
        thiefLocals := inv.thiefLocals }
    simpa [pc, OwnerPc.Locked] using inv.lock_owner
  · rename_i safe
    cases taken
    have nonempty := inv.nonempty_of_compare pc safe
    have framesLength : (s.frames.dropLast).length + 1 = s.frames.length := by
      have positive := List.length_pos_iff.2 nonempty
      simp only [List.length_dropLast]
      omega
    have filed : FrameInv { s with owner := .running } :=
      inv.toFrameInv.congr rfl rfl rfl rfl rfl rfl rfl rfl rfl rfl
    refine
      { (filed.of_popSucceed nonempty).1 with
        lock_owner := ?_, lock_thief := inv.lock_thief
        lock_self := fun self => absurd self notSelf, exc_eq := fun _ => excEq
        tail_eq := ?_, ownerLocals := trivial, thiefLocals := ?_ }
    · simpa [popSucceed, pc, OwnerPc.Locked] using inv.lock_owner
    · intro _
      simp only [popSucceed, OwnerPc.owed]
      omega
    · -- A thief past its test of `tail` raised `exc`, so the pop left it a frame.
      have locals := inv.thiefLocals
      have kept : 0 < s.thief.raised → s.frames.dropLast ≠ [] := by
        intro raised empty
        simp only [empty, List.length_nil] at framesLength
        omega
      simp only [TheState.ThiefLocals, popSucceed] at locals ⊢
      split at locals <;> simp_all [TheState.stolenFrames, ThiefPc.raised]

/-! ### The locked check -/

theorem TheInv.of_popLock {s s' : TheState α} (inv : TheInv s)
    (taken : theStep s .popLock = some s') : TheInv s' := by
  cases pc : s.owner <;> cases lock : s.lock <;> simp [theStep, pc, lock] at taken
  subst taken
  have outstanding : s.spawned ≠ [] := by
    simpa [TheState.OwnerLocals, pc] using inv.ownerLocals
  have free : s.thief = .none := inv.lock_thief.2 (.inl lock)
  exact
    { inv with
      lock_owner := by simp [OwnerPc.Locked], lock_thief := by simp [free]
      lock_self := by simp, exc_eq := fun _ => inv.exc_eq (by simp [pc])
      tail_eq := fun _ => by simpa [pc, OwnerPc.owed] using inv.tail_eq (by simp [pc])
      ownerLocals := outstanding, thiefLocals := by simp [TheState.ThiefLocals, free] }

theorem TheInv.of_popReset {s s' : TheState α} (inv : TheInv s)
    (taken : theStep s .popReset = some s') : TheInv s' := by
  cases pc : s.owner <;> simp [theStep, pc] at taken
  subst taken
  have outstanding : s.spawned ≠ [] := by
    simpa [TheState.OwnerLocals, pc] using inv.ownerLocals
  have locked : s.owner.Locked := by simp [pc, OwnerPc.Locked]
  have none := inv.thief_none locked
  have lock := inv.lock_owner.2 locked
  exact
    { inv with
      lock_owner := by simp [OwnerPc.Locked, lock], lock_self := by simp [lock]
      exc_eq := fun _ => by simp [none, ThiefPc.raised]
      tail_eq := fun _ => by simpa [pc, OwnerPc.owed] using inv.tail_eq (by simp [pc])
      ownerLocals := outstanding, thiefLocals := by simp [TheState.ThiefLocals, none] }

/-- `stolen_p` is true exactly when the frame that is being popped was stolen. -/
theorem TheInv.of_popTest {s s' : TheState α} (inv : TheInv s)
    (taken : theStep s .popTest = some s') : TheInv s' := by
  cases pc : s.owner <;> simp [theStep, pc] at taken
  have outstanding : s.spawned ≠ [] := by
    simpa [TheState.OwnerLocals, pc] using inv.ownerLocals
  have locked : s.owner.Locked := by simp [pc, OwnerPc.Locked]
  have none := inv.thief_none locked
  have lock := inv.lock_owner.2 locked
  have tailEq : s.head + s.frames.length = s.tail + 1 := by
    simpa [pc, OwnerPc.owed] using inv.tail_eq (by simp [pc])
  have excEq : s.exc = s.head := by
    simpa [none, ThiefPc.raised] using inv.exc_eq (by simp [pc])
  obtain ⟨gone, split, consumed⟩ := inv.spawned_eq
  by_cases within : s.head < s.tail + 1
  · -- The frame is still in the deque and the pop takes it.
    have nonempty := inv.nonempty_of_test pc within
    rw [if_neg (by omega), Option.some.injEq] at taken
    subst taken
    have filed : FrameInv { s with owner := .unlock } :=
      inv.toFrameInv.congr rfl rfl rfl rfl rfl rfl rfl rfl rfl rfl
    obtain ⟨popInv, x, last, popped⟩ := filed.of_popSucceed nonempty
    have positive := List.length_pos_iff.2 nonempty
    refine
      { popInv with
        checks_right := ?_, lock_owner := by simp [popSucceed, OwnerPc.Locked, lock]
        lock_thief := inv.lock_thief, lock_self := by simp [popSucceed, lock]
        exc_eq := fun _ => by simpa [popSucceed, none, ThiefPc.raised] using excEq
        tail_eq := ?_, ownerLocals := trivial
        thiefLocals := by simp [popSucceed, TheState.ThiefLocals, none] }
    · intro check mem
      rcases List.mem_append.1 mem with old | new
      · exact popInv.checks_right check old
      · rw [List.mem_singleton.1 new]
        exact ⟨x, last, .inr ⟨by grind, popped⟩⟩
    · intro _
      simp only [popSucceed, OwnerPc.owed, List.length_dropLast]
      omega
  · -- The deque is empty, so the outstanding frames were all stolen.
    have empty : s.frames = [] := by
      apply List.eq_nil_of_length_eq_zero
      omega
    rw [if_pos (by omega), Option.some.injEq] at taken
    subst taken
    obtain ⟨x, last⟩ : ∃ x, s.spawned.getLast? = some x :=
      ⟨s.spawned.getLast outstanding, List.getLast?_eq_some_getLast outstanding⟩
    have stolen : x ∈ s.stolenFrames := by
      have mem : x ∈ gone := by
        have inSpawned := List.mem_of_getLast? last
        simpa [split, empty] using inSpawned
      simpa [TheState.fetching, none] using consumed x mem
    refine
      { inv with
        spawned_eq := ⟨[], by simp [empty]⟩, checks_right := ?_
        lock_owner := by simp [OwnerPc.Locked, lock], lock_self := by simp [lock]
        exc_eq := fun _ => by simpa [none, ThiefPc.raised] using excEq
        tail_eq := fun _ => by simpa [OwnerPc.owed] using tailEq, ownerLocals := rfl
        thiefLocals := by simp [TheState.ThiefLocals, none] }
    intro check mem
    rcases List.mem_append.1 mem with old | new
    · exact inv.checks_right check old
    · rw [List.mem_singleton.1 new]
      exact ⟨x, last, .inl ⟨by grind, stolen⟩⟩

theorem TheInv.of_popUndo {s s' : TheState α} (inv : TheInv s)
    (taken : theStep s .popUndo = some s') : TheInv s' := by
  cases pc : s.owner <;> simp [theStep, pc] at taken
  subst taken
  have locked : s.owner.Locked := by simp [pc, OwnerPc.Locked]
  have none := inv.thief_none locked
  have lock := inv.lock_owner.2 locked
  exact
    { inv with
      lock_owner := by simp [OwnerPc.Locked, lock], lock_self := by simp [lock]
      exc_eq := fun _ => inv.exc_eq (by simp [pc])
      tail_eq := fun _ => by simpa [pc, OwnerPc.owed] using inv.tail_eq (by simp [pc])
      ownerLocals := trivial, thiefLocals := by simp [TheState.ThiefLocals, none] }

theorem TheInv.of_ownerUnlock {s s' : TheState α} (inv : TheInv s)
    (taken : theStep s .ownerUnlock = some s') : TheInv s' := by
  cases pc : s.owner <;> simp [theStep, pc] at taken
  subst taken
  have none := inv.thief_none (by simp [pc, OwnerPc.Locked])
  exact
    { inv with
      lock_owner := by simp [OwnerPc.Locked], lock_thief := by simp [none], lock_self := by simp
      exc_eq := fun _ => inv.exc_eq (by simp [pc])
      tail_eq := fun _ => by simpa [pc, OwnerPc.owed] using inv.tail_eq (by simp [pc])
      ownerLocals := trivial, thiefLocals := by simp [TheState.ThiefLocals, none] }

/-! ### Suspension and the start of another full frame -/

theorem TheInv.of_suspend {s s' : TheState α} (inv : TheInv s)
    (taken : theStep s .suspend = some s') : TheInv s' := by
  cases pc : s.owner <;> cases lock : s.lock <;> simp [theStep, pc, lock] at taken
  subst taken
  have none : s.thief = .none := inv.lock_thief.2 (.inl lock)
  have excEq : s.exc = s.head := by
    simpa [none, ThiefPc.raised] using inv.exc_eq (by simp [pc])
  have filed : FrameInv { s with owner := .suspended, lock := .self, thief := .locked } :=
    inv.toFrameInv.congr rfl rfl rfl rfl rfl rfl rfl (by simp [TheState.fetching, none]) rfl rfl
  exact
    { filed with
      lock_owner := by simp [OwnerPc.Locked], lock_thief := by simp, lock_self := fun _ => rfl
      exc_eq := fun _ => by simpa [ThiefPc.raised] using excEq
      tail_eq := fun _ => by simpa [pc, OwnerPc.owed] using inv.tail_eq (by simp [pc])
      ownerLocals := trivial, thiefLocals := trivial }

theorem TheInv.of_resume {s s' : TheState α} (inv : TheInv s)
    (taken : theStep s .resume = some s') : TheInv s' := by
  cases pc : s.owner <;> simp [theStep, pc] at taken
  obtain ⟨notSelf, rfl⟩ := taken
  refine
    { inv with
      lock_owner := ?_, lock_self := fun self => absurd self notSelf
      exc_eq := fun _ => inv.exc_eq (by simp [pc])
      tail_eq := fun _ => by simpa [pc, OwnerPc.owed] using inv.tail_eq (by simp [pc])
      ownerLocals := trivial, thiefLocals := inv.thiefLocals }
  simpa [pc, OwnerPc.Locked] using inv.lock_owner

theorem TheInv.of_setupLock {s s' : TheState α} (inv : TheInv s)
    (taken : theStep s .setupLock = some s') : TheInv s' := by
  cases pc : s.owner <;> cases lock : s.lock <;> simp [theStep, pc, lock] at taken
  obtain ⟨none_spawned, rfl⟩ := taken
  have none : s.thief = .none := inv.lock_thief.2 (.inl lock)
  exact
    { inv with
      lock_owner := by simp [OwnerPc.Locked], lock_thief := by simp [none], lock_self := by simp
      exc_eq := fun _ => inv.exc_eq (by simp [pc])
      tail_eq := fun _ => by simpa [pc, OwnerPc.owed] using inv.tail_eq (by simp [pc])
      ownerLocals := none_spawned, thiefLocals := by simp [TheState.ThiefLocals, none] }

theorem TheInv.of_setupTail {s s' : TheState α} (inv : TheInv s)
    (taken : theStep s .setupTail = some s') : TheInv s' := by
  cases pc : s.owner <;> simp [theStep, pc] at taken
  subst taken
  have none_spawned : s.spawned = [] := by
    simpa [TheState.OwnerLocals, pc] using inv.ownerLocals
  have locked : s.owner.Locked := by simp [pc, OwnerPc.Locked]
  have none := inv.thief_none locked
  have lock := inv.lock_owner.2 locked
  exact
    { inv with
      lock_owner := by simp [OwnerPc.Locked, lock], lock_self := by simp [lock]
      exc_eq := fun _ => inv.exc_eq (by simp [pc]), tail_eq := by simp
      ownerLocals := none_spawned, thiefLocals := by simp [TheState.ThiefLocals, none] }

theorem TheInv.of_setupHead {s s' : TheState α} (inv : TheInv s)
    (taken : theStep s .setupHead = some s') : TheInv s' := by
  cases pc : s.owner <;> simp [theStep, pc] at taken
  subst taken
  have none_spawned : s.spawned = [] := by
    simpa [TheState.OwnerLocals, pc] using inv.ownerLocals
  have empty := inv.frames_nil none_spawned
  have locked : s.owner.Locked := by simp [pc, OwnerPc.Locked]
  have none := inv.thief_none locked
  have lock := inv.lock_owner.2 locked
  exact
    { inv with
      segment := by rw [empty]; exact .nil
      lock_owner := by simp [OwnerPc.Locked, lock], lock_self := by simp [lock], exc_eq := by simp
      tail_eq := fun _ => by simp [empty, OwnerPc.owed]
      ownerLocals := none_spawned, thiefLocals := by simp [TheState.ThiefLocals, none] }

theorem TheInv.of_setupExc {s s' : TheState α} (inv : TheInv s)
    (taken : theStep s .setupExc = some s') : TheInv s' := by
  cases pc : s.owner <;> simp [theStep, pc] at taken
  subst taken
  have locked : s.owner.Locked := by simp [pc, OwnerPc.Locked]
  have none := inv.thief_none locked
  have lock := inv.lock_owner.2 locked
  exact
    { inv with
      lock_owner := by simp [OwnerPc.Locked, lock], lock_self := by simp [lock]
      exc_eq := fun _ => by simp [none, ThiefPc.raised]
      tail_eq := fun _ => by simpa [pc, OwnerPc.owed] using inv.tail_eq (by simp [pc])
      ownerLocals := trivial, thiefLocals := by simp [TheState.ThiefLocals, none] }

/-! ### The thieves -/

theorem TheInv.of_thiefLock {s s' : TheState α} {id : Nat} (inv : TheInv s)
    (taken : theStep s (.thiefLock id) = some s') : TheInv s' := by
  cases lock : s.lock <;> simp [theStep, lock] at taken
  subst taken
  have none : s.thief = .none := inv.lock_thief.2 (.inl lock)
  have unlocked : ¬ s.owner.Locked := fun locked => by
    simpa [lock] using inv.lock_owner.2 locked
  have filed : FrameInv { s with lock := .thief id, thief := .locked } :=
    inv.toFrameInv.congr rfl rfl rfl rfl rfl rfl rfl (by simp [TheState.fetching, none]) rfl rfl
  exact
    { filed with
      lock_owner := by simp [unlocked], lock_thief := by simp, lock_self := by simp
      exc_eq := fun notSetup => by simpa [none, ThiefPc.raised] using inv.exc_eq notSetup
      tail_eq := inv.tail_eq, ownerLocals := inv.ownerLocals, thiefLocals := trivial }

/-- A thief at work holds the lock. -/
theorem PointerInv.lock_held {s : TheState α} (inv : PointerInv s) (atWork : s.thief ≠ .none) :
    s.lock ≠ .free ∧ s.lock ≠ .owner := by
  constructor
  · intro free
    exact atWork (inv.lock_thief.2 (.inl free))
  · intro owner
    exact atWork (inv.lock_thief.2 (.inr owner))

/-- A step of the holder that keeps the lock and moves `exc` with its program counter. -/
theorem TheInv.of_thiefMove {s : TheState α} {pc : ThiefPc α} {exc : Int} (inv : TheInv s)
    (atWork : s.thief ≠ .none) (atWork' : pc ≠ .none)
    (excEq : s.exc - s.thief.raised = exc - pc.raised)
    (fetching : TheState.fetching { s with exc := exc, thief := pc } = s.fetching)
    (locals : TheState.ThiefLocals { s with exc := exc, thief := pc }) :
    TheInv { s with exc := exc, thief := pc } := by
  have filed : FrameInv { s with exc := exc, thief := pc } :=
    inv.toFrameInv.congr rfl rfl rfl rfl rfl rfl rfl fetching rfl rfl
  refine
    { filed with
      lock_owner := inv.lock_owner, lock_thief := ?_, lock_self := inv.lock_self
      exc_eq := ?_, tail_eq := inv.tail_eq, ownerLocals := inv.ownerLocals, thiefLocals := locals }
  · obtain ⟨notFree, notOwner⟩ := inv.lock_held atWork
    simp [atWork', notFree, notOwner]
  · intro notSetup
    have old := inv.exc_eq notSetup
    change exc = s.head + pc.raised
    omega

theorem TheInv.of_giveUp {s s' : TheState α} (inv : TheInv s)
    (taken : theStep s .giveUp = some s') : TheInv s' := by
  cases pc : s.thief <;> simp [theStep, pc] at taken
  subst taken
  apply inv.of_thiefMove
  · simp [pc]
  · simp
  · simp [pc, ThiefPc.raised]
  · simp [TheState.fetching, pc]
  · trivial

theorem TheInv.of_incrementE {s s' : TheState α} (inv : TheInv s)
    (taken : theStep s .incrementE = some s') : TheInv s' := by
  cases pc : s.thief <;> simp [theStep, pc] at taken
  obtain ⟨allowed, rfl⟩ := taken
  apply inv.of_thiefMove
  · simp [pc]
  · simp
  · simp [pc, ThiefPc.raised]
  · simp [TheState.fetching, pc]
  · intro self
    simpa [canStealFrom] using allowed self

theorem TheInv.of_testTail {s s' : TheState α} (inv : TheInv s)
    (taken : theStep s .testTail = some s') : TheInv s' := by
  cases pc : s.thief <;> simp [theStep, pc] at taken
  subst taken
  have locals : s.lock = .self → s.head < s.tail ∧ s.head < s.protectedTail := by
    simpa [TheState.ThiefLocals, pc] using inv.thiefLocals
  by_cases more : s.head < s.tail
  · rw [if_pos more]
    -- The owner is in user code or popping: `tail` is not past the last frame.
    have nonempty : s.frames ≠ [] := by
      rintro empty
      have tailEq := inv.tail_eq (fun setup => by
        have locked : s.owner.Locked := by simp [setup, OwnerPc.Locked]
        simpa [pc] using inv.thief_none locked)
      have owed : 0 ≤ s.owner.owed := by
        unfold OwnerPc.owed
        split <;> simp
      simp only [empty, List.length_nil] at tailEq
      omega
    apply inv.of_thiefMove
    · simp [pc]
    · simp
    · simp [pc, ThiefPc.raised]
    · simp [TheState.fetching, pc]
    · exact ⟨nonempty, fun self => (locals self).2⟩
  · rw [if_neg more]
    apply inv.of_thiefMove
    · simp [pc]
    · simp
    · simp [pc, ThiefPc.raised]
    · simp [TheState.fetching, pc]
    · exact fun self => more (locals self).1

theorem TheInv.of_testProtected {s s' : TheState α} (inv : TheInv s)
    (taken : theStep s .testProtected = some s') : TheInv s' := by
  cases pc : s.thief <;> simp [theStep, pc] at taken
  subst taken
  obtain ⟨nonempty, selfProtected⟩ :
      s.frames ≠ [] ∧ (s.lock = .self → s.head < s.protectedTail) := by
    simpa [TheState.ThiefLocals, pc] using inv.thiefLocals
  by_cases unprotected : s.head < s.protectedTail
  · rw [if_pos unprotected]
    apply inv.of_thiefMove
    · simp [pc]
    · simp
    · simp [pc, ThiefPc.raised]
    · simp [TheState.fetching, pc]
    · exact ⟨nonempty, unprotected⟩
  · rw [if_neg unprotected]
    apply inv.of_thiefMove
    · simp [pc]
    · simp
    · simp [pc, ThiefPc.raised]
    · simp [TheState.fetching, pc]
    · exact fun self => unprotected (selfProtected self)

theorem TheInv.of_abort {s s' : TheState α} (inv : TheInv s)
    (taken : theStep s .abort = some s') : TheInv s' := by
  cases pc : s.thief <;> simp [theStep, pc] at taken
  obtain ⟨notSelf, rfl⟩ := taken
  apply inv.of_thiefMove
  · simp [pc]
  · simp
  · simp [pc, ThiefPc.raised]
  · simp [TheState.fetching, pc]
  · exact notSelf

theorem TheInv.of_decrementE {s s' : TheState α} (inv : TheInv s)
    (taken : theStep s .decrementE = some s') : TheInv s' := by
  cases pc : s.thief <;> simp [theStep, pc] at taken
  subst taken
  have notSelf : s.lock ≠ .self := by simpa [TheState.ThiefLocals, pc] using inv.thiefLocals
  rw [if_neg notSelf]
  apply inv.of_thiefMove
  · simp [pc]
  · simp
  · simp [pc, ThiefPc.raised]
  · simp [TheState.fetching, pc]
  · trivial

/-- The thief takes the first frame of the deque. -/
theorem TheInv.of_advanceHead {s s' : TheState α} (inv : TheInv s)
    (taken : theStep s .advanceHead = some s') : TheInv s' := by
  cases pc : s.thief <;> simp [theStep, pc] at taken
  subst taken
  obtain ⟨nonempty, unprotected⟩ : s.frames ≠ [] ∧ s.head < s.protectedTail := by
    simpa [TheState.ThiefLocals, pc] using inv.thiefLocals
  obtain ⟨x, rest, framesEq⟩ := List.exists_cons_of_ne_nil nonempty
  obtain ⟨notFree, notOwner⟩ := inv.lock_held (by simp [pc])
  have unlocked : ¬ s.owner.Locked := fun locked => notOwner (inv.lock_owner.2 locked)
  have segment := inv.segment
  rw [framesEq] at segment
  have first := segment.first
  have noFetch : s.fetching = [] := by simp [TheState.fetching, pc]
  have fetchingEq : TheState.fetching
      { s with head := s.head + 1, thief := .fetch s.head, frames := s.frames.tail } = [x] := by
    simp [TheState.fetching, first]
  obtain ⟨gone, split, consumed⟩ := inv.spawned_eq
  refine
    { inv with
      segment := ?_, spawned_eq := ⟨gone ++ [x], ?_, ?_⟩, pushed_perm := ?_
      lock_thief := by simp [notFree, notOwner]
      exc_eq := ?_, tail_eq := ?_, ownerLocals := inv.ownerLocals, thiefLocals := ?_ }
  · simpa [framesEq] using segment.tail
  · simp [split, framesEq]
  · intro y mem
    rcases List.mem_append.1 mem with old | new
    · have held := consumed y old
      rw [noFetch] at held
      exact .inl (held.resolve_right (List.not_mem_nil))
    · right
      rw [fetchingEq]
      exact new
  · have perm := inv.pushed_perm
    rw [noFetch, framesEq] at perm
    rw [fetchingEq, framesEq]
    change (s.popped ++ s.stolenFrames ++ [x] ++ rest).Perm s.pushed
    simpa using perm
  · intro notSetup
    have old := inv.exc_eq notSetup
    simp only [pc, ThiefPc.raised] at old ⊢
    omega
  · intro notSetup
    have old := inv.tail_eq notSetup
    simp only [framesEq, List.length_cons, List.tail_cons] at old ⊢
    push_cast at old
    omega
  · exact ⟨rfl, unprotected, x, first⟩

/-- The frame the thief reads behind the old head is the one it took. -/
theorem TheInv.of_fetchFrame {s s' : TheState α} (inv : TheInv s)
    (taken : theStep s .fetchFrame = some s') : TheInv s' := by
  cases pc : s.thief <;> simp [theStep, pc] at taken
  rename_i h
  subst taken
  obtain ⟨headEq, unprotected, x, slot⟩ :
      h + 1 = s.head ∧ h < s.protectedTail ∧ ∃ x, s.ltq h = some x := by
    simpa [TheState.ThiefLocals, pc] using inv.thiefLocals
  obtain ⟨notFree, notOwner⟩ := inv.lock_held (by simp [pc])
  have fetchingEq : s.fetching = [x] := by simp [TheState.fetching, pc, slot]
  have stolenEq : TheState.stolenFrames
      { s with
        thief := .detached (s.ltq h)
        stolen := s.stolen ++ [⟨s.lock, h, s.ltq h⟩] } = s.stolenFrames ++ [x] := by
    simp [TheState.stolenFrames, slot]
  obtain ⟨gone, split, consumed⟩ := inv.spawned_eq
  refine
    { inv with
      spawned_eq := ⟨gone, split, ?_⟩, pushed_perm := ?_, stolen_slots := ?_, checks_right := ?_
      lock_thief := by simp [notFree, notOwner]
      exc_eq := fun notSetup => by simpa [pc, ThiefPc.raised] using inv.exc_eq notSetup
      ownerLocals := inv.ownerLocals, thiefLocals := ?_ }
  · intro y mem
    left
    rw [stolenEq]
    simpa [fetchingEq] using consumed y mem
  · have perm := inv.pushed_perm
    rw [fetchingEq] at perm
    rw [stolenEq]
    change (s.popped ++ (s.stolenFrames ++ [x]) ++ [] ++ s.frames).Perm s.pushed
    simpa using perm
  · intro steal mem
    rcases List.mem_append.1 mem with old | new
    · exact inv.stolen_slots steal old
    · rw [List.mem_singleton.1 new]
      exact ⟨unprotected, x, slot⟩
  · intro check mem
    obtain ⟨y, popping, right⟩ := inv.checks_right check mem
    refine ⟨y, popping, right.imp_left fun stolen => ⟨stolen.1, ?_⟩⟩
    rw [stolenEq]
    exact List.mem_append_left _ stolen.2
  · refine ⟨x, slot, ?_⟩
    rw [stolenEq]
    simp

theorem TheInv.of_thiefUnlock {s s' : TheState α} (inv : TheInv s)
    (taken : theStep s .thiefUnlock = some s') : TheInv s' := by
  have unlocked : ∀ pc, s.thief = pc → pc ≠ .none → pc.raised = 0 → s.fetching = [] →
      TheInv { s with lock := .free, thief := .none } := by
    intro pc at_ atWork low noFetch
    obtain ⟨-, notOwner⟩ := inv.lock_held (at_ ▸ atWork)
    have notLocked : ¬ s.owner.Locked := fun locked => notOwner (inv.lock_owner.2 locked)
    have filed : FrameInv { s with lock := .free, thief := .none } :=
      inv.toFrameInv.congr rfl rfl rfl rfl rfl rfl rfl noFetch.symm rfl rfl
    refine
      { filed with
        lock_owner := by simp [notLocked], lock_thief := by simp, lock_self := by simp
        exc_eq := ?_, tail_eq := inv.tail_eq, ownerLocals := inv.ownerLocals, thiefLocals := trivial }
    intro notSetup
    have old := inv.exc_eq notSetup
    rwa [at_, low] at old
  cases pc : s.thief <;> simp [theStep, pc] at taken <;> subst taken
  · exact unlocked _ pc (by simp) rfl (by simp [TheState.fetching, pc])
  · exact unlocked _ pc (by simp) rfl (by simp [TheState.fetching, pc])

/-! ### Runs -/

/-- Every step keeps the invariant of the THE protocol. -/
theorem TheInv.of_step {s s' : TheState α} {label : TheLabel α} (inv : TheInv s)
    (taken : theStep s label = some s') : TheInv s' := by
  cases label with
  | pushSlot frame => exact inv.of_pushSlot taken
  | pushTail => exact inv.of_pushTail taken
  | popDecrement => exact inv.of_popDecrement taken
  | popCompare => exact inv.of_popCompare taken
  | popLock => exact inv.of_popLock taken
  | popReset => exact inv.of_popReset taken
  | popTest => exact inv.of_popTest taken
  | popUndo => exact inv.of_popUndo taken
  | ownerUnlock => exact inv.of_ownerUnlock taken
  | suspend => exact inv.of_suspend taken
  | resume => exact inv.of_resume taken
  | setupLock => exact inv.of_setupLock taken
  | setupTail => exact inv.of_setupTail taken
  | setupHead => exact inv.of_setupHead taken
  | setupExc => exact inv.of_setupExc taken
  | thiefLock id => exact inv.of_thiefLock taken
  | giveUp => exact inv.of_giveUp taken
  | incrementE => exact inv.of_incrementE taken
  | testTail => exact inv.of_testTail taken
  | testProtected => exact inv.of_testProtected taken
  | abort => exact inv.of_abort taken
  | advanceHead => exact inv.of_advanceHead taken
  | fetchFrame => exact inv.of_fetchFrame taken
  | decrementE => exact inv.of_decrementE taken
  | thiefUnlock => exact inv.of_thiefUnlock taken

/-- The invariant of the THE protocol holds after every interleaving. -/
theorem theInv_reachable {s : TheState α} (reachable : (theMachine α).Reachable s) : TheInv s :=
  reachable.invariant (fun _ ⟨ltqLimit, protectedTail, initial⟩ =>
    initial ▸ TheInv.of_initial ltqLimit protectedTail) (fun _ _ _ _ inv taken => inv.of_step taken)

/-- Under every interleaving: the frames pushed are, each once, popped, taken by a thief or still in the
    slots from `head` in the order of the pushes; when the owner has no detach left to undo, all are
    consumed; the locked check says stolen exactly for the frames thieves took; while the lock is free
    `exc = head ≤ tail + 1`; and every steal is a thief's, of a frame below `protected_tail`. -/
theorem the_protocol {s : TheState α} (reachable : (theMachine α).Reachable s) :
    ((s.popped ++ s.stolenFrames ++ s.fetching ++ s.frames).Perm s.pushed ∧ s.pushed.Nodup ∧
      Segment s.ltq s.head s.frames) ∧
    (s.spawned = [] → (s.popped ++ s.stolenFrames ++ s.fetching).Perm s.pushed) ∧
    (∀ check ∈ s.checks, ∃ x, check.popping = some x ∧ (check.stolen = true ↔ x ∈ s.stolenFrames) ∧
      (check.stolen = false ↔ x ∈ s.popped)) ∧
    (s.lock = .free → s.exc = s.head ∧ s.head ≤ s.tail + 1) ∧
    (∀ steal ∈ s.stolen, steal.slot < s.protectedTail ∧ ∃ x, steal.taken = some x) := by
  have inv := theInv_reachable reachable
  have apart : ∀ x ∈ s.popped, x ∉ s.stolenFrames := by
    intro x popped stolen
    have nodup := inv.nodup
    simp only [List.append_assoc, List.nodup_append, List.mem_append] at nodup
    exact nodup.2.2 x popped x (.inl stolen) rfl
  refine ⟨⟨inv.pushed_perm, inv.pushed_nodup, inv.segment⟩, ?_, ?_, ?_, inv.stolen_slots⟩
  · intro done
    have perm := inv.pushed_perm
    rwa [inv.frames_nil done, List.append_nil] at perm
  · intro check mem
    obtain ⟨x, popping, ⟨yes, stolen⟩ | ⟨no, popped⟩⟩ := inv.checks_right check mem
    · refine ⟨x, popping, by simp [yes, stolen], ?_⟩
      simp only [yes, Bool.true_eq_false, false_iff]
      exact fun popped => apart x popped stolen
    · refine ⟨x, popping, ?_, by simp [no, popped]⟩
      simp only [no, Bool.false_eq_true, false_iff]
      exact apart x popped
  · intro free
    have none : s.thief = .none := inv.lock_thief.2 (.inl free)
    have unlocked : ¬ s.owner.Locked := fun locked => by simpa [free] using inv.lock_owner.2 locked
    have excEq := inv.exc_eq (fun setup => unlocked (by simp [setup, OwnerPc.Locked]))
    have tailEq := inv.tail_eq (fun setup => unlocked (by simp [setup, OwnerPc.Locked]))
    have owed : s.owner.owed ≤ 1 := by
      unfold OwnerPc.owed
      split <;> simp
    constructor
    · simpa [none, ThiefPc.raised] using excEq
    · omega

/-- The owner pushes two frames; a thief takes the older one while the owner pops the younger, and the
    owner's second pop finds its frame stolen. -/
def raceTrace : List (TheLabel (Fin 2)) :=
  [.pushSlot 0, .pushTail, .pushSlot 1, .pushTail, .thiefLock 0, .incrementE, .testTail,
    .popDecrement, .testProtected, .popCompare, .popDecrement, .advanceHead, .popCompare, .fetchFrame,
    .thiefUnlock, .popLock, .popReset, .popTest, .popUndo, .ownerUnlock]

theorem the_protocol_race :
    ((theMachine (Fin 2)).after (.initial _ 8 8) raceTrace).checks = [⟨some ⟨0, 0⟩, true⟩] ∧
      ((theMachine (Fin 2)).after (.initial _ 8 8) raceTrace).exc = 1 :=
  have start : (theMachine (Fin 2)).Reachable (.initial _ 8 8) := .start ⟨8, 8, rfl⟩
  ⟨by decide, ((the_protocol (start.after raceTrace)).2.2.2.1 (by decide)).1.trans (by decide)⟩

end CilkL
