/-
Module: CilkL.Proofs.LoopPedigree
Layer: Proofs
Purpose: The pedigrees of a `cilk_for` are flat. Each part of a loop is on a worker of its own, so what the
  recursion pushes and pops on one worker is not seen on another, and the two places where the claim looks
  write the whole pedigree: the start of the loop body and the end of the loop. In between, the leaf is
  reached through the worker's pedigree only, which the loop body left in place.
Imports: CilkL.Runtime.LoopPedigree, Mathlib
Trusted boundary: none
Main exports: LoopInv, loopInv_of_reachable, LoopPedigreesFlat, cilk_for_pedigrees_flat
Open obligations: none
-/
import CilkL.Runtime.LoopPedigree
import Mathlib

namespace CilkL

/-- The iteration that the call is in. -/
@[simp, grind]
def LoopPlace.index {W : Type} : LoopPlace W → Option Nat
  | .running _ => none
  | .detached _ => none
  | .iteration i _ => some i
  | .userCode i _ => some i
  | .syncing _ => none
  | .stalled => none
  | .synched _ => none
  | .finished => none

/-- The pedigree of the next strand of the same frame. -/
def PedigreeNode.next (p : PedigreeNode) : PedigreeNode := { rank := p.rank + 1, parent := p.parent }

variable {W : Type}

/-- The invariant of a loop of `count` iterations that is entered with the pedigree `entry`. -/
structure LoopInv (count : Nat) (entry : PedigreeNode) (s : LoopState W) : Prop where
  fresh : ∀ a, s.next ≤ a → s.calls a = LoopState.noCall
  /-- Two calls are not on one worker. -/
  apart : ∀ a b w, (s.calls a).place.on = some w → (s.calls b).place.on = some w → a = b
  /-- Neither is `cilk_for_root`. -/
  rootApart : ∀ a w, (s.calls a).place.on = some w → s.root.on ≠ some w
  entered : ∀ w, s.root = .entered w → s.next = 0 ∧ s.ped w = entry
  rootNode : s.next ≠ 0 → s.node .root = entry.next
  ended : ∀ w, s.root = .ended w → s.ped w = entry.next.next
  within : ∀ a, (s.calls a).high ≤ count
  spawned : ∀ a b, (s.calls b).spawner = some a → a < b
  /-- The leaf has the rank of the iteration. -/
  leaf : ∀ a i, (s.calls a).place.index = some i →
    i < (s.calls a).high ∧ s.node (.leaf a) = { rank := UInt64.ofNat i + 1, parent := some .root }
  /-- An iteration starts right under it. -/
  start : ∀ a i w, (s.calls a).place = .iteration i w → s.ped w = { rank := 1, parent := some (.leaf a) }

namespace LoopState

variable (s : LoopState W) (a b : Nat) (w w' : W) (p value : PedigreeNode) (call : LoopCall W)
  (address address' : PedigreeAddr) (place : LoopPlace W)

@[simp, grind =] theorem ped_setNode : (s.setNode address value).ped w = s.ped w := rfl

@[simp, grind =] theorem node_setNode :
    (s.setNode address value).node address' = if address' = address then value else s.node address' := by
  simp [setNode, Function.update_apply]

@[simp, grind =] theorem calls_setNode : (s.setNode address value).calls a = s.calls a := rfl

@[simp, grind =] theorem root_setNode : (s.setNode address value).root = s.root := rfl

@[simp, grind =] theorem next_setNode : (s.setNode address value).next = s.next := rfl

@[simp, grind =] theorem ped_setCall : (s.setCall a call).ped w = s.ped w := rfl

@[simp, grind =] theorem node_setCall : (s.setCall a call).node address = s.node address := rfl

@[simp, grind =] theorem calls_setCall :
    (s.setCall a call).calls b = if b = a then call else s.calls b := by
  simp [setCall, Function.update_apply]

@[simp, grind =] theorem root_setCall : (s.setCall a call).root = s.root := rfl

@[simp, grind =] theorem next_setCall : (s.setCall a call).next = s.next := rfl

variable [DecidableEq W]

@[simp, grind =] theorem ped_setPed : (s.setPed w p).ped w' = if w' = w then p else s.ped w' := by
  simp [setPed, Function.update_apply]

@[simp, grind =] theorem node_setPed : (s.setPed w p).node address = s.node address := rfl

@[simp, grind =] theorem calls_setPed : (s.setPed w p).calls a = s.calls a := rfl

@[simp, grind =] theorem root_setPed : (s.setPed w p).root = s.root := rfl

@[simp, grind =] theorem next_setPed : (s.setPed w p).next = s.next := rfl

end LoopState

open LoopState

variable {count : Nat} {entry : PedigreeNode} {s s' : LoopState W}

/-- A worker that no call is on. -/
theorem LoopInv.notOn (inv : LoopInv count entry s) {w : W} (free : s.Free w) (a : Nat) :
    (s.calls a).place.on ≠ some w := by
  by_cases known : a < s.next
  · exact free.1 a known
  · rw [inv.fresh a (by omega)]
    simp [noCall]

/-- A call whose place is not `finished` has been made. -/
theorem LoopInv.known (inv : LoopInv count entry s) {a : Nat} (active : (s.calls a).place ≠ .finished) :
    a < s.next := by
  by_contra unknown
  exact active (by rw [inv.fresh a (by omega)]; rfl)

/-- A node may be written unless it is the root's or the leaf of an iteration. -/
theorem LoopInv.setNode (inv : LoopInv count entry s) (address : PedigreeAddr) (value : PedigreeNode)
    (notRoot : address ≠ .root)
    (notLeaf : ∀ a i, address = .leaf a → (s.calls a).place.index ≠ some i) :
    LoopInv count entry (s.setNode address value) := by
  refine ⟨inv.fresh, inv.apart, inv.rootApart, inv.entered, ?_, inv.ended, inv.within, inv.spawned, ?_,
    inv.start⟩
  · have before := inv.rootNode
    grind
  · intro a i at_
    have before := inv.leaf a i at_
    have other := notLeaf a i
    grind

/-- A call may go on where it is or on a free worker; in an iteration its leaf is right, and at the start of
one its worker's pedigree. -/
theorem LoopInv.setCall (inv : LoopInv count entry s) {a : Nat} {call : LoopCall W} (made : a < s.next)
    (within : call.high ≤ count) (spawner : call.spawner = (s.calls a).spawner)
    (on : ∀ w, call.place.on = some w → (s.calls a).place.on = some w ∨ s.Free w)
    (leaf : ∀ i, call.place.index = some i →
      i < call.high ∧ s.node (.leaf a) = { rank := UInt64.ofNat i + 1, parent := some .root })
    (start : ∀ i w, call.place = .iteration i w →
      s.ped w = { rank := 1, parent := some (.leaf a) }) :
    LoopInv count entry (s.setCall a call) := by
  refine ⟨?_, ?_, ?_, inv.entered, inv.rootNode, inv.ended, ?_, ?_, ?_, ?_⟩
  · intro b unknown
    have before := inv.fresh b unknown
    grind
  · intro b c w
    have before := inv.apart b c w
    have apart := inv.apart a
    have free := fun free : s.Free w => inv.notOn free
    have on := on w
    grind
  · intro b w
    have before := inv.rootApart b w
    have atRoot := inv.rootApart a w
    have free := fun free : s.Free w => free.2
    have on := on w
    grind
  · intro b
    have before := inv.within b
    grind
  · intro c b
    have before := inv.spawned c b
    grind
  · intro b i
    have before := inv.leaf b i
    have leaf := leaf i
    grind
  · intro b i w
    have before := inv.start b i w
    have start := start i w
    grind

/-- No iteration starts on a worker that a call is on elsewhere in its course. -/
theorem LoopInv.quiet (inv : LoopInv count entry s) {a : Nat} {w : W} (on : (s.calls a).place.on = some w)
    (elsewhere : ∀ i, (s.calls a).place ≠ .iteration i w) (b i : Nat) :
    (s.calls b).place ≠ .iteration i w := by
  intro starts
  have same := inv.apart a b w on (by simp [starts])
  exact elsewhere i (same ▸ starts)

/-- A call may go on at a place where no iteration has started, where it is or on a free worker. -/
theorem LoopInv.setPlace (inv : LoopInv count entry s) {a : Nat} {place : LoopPlace W} (made : a < s.next)
    (on : ∀ w, place.on = some w → (s.calls a).place.on = some w ∨ s.Free w)
    (outside : place.index = none) : LoopInv count entry (s.setPlace a place) := by
  refine inv.setCall made (inv.within a) rfl on ?_ ?_
  · intro i here
    cases outside.symm.trans here
  · rintro i w rfl
    cases outside

/-- A worker is free once the call that was on it is not. -/
theorem LoopInv.free_setCall (inv : LoopInv count entry s) {a : Nat} {call : LoopCall W} {w : W}
    (on : (s.calls a).place.on = some w) (off : call.place.on ≠ some w) : (s.setCall a call).Free w := by
  refine ⟨?_, inv.rootApart a w on⟩
  intro b _
  have apart := inv.apart a b w on
  grind

/-- A new call on a free worker. -/
theorem LoopInv.addCall (inv : LoopInv count entry s) {call : LoopCall W} {w : W} (some_ : s.next ≠ 0)
    (within : call.high ≤ count) (spawner : ∀ a, call.spawner = some a → a < s.next) (free : s.Free w)
    (at_ : call.place = .running w) :
    LoopInv count entry { s.setCall s.next call with next := s.next + 1 } := by
  constructor <;> dsimp only
  · intro a unknown
    have before := inv.fresh a (by omega)
    grind
  · intro a b w'
    have before := inv.apart a b w'
    have elsewhere := inv.notOn free
    grind
  · intro a w'
    have before := inv.rootApart a w'
    have elsewhere := free.2
    grind
  · intro w' entered
    exact absurd (inv.entered w' entered).1 some_
  · exact fun _ => inv.rootNode some_
  · exact inv.ended
  · intro a
    have before := inv.within a
    grind
  · intro a b
    have before := inv.spawned a b
    grind
  · intro a i
    have before := inv.leaf a i
    grind
  · intro a i w'
    have before := inv.start a i w'
    grind

section Workers

variable [DecidableEq W]

/-- The pedigree of a worker may be written unless an iteration starts there or `cilk_for_root` is there. -/
theorem LoopInv.setPed (inv : LoopInv count entry s) (w : W) (p : PedigreeNode)
    (quiet : ∀ a i, (s.calls a).place ≠ .iteration i w) (notRoot : s.root.on ≠ some w) :
    LoopInv count entry (s.setPed w p) := by
  refine ⟨inv.fresh, inv.apart, inv.rootApart, ?_, inv.rootNode, ?_, inv.within, inv.spawned, inv.leaf, ?_⟩
  · intro w' at_
    have before := inv.entered w' at_
    grind
  · intro w' at_
    have before := inv.ended w' at_
    grind
  · intro a i w' at_
    have before := inv.start a i w' at_
    have other := quiet a i
    grind

/-- The start of an iteration, or the end of the loop body. -/
theorem LoopInv.startIteration (inv : LoopInv count entry s) {a i : Nat} {w : W} (made : a < s.next)
    (on : (s.calls a).place.on = some w) (outside : (s.calls a).place.index = none)
    (leaf : s.node (.leaf a) = { rank := UInt64.ofNat i + 1, parent := some .root })
    (ped : s.ped w = { rank := 1, parent := some (.leaf a) }) :
    LoopInv count entry (s.startIteration a i w) := by
  unfold LoopState.startIteration
  split
  · rename_i more
    refine inv.setCall made (inv.within a) rfl ?_ ?_ ?_
    · rintro w' here
      exact .inl (here ▸ on)
    · rintro i' here
      obtain rfl := Option.some.inj here
      exact ⟨more, leaf⟩
    · rintro i' w' here
      obtain ⟨rfl, rfl⟩ := LoopPlace.iteration.inj here
      exact ped
  · have elsewhere : ∀ i, (s.calls a).place ≠ .iteration i w := by
      intro i starts
      simp [starts] at outside
    have written := inv.setPed w { s.ped w with parent := (s.calls a).saved }
      (inv.quiet on elsewhere) (inv.rootApart a w on)
    exact written.setPlace made (fun w' here => .inl (here ▸ on)) rfl

/-- `call_cilk_for_loop_body`. -/
theorem LoopInv.callBody (inv : LoopInv count entry s) {a : Nat} {w : W}
    (at_ : (s.calls a).place = .running w) : LoopInv count entry (s.callBody a w) := by
  have on : (s.calls a).place.on = some w := by simp [at_]
  have made : a < s.next := inv.known (by simp [at_])
  have saved : LoopInv count entry
      (s.setCall a { s.calls a with saved := (s.ped w).parent }) := by
    refine inv.setCall made (inv.within a) rfl (fun w' here => .inl here) ?_ ?_ <;> simp [at_]
  have notLeaf : ∀ b i, PedigreeAddr.leaf a = .leaf b →
      ((s.setCall a { s.calls a with saved := (s.ped w).parent }).calls b).place.index ≠ some i := by
    rintro b i here
    obtain rfl := PedigreeAddr.leaf.inj here
    simp [at_]
  have leaf := saved.setNode (.leaf a)
    { rank := UInt64.ofNat (s.calls a).low + 1, parent := some .root } (by simp) notLeaf
  have ped := leaf.setPed w { rank := 1, parent := some (.leaf a) }
    (leaf.quiet (a := a) (by simp [at_]) (by simp [at_])) (leaf.rootApart a w (by simp [at_]))
  exact ped.startIteration made (by simp [at_]) (by simp [at_]) (by simp) (by simp)

/-- The pedigree of a free worker may be written. -/
theorem LoopInv.setPed_of_free (inv : LoopInv count entry s) {w : W} (free : s.Free w) (p : PedigreeNode) :
    LoopInv count entry (s.setPed w p) := by
  refine inv.setPed w p ?_ free.2
  intro a i starts
  exact inv.notOn free a (by simp [starts])

/-- `_Cilk_spawn cilk_for_recursive` on the lower half. -/
theorem LoopInv.split (inv : LoopInv count entry s) {a : Nat} {w : W}
    (at_ : (s.calls a).place = .running w) (nonempty : (s.calls a).low < (s.calls a).high) :
    LoopInv count entry (s.split a w) := by
  have made : a < s.next := inv.known (by simp [at_])
  have helper := inv.setNode (.helper s.next) (s.ped w) (by simp) (by simp)
  let waiting : LoopCall W :=
    { s.calls a with
      low := (s.calls a).low + ((s.calls a).high - (s.calls a).low) / 2,
      place := .detached s.next, children := (s.calls a).children + 1, parent_pedigree := s.ped w }
  have waits : LoopInv count entry ((s.setNode (.helper s.next) (s.ped w)).setCall a waiting) :=
    helper.setCall made (inv.within a) rfl (by simp [waiting]) (by simp [waiting]) (by simp [waiting])
  have free : ((s.setNode (.helper s.next) (s.ped w)).setCall a waiting).Free w :=
    helper.free_setCall (by simp [at_]) (by simp [waiting])
  have pushed := waits.setPed_of_free free { rank := 1, parent := some (.helper s.next) }
  have high := inv.within a
  exact pushed.addCall (by simp; omega) (by simp; omega) (by simpa using made) free rfl

/-- The theft of a call. -/
theorem LoopInv.steal (inv : LoopInv count entry s) {a child : Nat} {w : W}
    (at_ : (s.calls a).place = .detached child) (free : s.Free w) :
    LoopInv count entry (s.steal a w) := by
  have made : a < s.next := inv.known (by simp [at_])
  have written := inv.setPed_of_free free
    { rank := (s.calls a).parent_pedigree.rank + 1, parent := (s.calls a).parent_pedigree.parent }
  refine written.setPlace made ?_ rfl
  intro w' here
  obtain rfl := Option.some.inj here
  exact .inr free

omit [DecidableEq W] in
/-- Placing a call twice is placing it once. -/
theorem setPlace_setPlace (s : LoopState W) (a : Nat) (first second : LoopPlace W) :
    (s.setPlace a first).setPlace a second = s.setPlace a second := by
  simp [LoopState.setPlace, LoopState.setCall]

/-- The start of an iteration does not depend on where the call was. -/
theorem startIteration_setPlace (s : LoopState W) (a : Nat) (place : LoopPlace W) (i : Nat) (w : W) :
    (s.setPlace a place).startIteration a i w = s.startIteration a i w := by
  have high : ((s.setPlace a place).calls a).high = (s.calls a).high := by simp [LoopState.setPlace]
  have saved : ((s.setPlace a place).calls a).saved = (s.calls a).saved := by simp [LoopState.setPlace]
  unfold LoopState.startIteration
  rw [high, saved, setPlace_setPlace]
  split
  · rfl
  · exact setPlace_setPlace (s.setPed w { s.ped w with parent := (s.calls a).saved }) a place _

/-- The end of an iteration under its leaf: the rank of the leaf is increased for the next one. -/
theorem LoopInv.endIteration (inv : LoopInv count entry s) {a i : Nat} {w : W}
    (at_ : (s.calls a).place = .userCode i (some w)) (balanced : (s.ped w).parent = some (.leaf a)) :
    LoopInv count entry ((s.bumpLoopRank w (.leaf a)).startIteration a (i + 1) w) := by
  have made : a < s.next := inv.known (by simp [at_])
  have leaf := (inv.leaf a i (by simp [at_])).2
  -- the call is outside the iteration while its leaf changes
  have outside : LoopInv count entry (s.setPlace a (.syncing w)) :=
    inv.setPlace made (fun w' here => .inl (by simpa [at_] using here)) rfl
  have notLeaf : ∀ b j, PedigreeAddr.leaf a = .leaf b →
      ((s.setPlace a (.syncing w)).calls b).place.index ≠ some j := by
    rintro b j here
    obtain rfl := PedigreeAddr.leaf.inj here
    simp [LoopState.setPlace]
  have bumped := outside.setNode (.leaf a)
    { rank := UInt64.ofNat (i + 1) + 1, parent := some .root } (by simp) notLeaf
  have reset := bumped.setPed w { rank := 1, parent := some (.leaf a) }
    (bumped.quiet (a := a) (by simp [LoopState.setPlace]) (by simp [LoopState.setPlace]))
    (bumped.rootApart a w (by simp [LoopState.setPlace]))
  have next := reset.startIteration (a := a) (i := i + 1) (w := w) made (by simp [LoopState.setPlace])
    (by simp [LoopState.setPlace]) (by simp) (by simp)
  have bump : s.bumpLoopRank w (.leaf a) = (s.setNode (.leaf a)
      { rank := UInt64.ofNat (i + 1) + 1, parent := some .root }).setPed w
        { rank := 1, parent := some (.leaf a) } := by
    simp only [bumpLoopRank, leaf, balanced, UInt64.ofNat_add]
    rfl
  rw [bump, ← startIteration_setPlace _ a (.syncing w)]
  exact next

/-- The implicit sync. -/
theorem LoopInv.sync (inv : LoopInv count entry s) {a : Nat} {w : W}
    (at_ : (s.calls a).place = .syncing w) : LoopInv count entry (s.sync a w) := by
  have on : (s.calls a).place.on = some w := by simp [at_]
  have made : a < s.next := inv.known (by simp [at_])
  unfold LoopState.sync
  split
  · have written := inv.setPed w { s.ped w with rank := (s.ped w).rank + 1 }
      (inv.quiet on (by simp [at_])) (inv.rootApart a w on)
    exact written.setPlace made (fun w' here => .inl (here ▸ on)) rfl
  · exact inv.setCall made (inv.within a) rfl (by simp) (by simp) (by simp)

/-- The stalled call goes on on the worker of the last call that it waited for. -/
theorem LoopInv.resumeSync (inv : LoopInv count entry s) {a : Nat} {w : W} (made : a < s.next)
    (free : s.Free w) : LoopInv count entry (s.resumeSync a w) := by
  have written := inv.setPed_of_free free
    { rank := (s.calls a).parent_pedigree.rank + 1, parent := (s.calls a).parent_pedigree.parent }
  refine written.setPlace made ?_ rfl
  intro w' here
  obtain rfl := Option.some.inj here
  exact .inr free

/-- The return of a spawned call. -/
theorem LoopInv.returnTo (inv : LoopInv count entry s) {a b : Nat} {w : W}
    (at_ : (s.calls b).place = .synched w) (spawner : (s.calls b).spawner = some a) :
    LoopInv count entry (s.returnTo b a w) := by
  have madeB : b < s.next := inv.known (by simp [at_])
  have earlier : a < b := inv.spawned a b spawner
  have made : a < s.next := by omega
  have other : a ≠ b := by omega
  have left : LoopInv count entry (s.setPlace b .finished) := inv.setPlace madeB (by simp) rfl
  have free : (s.setPlace b .finished).Free w := inv.free_setCall (by simp [at_]) (by simp)
  have placeA : (((s.setPlace b .finished).calls a).place = (s.calls a).place) := by
    simp [LoopState.setPlace, other]
  have joined : LoopInv count entry ((s.setPlace b .finished).setCall a
      { (s.setPlace b .finished).calls a with
        children := ((s.setPlace b .finished).calls a).children - 1 }) :=
    left.setCall made (left.within a) rfl (fun w' here => .inl here) (left.leaf a) (left.start a)
  have freeJoined : ((s.setPlace b .finished).setCall a
      { (s.setPlace b .finished).calls a with
        children := ((s.setPlace b .finished).calls a).children - 1 }).Free w := by
    refine ⟨fun c _ => ?_, free.2⟩
    have elsewhere := left.notOn free
    grind
  unfold LoopState.returnTo
  dsimp only
  split
  · have written := joined.setPed_of_free freeJoined
      { rank := (s.node (.helper b)).rank + 1, parent := (s.node (.helper b)).parent }
    refine written.setPlace made ?_ rfl
    intro w' here
    obtain rfl := Option.some.inj here
    exact .inr freeJoined
  · split
    · exact joined.resumeSync made freeJoined
    · exact joined

/-- The return of the first call to `cilk_for_root`. -/
theorem LoopInv.returnRoot (inv : LoopInv count entry s) {b : Nat} {w : W}
    (at_ : (s.calls b).place = .synched w) :
    LoopInv count entry (s.returnRoot b w) := by
  have made : b < s.next := inv.known (by simp [at_])
  have left : LoopInv count entry (s.setPlace b .finished) := inv.setPlace made (by simp) rfl
  have free : (s.setPlace b .finished).Free w := inv.free_setCall (by simp [at_]) (by simp)
  have root := inv.rootNode (by omega)
  have written := left.setPed_of_free free
    { s.node .root with rank := (s.node .root).rank + 1 }
  refine ⟨written.fresh, written.apart, ?_, ?_, written.rootNode, ?_, written.within, written.spawned,
    written.leaf, written.start⟩
  · intro a w' here same
    obtain rfl := Option.some.inj same
    exact left.notOn free a here
  · simp [LoopState.returnRoot]
  · intro w' here
    obtain rfl := LoopRoot.ended.inj here
    simp only [LoopState.returnRoot, ped_setPed, if_true]
    show PedigreeNode.mk ((s.node .root).rank + 1) (s.node .root).parent = _
    rw [root]
    rfl

/-- Entry into the loop, past the initial spawn. -/
theorem LoopInv.afterNoop (inv : LoopInv count entry s) {w w' : W} (at_ : s.root = .entered w) :
    LoopInv count entry (s.afterNoop w w' count) := by
  obtain ⟨none_, ped⟩ := inv.entered w at_
  have blank : ∀ a, s.calls a = noCall := fun a => inv.fresh a (by omega)
  have calls : ∀ a, (s.afterNoop w w' count).calls a
      = if a = 0 then { (noCall : LoopCall W) with low := 0, high := count, place := .running w' }
        else noCall := by
    intro a
    simp [LoopState.afterNoop, none_, blank]
  have noCall_high : (noCall : LoopCall W).high = 0 := rfl
  have noCall_place : (noCall : LoopCall W).place = .finished := rfl
  have noCall_spawner : (noCall : LoopCall W).spawner = none := rfl
  have next : (s.afterNoop w w' count).next = 1 := by simp [LoopState.afterNoop, none_]
  have root : (s.afterNoop w w' count).root = .looping := rfl
  have node : (s.afterNoop w w' count).node .root = entry.next := by
    simp [LoopState.afterNoop, ped, PedigreeNode.next]
  constructor <;> simp only [calls, next, root, node] <;> grind

/-- The user's code, and whatever else is done by a worker, may write its pedigree. -/
theorem LoopInv.userPed (inv : LoopInv count entry s) {w : W} (own : s.Free w ∨ s.InUserCode w)
    (p : PedigreeNode) : LoopInv count entry (s.setPed w p) := by
  rcases own with free | ⟨a, _, user⟩
  · exact inv.setPed_of_free free p
  · have on : (s.calls a).place.on = some w := by cases at_ : (s.calls a).place <;> simp_all
    have elsewhere : ∀ i, (s.calls a).place ≠ .iteration i w := by
      intro i starts
      simp [starts] at user
    exact inv.setPed w p (inv.quiet on elsewhere) (inv.rootApart a w on)

/-- A step keeps the invariant. -/
theorem LoopInv.step (inv : LoopInv count entry s) {grain : Nat} {label : LoopLabel W}
    (taken : loopStep count grain s label = some s') : LoopInv count entry s' := by
  cases label with
  | noop thief =>
    simp only [loopStep] at taken
    split at taken
    · rename_i w at_
      split at taken
      · obtain rfl := Option.some.inj taken
        exact inv.afterNoop at_
      · split at taken
        · obtain rfl := Option.some.inj taken
          exact inv.afterNoop at_
        · cases taken
    · cases taken
  | split a =>
    simp only [loopStep] at taken
    split at taken
    · rename_i w at_
      split at taken
      · obtain rfl := Option.some.inj taken
        exact inv.split at_ (by omega)
      · cases taken
    · cases taken
  | steal a w =>
    simp only [loopStep] at taken
    split at taken
    · rename_i at_
      split at taken
      · rename_i free
        obtain rfl := Option.some.inj taken
        exact inv.steal at_ free
      · cases taken
    · cases taken
  | callBody a =>
    simp only [loopStep] at taken
    split at taken
    · rename_i at_
      split at taken
      · obtain rfl := Option.some.inj taken
        exact inv.callBody at_
      · cases taken
    · cases taken
  | enterUser a =>
    simp only [loopStep] at taken
    split at taken
    · rename_i i w at_
      obtain rfl := Option.some.inj taken
      have leaf := inv.leaf a i (by simp [at_])
      refine inv.setCall (inv.known (by simp [at_])) (inv.within a) rfl (by simp [at_]) ?_ (by simp)
      rintro i' here
      obtain rfl := Option.some.inj here
      exact leaf
    · cases taken
  | leaveWorker a =>
    simp only [loopStep] at taken
    split at taken
    · rename_i i w at_
      obtain rfl := Option.some.inj taken
      have leaf := inv.leaf a i (by simp [at_])
      refine inv.setCall (inv.known (by simp [at_])) (inv.within a) rfl (by simp) ?_ (by simp)
      rintro i' here
      obtain rfl := Option.some.inj here
      exact leaf
    · cases taken
  | takeWorker a w =>
    simp only [loopStep] at taken
    split at taken
    · rename_i i at_
      split at taken
      · rename_i free
        obtain rfl := Option.some.inj taken
        have leaf := inv.leaf a i (by simp [at_])
        refine inv.setCall (inv.known (by simp [at_])) (inv.within a) rfl ?_ ?_ (by simp)
        · rintro w' here
          obtain rfl := Option.some.inj here
          exact .inr free
        · rintro i' here
          obtain rfl := Option.some.inj here
          exact leaf
      · cases taken
    · cases taken
  | userPed w ped =>
    simp only [loopStep] at taken
    split at taken
    · rename_i own
      obtain rfl := Option.some.inj taken
      exact inv.userPed own ped
    · cases taken
  | userNode node value =>
    obtain rfl := Option.some.inj taken
    exact inv.setNode (.other node) value (by simp) (by simp)
  | endIteration a =>
    simp only [loopStep] at taken
    split at taken
    · rename_i at_
      split at taken
      · rename_i balanced
        obtain rfl := Option.some.inj taken
        exact inv.endIteration at_ balanced
      · cases taken
    · cases taken
  | sync a =>
    simp only [loopStep] at taken
    split at taken
    · rename_i at_
      obtain rfl := Option.some.inj taken
      exact inv.sync at_
    · cases taken
  | return_ b =>
    simp only [loopStep] at taken
    split at taken
    · rename_i at_
      split at taken
      · rename_i spawner
        obtain rfl := Option.some.inj taken
        exact inv.returnTo at_ spawner
      · obtain rfl := Option.some.inj taken
        exact inv.returnRoot at_
    · cases taken

omit [DecidableEq W] in
/-- The invariant holds on entry. -/
theorem loopInv_enter (count : Nat) (w : W) (ped : W → PedigreeNode) (node : PedigreeAddr → PedigreeNode) :
    LoopInv count (ped w) (LoopState.enter w ped node) := by
  have place : ((noCall : LoopCall W)).place = .finished := rfl
  have high : ((noCall : LoopCall W)).high = 0 := rfl
  have spawner : ((noCall : LoopCall W)).spawner = none := rfl
  constructor <;> simp only [LoopState.enter] <;> grind

/-- The invariant holds in every reachable state. -/
theorem loopInv_of_reachable {grain : Nat} {w : W} {ped : W → PedigreeNode}
    {node : PedigreeAddr → PedigreeNode} (reachable : (loopMachine count grain w ped node).Reachable s) :
    LoopInv count (ped w) s := by
  refine reachable.invariant ?_ ?_
  · rintro s rfl
    exact loopInv_enter count w ped node
  · intro s label s' _ inv taken
    exact inv.step taken

end Workers

/-- The pedigrees in a loop of `count` iterations whose root, saved after the initial spawn, is `root`. -/
structure LoopPedigreesFlat (count : UInt64) (root : PedigreeNode) (s : LoopState W) : Prop where
  /-- At the start of iteration `i` the pedigree is rank 1, under rank `i + 1`, under the root. -/
  iteration : ∀ a i w, (s.calls a).place = .iteration i w →
    i < count.toNat ∧ s.ped w = { rank := 1, parent := some (.leaf a) }
      ∧ (s.node (.leaf a)).rank.toNat = i + 1 ∧ (s.node (.leaf a)).parent = some .root
      ∧ s.node .root = root
  /-- After the loop it is the root with its rank increased by one. -/
  after : ∀ w, s.root = .ended w → s.ped w = { rank := root.rank + 1, parent := root.parent }

/-- The pedigrees of a `cilk_for` are flat, for every trip count and grain, on any number of workers, and
however its calls are stolen and its strands move. -/
theorem cilk_for_pedigrees_flat [DecidableEq W] (count : UInt64) (grain : Nat) (w : W)
    (ped : W → PedigreeNode) (node : PedigreeAddr → PedigreeNode) (s : LoopState W)
    (reachable : (loopMachine count.toNat grain w ped node).Reachable s) :
    LoopPedigreesFlat count { rank := (ped w).rank + 1, parent := (ped w).parent } s := by
  have inv := loopInv_of_reachable reachable
  constructor
  · intro a i w' at_
    have ⟨more, leaf⟩ := inv.leaf a i (by simp [at_])
    have bound : i < count.toNat := Nat.lt_of_lt_of_le more (inv.within a)
    have started : s.next ≠ 0 := by
      have made := inv.known (a := a) (by simp [at_])
      omega
    refine ⟨bound, inv.start a i w' at_, ?_, by rw [leaf], inv.rootNode started⟩
    have small := count.toNat_lt
    rw [leaf]
    simp only [UInt64.toNat_add, UInt64.toNat_ofNat', UInt64.toNat_one]
    omega
  · intro w' ended
    exact inv.ended w' ended

/-- A loop of two iterations with grain 1 whose second half is stolen while the first has not started. -/
def stolenHalf : LoopState (Fin 2) :=
  (loopMachine 2 1 0 (fun _ => { rank := 5, parent := none }) fun _ => { rank := 0, parent := none }).after
    (LoopState.enter 0 (fun _ => { rank := 5, parent := none }) fun _ => { rank := 0, parent := none })
    [.noop none, .split 0, .steal 0 1, .callBody 0, .callBody 1]

/-- Both iterations are about to start there. -/
example : (stolenHalf.calls 0).place = .iteration 1 1 ∧ (stolenHalf.calls 1).place = .iteration 0 0 := by
  decide

/-- Its pedigrees are flat, under a root of rank 6. -/
theorem cilk_for_pedigrees_flat_stolen : LoopPedigreesFlat 2 { rank := 6, parent := none } stolenHalf :=
  cilk_for_pedigrees_flat 2 1 0 (fun _ => { rank := 5, parent := none })
    (fun _ => { rank := 0, parent := none }) stolenHalf (.after (.start rfl) _)

end CilkL
