/-
Module: CilkL.Proofs.FutureInvariant
Layer: Proofs
Purpose: The invariant of futures, their getters and their puts. The counter of a future is the number of
  tickets drawn, less 2^31 once put has fetched; the deques that drew a ticket before put (the holders)
  are those put has visited, those linked and not visited yet (pending), and those that are still to
  exchange the tail; and while put has deques to visit, the pending ones hang off the node its walk
  stands at, as a list some of whose links are in flight. The one step that can break this is the reset
  of a link a walk stands at, so it is proved for the runs without such a reset.
Imports: CilkL.Library.HalfLinkedList, CilkL.Runtime.Future, Mathlib.Data.List.Nodup,
  Mathlib.Data.List.Perm.Subperm
Trusted boundary: none (fully proved)
Main exports: FutureInv, ResetAgrees, FutureInv.of_initial, FutureInv.nodes_disjoint,
  GetterPc.SameRole, GetterPc.NoRole
Open obligations: none
-/
import CilkL.Library.HalfLinkedList
import CilkL.Runtime.Future
import Mathlib.Data.List.Nodup
import Mathlib.Data.List.Perm.Subperm

namespace CilkL

variable {φ δ T : Type}

/-- A property the new value lacks holds of another argument. -/
theorem setAt_of {α β : Type} [DecidableEq α] {g : α → β} {a x : α} {b : β} {P : β → Prop}
    (notNew : ¬ P b) (holds : P (setAt g a b x)) : x ≠ a ∧ P (g x) := by
  by_cases here : x = a
  · exact absurd (by simpa [here] using holds) notNew
  · exact ⟨here, by rwa [setAt_other here] at holds⟩

/-- A property the old value lacks survives the change. -/
theorem setAt_keep {α β : Type} [DecidableEq α] {g : α → β} {a x : α} {b : β} {P : β → Prop}
    (notOld : ¬ P (g a)) (holds : P (g x)) : P (setAt g a b x) := by
  by_cases here : x = a
  · exact absurd (here ▸ holds) notOld
  · rwa [setAt_other here]

/-! ### What a program counter says -/

/-- The getter of `f` holds a ticket and has not exchanged the tail yet. -/
def GetterPc.BeforeLink (f : φ) : GetterPc φ δ → Prop
  | .get g .resetLink | .get g .exchangeTail => g = f
  | _ => False

/-- The getter of `f` has exchanged the tail and is not woken yet. -/
def GetterPc.InList (f : φ) : GetterPc φ δ → Prop
  | .get g (.storeNext _) | .get g .suspend | .get g .suspended => g = f
  | _ => False

/-- The getter of `f` has stored the link to itself and is not woken yet. -/
def GetterPc.Stored (f : φ) : GetterPc φ δ → Prop
  | .get g .suspend | .get g .suspended => g = f
  | _ => False

/-- The link of the deque is in use for `f`. -/
def GetterPc.OwnsLink (f : φ) : GetterPc φ δ → Prop
  | .get g .exchangeTail | .get g (.storeNext _) | .get g .suspend | .get g .suspended => g = f
  | _ => False

/-- The getter of `f` is past the point where it may be suspended. -/
def GetterPc.Passed (f : φ) : GetterPc φ δ → Prop
  | .get g .resumable | .get g .assertReady | .get g .load => g = f
  | _ => False

/-- The assertion failed. -/
def GetterPc.Failed : GetterPc φ δ → Prop
  | .get _ .failed => True
  | _ => False

/-- The getter is about to store the link from this node to its own. -/
def GetterPc.StoringTo (node : LinkNode φ δ) : GetterPc φ δ → Prop
  | .get _ (.storeNext oldTail) => oldTail = node
  | _ => False

/-- The getter of `f` is about to exchange the tail. -/
def GetterPc.Exchanging (f : φ) : GetterPc φ δ → Prop
  | .get g .exchangeTail => g = f
  | _ => False

/-- How many deques the walk of `put` still has to visit. -/
def PutPc.remaining : PutPc φ δ → Int
  | .first numDeques | .walk _ numDeques _ | .wake _ numDeques _ => numDeques
  | _ => 0

/-- The node at which the walk stands; the head of the future while it has not moved. -/
def PutPc.node (f : φ) : PutPc φ δ → LinkNode φ δ
  | .walk node _ _ | .wake node _ _ => node
  | _ => .head f

/-- The deques `put` has found and not resumed. -/
def PutPc.held : PutPc φ δ → List δ
  | .walk _ _ ret | .returned ret => ret.toList
  | .wake node _ ret => node.d.toList ++ ret.toList
  | _ => []

/-- The list of the future is still to be walked. -/
def PutPc.Active (pc : PutPc φ δ) : Prop := pc.fetched = false ∨ pc.remaining ≠ 0

/-- The walk stands at the link of this deque and has deques to visit. -/
def PutPc.StandsAt (f : φ) (d : δ) (pc : PutPc φ δ) : Prop :=
  pc.node f = .link d ∧ pc.remaining ≠ 0

/-! ### The invariant -/

/-- The deques whose getter drew a ticket >= 0 before put. -/
def FutureState.holders (s : FutureState φ δ T) (f : φ) : List δ :=
  ((s.draws f).filter fun draw => 0 ≤ draw.ticket ∧ draw.afterPut = false).map Draw.deque

/-- The deques in the list that `put` has not visited. -/
def FutureState.pending (s : FutureState φ δ T) (f : φ) : List δ :=
  (s.linked f).drop (s.visited f).length

/-- The store of the link from `a` to `b` is still to come. -/
def FutureState.inFlight (s : FutureState φ δ T) (a b : LinkNode φ δ) : Prop :=
  ∃ d, b = .link d ∧ (s.getter d).StoringTo a

/-- The node of the walk and the links of the pending deques. -/
def FutureState.nodes (s : FutureState φ δ T) (f : φ) : List (LinkNode φ δ) :=
  (s.put f).node f :: (s.pending f).map .link

/-- The counter, the tickets and the values. -/
structure TicketInv (s : FutureState φ δ T) : Prop where
  count_eq : ∀ f, s.mNumSuspendedDeques f =
    (s.draws f).length - (if (s.put f).fetched then 2 ^ 31 else 0)
  ticket_sign : ∀ f, ∀ draw ∈ s.draws f, draw.ticket < 0 ↔ draw.afterPut = true
  before_put : ∀ f, (s.put f).fetched = false → ∀ draw ∈ s.draws f, draw.afterPut = false
  result_set : ∀ f, s.put f ≠ .idle → s.mResult f ≠ none
  gets_result : ∀ f, ∀ got ∈ s.gets f,
    got.afterPut = true ∧ got.value = s.mResult f ∧ (s.put f).fetched = true
  passed : ∀ f d, (s.getter d).Passed f → (s.put f).fetched = true
  not_failed : ∀ d, ¬ (s.getter d).Failed
  numDeques_eq : ∀ f, (s.put f).fetched = true → s.numDeques f = some ((s.holders f).length : Int)

/-- Where the holders of each future are. -/
structure HolderInv (s : FutureState φ δ T) : Prop where
  holders_nodup : ∀ f, (s.holders f).Nodup
  linked_nodup : ∀ f, (s.linked f).Nodup
  linked_sub : ∀ f, s.linked f ⊆ s.holders f
  visited_initial : ∀ f, s.visited f <+: s.linked f
  unvisited : ∀ f, (s.put f).node f = .head f ∧ (s.put f).Active → s.visited f = []
  remaining_eq : ∀ f, (s.put f).fetched = true →
    (s.put f).remaining + (s.visited f).length = (s.holders f).length
  before_iff : ∀ f d, (s.getter d).BeforeLink f ↔ d ∈ s.holders f ∧ d ∉ s.linked f
  inList_of_pending : ∀ f, ∀ d ∈ s.pending f, (s.getter d).InList f
  stored_of_held : ∀ f, ∀ d ∈ (s.put f).held, (s.getter d).Stored f ∧ d ∈ s.visited f
  placed : ∀ f d, (s.getter d).InList f → d ∈ s.pending f ∨ d ∈ (s.put f).held
  held_nodup : ∀ f, (s.put f).held.Nodup
  first_pos : ∀ f numDeques, s.put f = .first numDeques → 0 < numDeques

/-- How the pending deques are linked. -/
structure LinkInv (s : FutureState φ δ T) : Prop where
  node_head : ∀ f g, (s.put f).node f = .head g → g = f
  fresh : ∀ f d, (s.getter d).Exchanging f → s.next (.link d) = none
  threaded : ∀ f, (s.put f).Active → HalfLinked s.next s.inFlight (s.nodes f)
  tail_eq : ∀ f, (s.put f).Active → (s.nodes f).getLast? = some (s.tail f)
  stands_visited : ∀ f d, (s.put f).StandsAt f d → d ∈ s.visited f
  stands_owns : ∀ f d, (s.put f).StandsAt f d → ∀ g, (s.getter d).OwnsLink g → g = f
  stands_unique : ∀ f g d, (s.put f).StandsAt f d → (s.put g).StandsAt g d → f = g

/-- The invariant of futures. -/
structure FutureInv (s : FutureState φ δ T) : Prop extends TicketInv s, HolderInv s, LinkInv s

/-- No walk stands at the link that the step resets. -/
def ResetAgrees (s : FutureState φ δ T) : FutureLabel φ δ T → Prop
  | .getResetLink d => ∀ f, ¬ (s.put f).StandsAt f d
  | _ => True

theorem FutureInv.of_initial : FutureInv (.initial φ δ T) where
  count_eq := by simp [FutureState.initial, PutPc.fetched]
  ticket_sign := by simp [FutureState.initial]
  before_put := by simp [FutureState.initial]
  result_set := by simp [FutureState.initial]
  gets_result := by simp [FutureState.initial]
  passed := by simp [FutureState.initial, GetterPc.Passed]
  not_failed := by simp [FutureState.initial, GetterPc.Failed]
  numDeques_eq := by simp [FutureState.initial, PutPc.fetched]
  holders_nodup := by simp [FutureState.initial, FutureState.holders]
  linked_nodup := by simp [FutureState.initial]
  linked_sub := by simp [FutureState.initial]
  visited_initial := by simp [FutureState.initial]
  unvisited := by simp [FutureState.initial]
  remaining_eq := by simp [FutureState.initial, PutPc.fetched]
  before_iff := by simp [FutureState.initial, FutureState.holders, GetterPc.BeforeLink]
  inList_of_pending := by simp [FutureState.initial, FutureState.pending]
  stored_of_held := by simp [FutureState.initial, PutPc.held]
  placed := by simp [FutureState.initial, GetterPc.InList]
  held_nodup := by simp [FutureState.initial, PutPc.held]
  first_pos := by simp [FutureState.initial]
  node_head := by simp [FutureState.initial, PutPc.node]
  fresh := by simp [FutureState.initial, GetterPc.Exchanging]
  threaded := by simp [FutureState.initial, FutureState.nodes, FutureState.pending, HalfLinked]
  tail_eq := by simp [FutureState.initial, FutureState.nodes, FutureState.pending, PutPc.node]
  stands_visited := by simp [FutureState.initial, PutPc.StandsAt, PutPc.node]
  stands_owns := by simp [FutureState.initial, PutPc.StandsAt, PutPc.node]
  stands_unique := by simp [FutureState.initial, PutPc.StandsAt, PutPc.node]

/-! ### Consequences of the invariant -/

theorem PutPc.node_of_unfetched {f : φ} {pc : PutPc φ δ} (unfetched : pc.fetched = false) :
    pc.node f = .head f := by
  cases pc <;> simp [PutPc.fetched, PutPc.node] at *

theorem PutPc.fetched_of_node {f : φ} {d : δ} {pc : PutPc φ δ} (node : pc.node f = .link d) :
    pc.fetched = true := by
  cases pc <;> simp [PutPc.fetched, PutPc.node] at *

/-- Before put nothing is visited. -/
theorem HolderInv.visited_nil {s : FutureState φ δ T} (inv : HolderInv s) {f : φ}
    (unfetched : (s.put f).fetched = false) : s.visited f = [] :=
  inv.unvisited f ⟨PutPc.node_of_unfetched unfetched, .inl unfetched⟩

/-- What was linked is visited or pending. -/
theorem HolderInv.linked_eq {s : FutureState φ δ T} (inv : HolderInv s) (f : φ) :
    s.linked f = s.visited f ++ s.pending f := by
  obtain ⟨rest, split⟩ := inv.visited_initial f
  simp [FutureState.pending, ← split]

theorem HolderInv.pending_linked {s : FutureState φ δ T} (inv : HolderInv s) {f : φ} {d : δ}
    (pending : d ∈ s.pending f) : d ∈ s.linked f := by
  rw [inv.linked_eq f]
  exact List.mem_append_right _ pending

theorem HolderInv.visited_linked {s : FutureState φ δ T} (inv : HolderInv s) {f : φ} {d : δ}
    (visited : d ∈ s.visited f) : d ∈ s.linked f :=
  (inv.visited_initial f).subset visited

theorem HolderInv.pending_nodup {s : FutureState φ δ T} (inv : HolderInv s) (f : φ) :
    (s.pending f).Nodup :=
  (inv.linked_nodup f).sublist (List.drop_sublist _ _)

theorem HolderInv.pending_unvisited {s : FutureState φ δ T} (inv : HolderInv s) {f : φ} {d : δ}
    (pending : d ∈ s.pending f) : d ∉ s.visited f := by
  have nodup := inv.linked_nodup f
  rw [inv.linked_eq f, List.nodup_append'] at nodup
  exact fun visited => nodup.2.2 visited pending

/-- A holder is about to link, in the list, or visited. -/
theorem HolderInv.holder_cases {s : FutureState φ δ T} (inv : HolderInv s) {f : φ} {d : δ}
    (holder : d ∈ s.holders f) :
    (s.getter d).BeforeLink f ∨ d ∈ s.pending f ∨ d ∈ s.visited f := by
  by_cases linked : d ∈ s.linked f
  · rw [inv.linked_eq f, List.mem_append] at linked
    exact .inr linked.symm
  · exact .inl ((inv.before_iff f d).2 ⟨holder, linked⟩)

theorem HolderInv.visited_sub {s : FutureState φ δ T} (inv : HolderInv s) (f : φ) :
    s.visited f ⊆ s.holders f :=
  fun _ visited => inv.linked_sub f (inv.visited_linked visited)

theorem HolderInv.visited_nodup {s : FutureState φ δ T} (inv : HolderInv s) (f : φ) :
    (s.visited f).Nodup :=
  (inv.linked_nodup f).sublist (inv.visited_initial f).sublist

/-- When put has come to the end of its walk it has visited every holder. -/
theorem HolderInv.visited_perm {s : FutureState φ δ T} (inv : HolderInv s) {f : φ}
    (fetched : (s.put f).fetched = true) (finished : (s.put f).remaining = 0) :
    (s.visited f).Perm (s.holders f) := by
  have counts := inv.remaining_eq f fetched
  have subperm := List.subperm_of_subset (inv.visited_nodup f) (inv.visited_sub f)
  exact subperm.perm_of_length_le (by omega)

/-- While a holder is not visited, put has not come to the end of its walk. -/
theorem HolderInv.active_of_unvisited {s : FutureState φ δ T} (inv : HolderInv s) {f : φ} {d : δ}
    (holder : d ∈ s.holders f) (unvisited : d ∉ s.visited f) : (s.put f).Active := by
  cases fetched : (s.put f).fetched with
  | false => exact .inl fetched
  | true =>
      right
      intro finished
      exact unvisited ((inv.visited_perm fetched finished).mem_iff.2 holder)

/-- A deque is in the list of one future only. -/
theorem GetterPc.InList.unique {f g : φ} {pc : GetterPc φ δ} (one : pc.InList f) (two : pc.InList g) :
    f = g := by
  unfold GetterPc.InList at one two
  split at one <;> simp_all

theorem GetterPc.InList.owns {f : φ} {pc : GetterPc φ δ} (waits : pc.InList f) : pc.OwnsLink f := by
  unfold GetterPc.InList at waits
  split at waits <;> simp_all [GetterPc.OwnsLink]

/-- A walk at a link that is not finished stands there. -/
theorem PutPc.Active.standsAt {f : φ} {d : δ} {pc : PutPc φ δ} (active : pc.Active)
    (node : pc.node f = .link d) : pc.StandsAt f d :=
  ⟨node, active.resolve_left (by simp [PutPc.fetched_of_node node])⟩

/-- The deques whose link is in the list of a future. -/
theorem FutureInv.link_mem_nodes {s : FutureState φ δ T} (inv : FutureInv s) {f : φ} {d : δ}
    (active : (s.put f).Active) (mem : .link d ∈ s.nodes f) :
    (s.put f).StandsAt f d ∨ (s.getter d).InList f := by
  simp only [FutureState.nodes, List.mem_cons, List.mem_map, LinkNode.link.injEq,
    exists_eq_right] at mem
  rcases mem with walk | pending
  · exact .inl (active.standsAt walk.symm)
  · exact .inr (inv.inList_of_pending f d pending)

/-- No node occurs twice in the list of a future. -/
theorem FutureInv.nodes_nodup {s : FutureState φ δ T} (inv : FutureInv s) {f : φ}
    (active : (s.put f).Active) : (s.nodes f).Nodup := by
  rw [FutureState.nodes, List.nodup_cons]
  refine ⟨?_, (inv.pending_nodup f).map fun _ _ => LinkNode.link.inj⟩
  intro mem
  obtain ⟨d, pending, link⟩ := List.mem_map.1 mem
  exact inv.pending_unvisited pending (inv.stands_visited f d (active.standsAt link.symm))

/-- The lists of two futures share no node. -/
theorem FutureInv.nodes_disjoint {s : FutureState φ δ T} (inv : FutureInv s) {f g : φ}
    (activeF : (s.put f).Active) (activeG : (s.put g).Active) {node : LinkNode φ δ}
    (inF : node ∈ s.nodes f) (inG : node ∈ s.nodes g) : f = g := by
  cases node with
  | link d =>
      rcases inv.link_mem_nodes activeF inF with standsF | waitsF <;>
        rcases inv.link_mem_nodes activeG inG with standsG | waitsG
      · exact inv.stands_unique f g d standsF standsG
      · exact (inv.stands_owns f d standsF g waitsG.owns).symm
      · exact inv.stands_owns g d standsG f waitsF.owns
      · exact waitsF.unique waitsG
  | head h =>
      simp only [FutureState.nodes, List.mem_cons, List.mem_map, reduceCtorEq, and_false,
        exists_false, or_false] at inF inG
      exact (inv.node_head f h inF.symm).symm.trans (inv.node_head g h inG.symm)

/-- A negative counter means that put has fetched. -/
theorem TicketInv.fetched_of_neg {s : FutureState φ δ T} (inv : TicketInv s) {f : φ}
    (negative : s.mNumSuspendedDeques f < 0) : (s.put f).fetched = true := by
  have count := inv.count_eq f
  by_contra unfetched
  rw [if_neg unfetched] at count
  omega

/-- While fewer than 2^31 tickets are drawn, the counter of a fetched future is negative. -/
theorem TicketInv.neg_of_fetched {s : FutureState φ δ T} (inv : TicketInv s) {f : φ}
    (few : (s.draws f).length < 2 ^ 31) (fetched : (s.put f).fetched = true) :
    s.mNumSuspendedDeques f < 0 := by
  have count := inv.count_eq f
  rw [if_pos fetched] at count
  omega

/-! ### Roles -/

/-- Two program counters that hold the same ticket and use the link in the same way. -/
structure GetterPc.SameRole (pc pc' : GetterPc φ δ) : Prop where
  before : ∀ f, pc'.BeforeLink f ↔ pc.BeforeLink f
  inList : ∀ f, pc'.InList f ↔ pc.InList f
  stored : ∀ f, pc'.Stored f ↔ pc.Stored f
  owns : ∀ f, pc'.OwnsLink f → pc.OwnsLink f
  storing : ∀ node, pc'.StoringTo node ↔ pc.StoringTo node
  fresh : ∀ f, pc'.Exchanging f → pc.Exchanging f

/-- The program counters that neither hold a ticket to wait with nor use their link. -/
def GetterPc.NoRole : GetterPc φ δ → Prop
  | .get _ .resetLink | .get _ .exchangeTail | .get _ (.storeNext _) | .get _ .suspend
  | .get _ .suspended => False
  | _ => True

theorem GetterPc.NoRole.beforeLink {pc : GetterPc φ δ} (free : pc.NoRole) (f : φ) :
    ¬ pc.BeforeLink f := by
  unfold GetterPc.BeforeLink
  split <;> simp_all [GetterPc.NoRole]

theorem GetterPc.NoRole.ownsLink {pc : GetterPc φ δ} (free : pc.NoRole) (f : φ) :
    ¬ pc.OwnsLink f := by
  unfold GetterPc.OwnsLink
  split <;> simp_all [GetterPc.NoRole]

theorem GetterPc.NoRole.inList {pc : GetterPc φ δ} (free : pc.NoRole) (f : φ) : ¬ pc.InList f :=
  fun waits => free.ownsLink f waits.owns

theorem GetterPc.Stored.inList {f : φ} {pc : GetterPc φ δ} (stored : pc.Stored f) : pc.InList f := by
  unfold GetterPc.Stored at stored
  split at stored <;> simp_all [GetterPc.InList]

theorem GetterPc.NoRole.stored {pc : GetterPc φ δ} (free : pc.NoRole) (f : φ) : ¬ pc.Stored f :=
  fun stored => free.inList f stored.inList

theorem GetterPc.NoRole.storingTo {pc : GetterPc φ δ} (free : pc.NoRole) (node : LinkNode φ δ) :
    ¬ pc.StoringTo node := by
  unfold GetterPc.StoringTo
  split <;> simp_all [GetterPc.NoRole]

theorem GetterPc.NoRole.exchanging {pc : GetterPc φ δ} (free : pc.NoRole) (f : φ) :
    ¬ pc.Exchanging f := by
  unfold GetterPc.Exchanging
  split <;> simp_all [GetterPc.NoRole]

theorem GetterPc.NoRole.sameRole {pc pc' : GetterPc φ δ} (free : pc.NoRole) (free' : pc'.NoRole) :
    pc.SameRole pc' where
  before f := iff_of_false (free'.beforeLink f) (free.beforeLink f)
  inList f := iff_of_false (free'.inList f) (free.inList f)
  stored f := iff_of_false (free'.stored f) (free.stored f)
  owns f own := absurd own (free'.ownsLink f)
  storing node := iff_of_false (free'.storingTo node) (free.storingTo node)
  fresh f exchanging := absurd exchanging (free'.exchanging f)

end CilkL
